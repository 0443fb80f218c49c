import Statecraft.Token.Scan

/-! Lexemes tile the text they are scanned from. Every character belongs to exactly one
lexeme, each lexeme is what the first matching kind covers at its place, and its range is
the place it takes in the text. So ranges never overlap and the last one ends with the
text. -/
namespace Statecraft

namespace Location

variable {a b c : Location}

theorem lt_irrefl (a : Location) : ¬a < a := by
  rw [lt_def]
  omega

theorem le_refl (a : Location) : a ≤ a := by
  rw [le_def]
  omega

theorem le_trans (first : a ≤ b) (second : b ≤ c) : a ≤ c := by
  simp only [le_def] at *
  omega

theorem lt_of_lt_of_le (first : a < b) (second : b ≤ c) : a < c := by
  simp only [lt_def, le_def] at *
  omega

theorem lt_of_le_of_lt (first : a ≤ b) (second : b < c) : a < c := by
  simp only [lt_def, le_def] at *
  omega

theorem le_of_lt (before : a < b) : a ≤ b := by
  simp only [lt_def, le_def] at *
  omega

theorem lt_step (l : Location) (c : Char) : l < l.step c := by
  rw [lt_def, step]
  split
  · exact .inl (Int.lt_succ l.line)
  · exact .inr ⟨rfl, Int.lt_succ l.column⟩

theorem le_after (l : Location) (text : List Char) : l ≤ l.after text := by
  induction text generalizing l with
  | nil => exact le_refl l
  | cons c rest ih => exact le_trans (le_of_lt (lt_step l c)) (ih (l.step c))

/-- The last character of a text stands before what follows it. -/
theorem after_dropLast_lt (l : Location) {text : List Char} (filled : text ≠ []) :
    l.after text.dropLast < l.after text := by
  have whole := List.dropLast_concat_getLast filled
  rw [← congrArg l.after whole, after_append]
  exact lt_step _ _

end Location

namespace Pattern

theorem length_of_wordAt {word cs : List Char} (found : wordAt word cs = true) :
    word.length ≤ cs.length := by
  simp only [wordAt, Bool.and_eq_true] at found
  exact (List.isPrefixOf_iff_prefix.mp found.1).length_le

theorem length_takeWhile_le (p : Char → Bool) (cs : List Char) :
    (cs.takeWhile p).length ≤ cs.length :=
  (List.takeWhile_prefix p).length_le

/-- No pattern covers more than there is. -/
theorem length_le (p : Pattern) (cs : List Char) : p.length cs ≤ cs.length := by
  cases p with
  | blanks => exact length_takeWhile_le isBlank cs
  | comment =>
    simp only [length]
    split
    · rename_i rest
      have line := length_takeWhile_le (· ≠ '\n') rest
      simp only [List.isEmpty_iff, List.drop_eq_nil_iff, List.length_cons]
      split <;> omega
    · omega
  | symbol text =>
    simp only [length]
    split
    · rename_i starts
      exact (List.isPrefixOf_iff_prefix.mp starts).length_le
    · omega
  | words choices =>
    simp only [length]
    split
    · rename_i word found
      have starts := List.find?_some found
      exact length_of_wordAt starts
    · omega
  | number =>
    have whole := length_takeWhile_le Char.isDigit cs
    simp only [length]
    split
    · omega
    · split
      · rename_i rest point
        have places := length_takeWhile_le Char.isDigit rest
        have split := congrArg List.length point
        simp only [List.length_drop, List.length_cons] at split
        split <;> omega
      · exact whole
  | quotation =>
    simp only [length]
    split
    · rename_i rest
      have inside := length_takeWhile_le (· ≠ '\'') rest
      simp only [List.isEmpty_iff, List.drop_eq_nil_iff, List.length_cons]
      split <;> omega
    · omega
  | name =>
    simp only [length]
    split
    · rename_i c rest
      have more := length_takeWhile_le isNameRest rest
      simp only [List.length_cons]
      split <;> omega
    · omega
  | nothing => exact Nat.zero_le _

end Pattern

namespace TokenKind

variable {cs : List Char} {kind : TokenKind} {n : Nat}

/-- The chosen kind covers as much as is said, and that is something. -/
theorem firstMatch?_covers (found : firstMatch? cs = some (kind, n)) :
    kind.matchLength cs = n ∧ n ≠ 0 := by
  obtain ⟨other, -, covers⟩ := List.exists_of_findSome?_eq_some found
  simp only [Option.ite_none_left_eq_some, Option.some.injEq, Prod.mk.injEq] at covers
  obtain ⟨filled, rfl, rfl⟩ := covers
  exact ⟨rfl, filled⟩

theorem firstMatch?_bounds (found : firstMatch? cs = some (kind, n)) : 0 < n ∧ n ≤ cs.length := by
  obtain ⟨rfl, filled⟩ := firstMatch?_covers found
  exact ⟨Nat.pos_of_ne_zero filled, Pattern.length_le kind.pattern cs⟩

end TokenKind

namespace Lexeme

def selection : Lexeme → Selection
  | token t => t.span
  | stray s => .char s.location

def choice : Lexeme → Option (TokenKind × Nat)
  | token t => some (t.kind, t.text.toList.length)
  | stray _ => none

/-- The lexeme is the one that starts at the location, where the text goes on with the
given characters after it. -/
structure Placed (l : Location) (following : List Char) (x : Lexeme) : Prop where
  filled : x.chars ≠ []
  selection : x.selection = ⟨l, l.after x.chars.dropLast⟩
  chosen : TokenKind.firstMatch? (x.chars ++ following) = x.choice

/-- Each lexeme starts where the one before it ends. -/
inductive Tiles : Location → List Lexeme → Prop where
  | nil {l : Location} : Tiles l []
  | cons {l : Location} {x : Lexeme} {rest : List Lexeme}
      (placed : x.Placed l (rest.flatMap chars)) (later : Tiles (l.after x.chars) rest) :
      Tiles l (x :: rest)

theorem start_eq (x : Lexeme) : x.start = x.selection.start := by
  cases x <;> rfl

theorem flatMap_scanFrom (start : Location) (cs : List Char) :
    (scanFrom start cs).flatMap chars = cs := by
  fun_induction scanFrom start cs with
  | case1 start => rfl
  | case2 start c rest kind n found tail ih =>
    rw [List.flatMap_cons, ih]
    simp [ofChars, chars, tail]
  | case3 start c rest missing ih => simp [ih, chars]

theorem scanFrom_tiles (start : Location) (cs : List Char) : Tiles start (scanFrom start cs) := by
  fun_induction scanFrom start cs with
  | case1 start => exact .nil
  | case2 start c rest kind n found tail ih =>
    have bounds := TokenKind.firstMatch?_bounds found
    have chars_eq : chars (ofChars kind start c tail) = c :: tail := by simp [ofChars, chars]
    refine .cons ⟨?_, ?_, ?_⟩ (chars_eq.symm ▸ ih)
    · simp [chars_eq]
    · rw [chars_eq]
      rfl
    · -- What follows in the list is what the scan has not taken yet.
      rw [chars_eq, flatMap_scanFrom, List.cons_append, List.take_append_drop, found]
      simp only [choice, ofChars, String.toList_ofList, List.length_cons, tail, List.length_take]
      simp only [List.length_cons] at bounds
      congr 2
      omega
  | case3 start c rest missing ih =>
    refine .cons ⟨?_, rfl, ?_⟩ ih
    · simp [chars]
    · rw [flatMap_scanFrom]
      exact missing

namespace Tiles

variable {l : Location} {xs before later : List Lexeme} {x : Lexeme}

theorem placed (tiles : Tiles l (before ++ x :: later)) :
    x.Placed (l.after (before.flatMap chars)) (later.flatMap chars) := by
  induction before generalizing l with
  | nil =>
    cases tiles with
    | cons placed _ => exact placed
  | cons y before ih =>
    cases tiles with
    | cons _ rest =>
      rw [List.flatMap_cons, Location.after_append]
      exact ih rest

/-- Lexemes start one after the other, and the text ends after all of them. -/
theorem starts (tiles : Tiles l xs) :
    (∀ place ∈ xs.map (fun x => x.selection.start) ++ [l.after (xs.flatMap chars)], l ≤ place) ∧
      (xs.map (fun x => x.selection.start) ++ [l.after (xs.flatMap chars)]).Pairwise (· < ·) := by
  induction tiles with
  | nil => simp [Location.le_refl]
  | @cons l x rest placed _ ih =>
    obtain ⟨behind, ordered⟩ := ih
    have further : l < l.after x.chars :=
      Location.lt_of_le_of_lt (Location.le_after l _) (Location.after_dropLast_lt l placed.filled)
    rw [List.flatMap_cons, Location.after_append]
    simp only [List.map_cons, List.cons_append, List.forall_mem_cons, List.pairwise_cons,
      placed.selection]
    refine ⟨⟨Location.le_refl l, ?_⟩, ?_, ordered⟩
    · exact fun place member => Location.le_of_lt (Location.lt_of_lt_of_le further (behind _ member))
    · exact fun place member => Location.lt_of_lt_of_le further (behind _ member)

/-- Every lexeme ends before all later ones start. -/
theorem disjoint (tiles : Tiles l xs) :
    xs.Pairwise fun x y => x.selection.stop < y.selection.start := by
  induction tiles with
  | nil => exact .nil
  | @cons l x rest placed later ih =>
    refine List.pairwise_cons.mpr ⟨fun y member => ?_, ih⟩
    have behind := later.starts.1 y.selection.start
      (List.mem_append_left _ (List.mem_map_of_mem member))
    rw [placed.selection]
    exact Location.lt_of_lt_of_le (Location.after_dropLast_lt l placed.filled) behind

theorem length_le (tiles : Tiles l xs) : xs.length ≤ (xs.flatMap chars).length := by
  induction tiles with
  | nil => simp
  | @cons l x rest placed _ ih =>
    have filled := List.length_pos_iff.mpr placed.filled
    simp only [List.flatMap_cons, List.length_append, List.length_cons]
    omega

end Tiles

/-- Every lexeme of a source is placed where the characters before it lead to. -/
theorem scan_placed {source : String} {x : Lexeme} (scanned : x ∈ scan source) :
    ∃ before later, source.toList = before ++ x.chars ++ later ∧
      x.Placed (Location.first.after before) later := by
  obtain ⟨before, later, same⟩ := List.append_of_mem scanned
  have tiles : Tiles .first (before ++ x :: later) :=
    same ▸ scanFrom_tiles .first source.toList
  refine ⟨before.flatMap chars, later.flatMap chars, ?_, tiles.placed⟩
  have text := flatMap_scanFrom .first source.toList
  rw [scan] at same
  rw [← text, same]
  simp

def finish (frontier : Location) (lexemes : List Lexeme) : Location :=
  lexemes.foldl (fun _ x => x.next) frontier

theorem Tiles.finish {l : Location} {xs : List Lexeme} (tiles : Tiles l xs) :
    finish l xs = l.after (xs.flatMap chars) := by
  induction tiles with
  | nil => rfl
  | @cons l x rest placed _ ih =>
    have next : x.next = l.after x.chars := by
      rw [next, start_eq, placed.selection]
    rw [List.flatMap_cons, Location.after_append, ← ih, Lexeme.finish, List.foldl_cons, next]
    rfl

/-- The lexemes of a text, put one after the other, are the text. Each one holds at least
one character, is the choice of the first kind that matches where it starts, and has the
range from its first to its last character; the ranges stand in order and apart, and
reading all lexemes leads to the end of the text. -/
theorem scan_tiles_source (source : String) :
    (scan source).flatMap chars = source.toList ∧
      (scan source).length ≤ source.toList.length ∧
      (∀ before x later, scan source = before ++ x :: later →
        x.Placed (Location.first.after (before.flatMap chars)) (later.flatMap chars)) ∧
      (∀ x ∈ scan source, x.selection.Ordered) ∧
      ((scan source).Pairwise fun x y => x.selection.stop < y.selection.start) ∧
      finish .first (scan source) = Location.first.after source.toList := by
  have tiles : Tiles .first (scan source) := scanFrom_tiles _ _
  have text : (scan source).flatMap chars = source.toList := flatMap_scanFrom _ _
  refine ⟨text, text ▸ tiles.length_le, ?_, ?_, tiles.disjoint, text ▸ tiles.finish⟩
  · intro before x later same
    exact (same ▸ tiles).placed
  · intro x member
    obtain ⟨before, later, same⟩ := List.append_of_mem member
    rw [same] at tiles
    rw [Selection.Ordered, tiles.placed.selection]
    exact Location.le_after _ _

end Lexeme

theorem significantTokens_placed {source : String} {t : Token}
    (member : t ∈ significantTokens source) : ∃ before later,
      source.toList = before ++ t.text.toList ++ later ∧
        Lexeme.Placed (Location.first.after before) later (.token t) := by
  obtain ⟨x, scanned, found⟩ := List.mem_filterMap.mp member
  obtain rfl : x = .token t := by
    cases x with
    | stray => cases found
    | token u =>
      simp only [Lexeme.significant?] at found
      split at found
      · contradiction
      · cases found
        rfl
  exact Lexeme.scan_placed scanned

end Statecraft
