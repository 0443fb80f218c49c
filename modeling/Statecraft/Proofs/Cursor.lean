import Statecraft.Reader
import Statecraft.Proofs.Tiling

/-! The reader as a cursor. The tokens of a source make a tape, on which every token
and the end have a place of their own. Wherever a reader is on the tape, it can read the
tape from there on, its location tells where it is, and it can return to its bookmarks.
Of a reader that meets no stray characters this is said again by the tokens before it. -/
namespace Statecraft

/-- Tokens with their places, one after the other, and the place where the text ends. -/
structure Tape where
  tokens : List Token
  finish : Location
  ordered : (tokens.map (fun t => t.span.start) ++ [finish]).Pairwise (· < ·)

namespace Tape

variable {tape : Tape} {a b : List Token}

/-- Where the rest of a tape starts. -/
def place (tape : Tape) (rest : List Token) : Location :=
  (rest.head?.map fun t => t.span.start).getD tape.finish

/-- A token stands before everything that follows it. -/
theorem place_lt {t : Token} {between : List Token} (rest : t :: between ++ b <:+ tape.tokens) :
    t.span.start < tape.place b := by
  obtain ⟨before, same⟩ := rest
  have ordered := tape.ordered
  rw [← same] at ordered
  simp only [List.map_append, List.map_cons, List.append_assoc, List.cons_append] at ordered
  have later := (List.pairwise_cons.mp (List.pairwise_append.mp ordered).2.1).1
  apply later
  cases b with
  | nil => simp [place]
  | cons u more => simp [place]

/-- A place belongs to one rest of the tape only. -/
theorem place_injective (first : a <:+ tape.tokens) (second : b <:+ tape.tokens)
    (same : tape.place a = tape.place b) : a = b := by
  have shorter {a b : List Token} (first : a <:+ tape.tokens) (second : b <:+ tape.tokens)
      (same : tape.place a = tape.place b) (shorter : b.length ≤ a.length) : a = b := by
    obtain ⟨between, rfl⟩ := List.suffix_of_suffix_length_le second first shorter
    cases between with
    | nil => rfl
    | cons t between =>
      have before : t.span.start < tape.place b := place_lt first
      rw [← same] at before
      exact absurd before (Location.lt_irrefl _)
  rcases Nat.le_total b.length a.length with here | here
  · exact shorter first second same here
  · exact (shorter second first same.symm here).symm

end Tape

/-- What is picked from lexemes and has their places is in their order. -/
theorem Lexeme.Tiles.picked {β : Type} {l : Location} {xs : List Lexeme} (tiles : Tiles l xs)
    (pick : Lexeme → Option β) (place : β → Location)
    (same : ∀ x found, pick x = some found → place found = x.selection.start) :
    ((xs.filterMap pick).map place ++ [l.after (xs.flatMap chars)]).Pairwise (· < ·) := by
  have part : ((xs.filterMap pick).map place).Sublist (xs.map fun x => x.selection.start) := by
    clear tiles
    induction xs with
    | nil => exact .slnil
    | cons x rest ih =>
      cases found : pick x with
      | none =>
        rw [List.filterMap_cons_none found]
        exact ih.cons _
      | some b =>
        rw [List.filterMap_cons_some found, List.map_cons, List.map_cons, same x b found]
        exact ih.cons_cons _
  exact tiles.starts.2.sublist (part.append_right _)

theorem Lexeme.start_of_significant {x : Lexeme} {t : Token} (found : x.significant? = some t) :
    t.span.start = x.selection.start := by
  cases x with
  | stray => cases found
  | token u =>
    simp only [significant?] at found
    split at found
    · contradiction
    · cases found
      rfl

def Tape.ofSource (source : String) : Tape where
  tokens := significantTokens source
  finish := Location.first.after source.toList
  ordered := by
    have ordered := (Lexeme.scanFrom_tiles .first source.toList).picked Lexeme.significant?
      (fun t => t.span.start) fun _ _ => Lexeme.start_of_significant
    rwa [Lexeme.flatMap_scanFrom] at ordered

namespace Reader

/-- The reader has the token with the index, or knows that there is none. -/
def Covers (r : Reader) (index : Nat) : Prop :=
  r.base ≤ index ∧
    (index < r.base + r.window.length ∨ index = r.base + r.window.length ∧ r.pending = [])

/-- What the reader has pulled and what it has not is the tape from its base on, and it
can return to its bookmarks. -/
structure Stocks (tape : Tape) (r : Reader) : Prop where
  pulled : tape.tokens.drop r.base = r.window ++ r.pending.filterMap Lexeme.significant?
  finish : Lexeme.finish r.frontier r.pending = tape.finish
  marks : ∀ m ∈ r.marks, m.owner = r.id ∧ m.serial < r.issued ∧ r.Covers m.index

/-- The reader is on the tape at its cursor. -/
structure Keeps (tape : Tape) (r : Reader) : Prop extends r.Stocks tape where
  covers : r.Covers r.cursor

/-- The stray characters that the reader has not come to. -/
def unseen (r : Reader) : List Stray := r.pending.filterMap Lexeme.stray?

variable {tape : Tape} {r : Reader} {rest : List Token}

/-- A pull splits the lexemes behind the next token. Without a token it comes to the
end. -/
theorem pull_split (frontier : Location) (lexemes : List Lexeme) :
    lexemes.filterMap Lexeme.significant? = (pull frontier lexemes).token?.toList ++
        (pull frontier lexemes).pending.filterMap Lexeme.significant? ∧
      lexemes.filterMap Lexeme.stray? = (pull frontier lexemes).strays ++
        (pull frontier lexemes).pending.filterMap Lexeme.stray? ∧
      ((pull frontier lexemes).token? = none → (pull frontier lexemes).pending = []) ∧
      Lexeme.finish (pull frontier lexemes).frontier (pull frontier lexemes).pending =
        Lexeme.finish frontier lexemes := by
  induction lexemes generalizing frontier with
  | nil => simp [pull]
  | cons x more ih =>
    cases found : x.significant? with
    | some t =>
      have token : x.stray? = none := by
        cases x with
        | token => rfl
        | stray => cases found
      simp only [pull, found]
      exact ⟨by simp [found], by simp [token], nofun, rfl⟩
    | none =>
      obtain ⟨tokens, strays, ended, finish⟩ := ih x.next
      simp only [pull, found]
      refine ⟨by simpa [found] using tokens, ?_, ended, finish⟩
      cases stray : x.stray? with
      | none => simpa [stray] using strays
      | some s => simpa [stray] using strays

namespace Keeps

theorem current? (keeps : r.Keeps tape) : r.current? = tape.tokens[r.cursor]? := by
  obtain ⟨low, covers⟩ := keeps.covers
  have same : tape.tokens[r.cursor]? =
      (r.window ++ r.pending.filterMap Lexeme.significant?)[r.cursor - r.base]? := by
    rw [← keeps.pulled, List.getElem?_drop, Nat.add_sub_cancel' low]
  rw [Reader.current?, if_neg (Nat.not_lt.mpr low), same]
  rcases covers with inside | ⟨ended, none⟩
  · rw [List.getElem?_append_left (by omega)]
  · simp [none]

theorem atEnd (keeps : r.Keeps tape) : r.atEnd = true ↔ tape.tokens.length ≤ r.cursor := by
  have current := keeps.current?
  obtain ⟨low, covers⟩ := keeps.covers
  rw [Reader.current?, if_neg (Nat.not_lt.mpr low)] at current
  rw [← List.getElem?_eq_none_iff, ← current, List.getElem?_eq_none_iff]
  simp only [Reader.atEnd, decide_eq_true_eq]
  omega

/-- A reader that knows of no token at a place knows where the text ends. -/
theorem frontier {index : Nat} (keeps : r.Keeps tape) (covers : r.Covers index)
    (ended : tape.tokens.length ≤ index) : r.frontier = tape.finish := by
  obtain ⟨low, inside | ⟨-, none⟩⟩ := covers
  · have length := congrArg List.length keeps.pulled
    simp only [List.length_drop, List.length_append] at length
    omega
  · rw [← keeps.finish, none]
    rfl

theorem location (keeps : r.Keeps tape) :
    r.location = tape.place (tape.tokens.drop r.cursor) := by
  have current := keeps.current?
  simp only [Reader.location, selection, current, Tape.place, List.head?_drop]
  cases found : tape.tokens[r.cursor]? with
  | some t => rfl
  | none => exact keeps.frontier keeps.covers (List.getElem?_eq_none_iff.mp found)

theorem locate {mark : Bookmark} (keeps : r.Keeps tape) (live : mark ∈ r.marks) :
    r.locate mark = tape.place (tape.tokens.drop mark.index) := by
  have covers := (keeps.marks mark live).2.2
  have there : Keeps tape { r with cursor := mark.index } :=
    ⟨⟨keeps.pulled, keeps.finish, keeps.marks⟩, covers⟩
  have current := there.current?
  simp only [Reader.current?, Nat.not_lt.mpr covers.1, if_false] at current
  simp only [Reader.locate, covers.1, if_true, current, Tape.place, List.head?_drop]
  cases found : tape.tokens[mark.index]? with
  | some t => rfl
  | none => exact keeps.frontier covers (List.getElem?_eq_none_iff.mp found)

end Keeps

theorem foldl_min_le (indexes : List Nat) (bound : Nat) :
    indexes.foldl min bound ≤ bound ∧ ∀ i ∈ indexes, indexes.foldl min bound ≤ i := by
  induction indexes generalizing bound with
  | nil => exact ⟨Nat.le_refl bound, nofun⟩
  | cons i more ih =>
    obtain ⟨low, lower⟩ := ih (min bound i)
    rw [List.foldl_cons]
    refine ⟨Nat.le_trans low (Nat.min_le_left _ _), List.forall_mem_cons.mpr ⟨?_, lower⟩⟩
    exact Nat.le_trans low (Nat.min_le_right _ _)

theorem prune_keeps (keeps : r.Keeps tape) : r.prune.Keeps tape := by
  obtain ⟨⟨pulled, finish, marks⟩, covers⟩ := keeps
  obtain ⟨low, lower⟩ := foldl_min_le (r.marks.map Bookmark.index) r.cursor
  -- Nothing is dropped from the oldest index on, be it the cursor's or a bookmark's.
  have keeps {index : Nat} (reachable : r.oldest ≤ index) (covers : r.Covers index) :
      r.prune.Covers index := by
    obtain ⟨base, inside⟩ := covers
    simp only [prune, Covers, List.length_drop]
    refine ⟨by omega, ?_⟩
    rcases inside with inside | ⟨ended, none⟩
    · exact .inl (by omega)
    · exact .inr ⟨by omega, none⟩
  refine ⟨⟨?_, finish, ?_⟩, keeps low covers⟩
  · simp only [prune]
    rw [← List.drop_drop, pulled, List.drop_append_of_le_length (Nat.min_le_right _ _)]
  · intro m member
    obtain ⟨owner, serial, reachable⟩ := marks m member
    exact ⟨owner, serial, keeps (lower _ (List.mem_map_of_mem member)) reachable⟩

/-- Filling finds the token at the cursor. -/
theorem fill_keeps (stocks : r.Stocks tape) (low : r.base ≤ r.cursor)
    (high : r.cursor ≤ r.base + r.window.length) : r.fill.1.Keeps tape := by
  simp only [fill]
  split
  · rename_i needed
    have cursor : r.cursor = r.base + r.window.length :=
      Nat.le_antisymm high (by simpa [atEnd] using needed)
    obtain ⟨pulled, finish, marks⟩ := stocks
    obtain ⟨tokens, -, ended, finish'⟩ := pull_split r.frontier r.pending
    refine ⟨⟨?_, finish'.trans finish, ?_⟩, low, ?_⟩
    · rw [pulled, tokens, List.append_assoc]
    · intro m member
      obtain ⟨owner, serial, base, inside⟩ := marks m member
      refine ⟨owner, serial, base, ?_⟩
      rcases inside with inside | ⟨same, none⟩
      · simp only [List.length_append]
        exact .inl (by omega)
      · rw [none]
        exact .inr ⟨by simpa [pull] using same, rfl⟩
    · simp only [List.length_append]
      cases found : (pull r.frontier r.pending).token? with
      | none => exact .inr ⟨by simpa using cursor, ended found⟩
      | some t => exact .inl (by simp [cursor])
  · rename_i there
    exact ⟨stocks, low, .inl (by simpa [atEnd] using there)⟩

theorem fill_unseen (r : Reader) : r.unseen = r.fill.2 ++ r.fill.1.unseen := by
  simp only [fill]
  split
  · exact (pull_split r.frontier r.pending).2.1
  · rfl

@[simp] theorem fill_cursor (r : Reader) : r.fill.1.cursor = r.cursor := by
  simp only [fill]
  split <;> rfl

@[simp] theorem fill_marks (r : Reader) : r.fill.1.marks = r.marks := by
  simp only [fill]
  split <;> rfl

theorem advance?_eq (more : r.atEnd = false) :
    r.advance? = some ((fill { r with cursor := r.cursor + 1 }).1.prune,
      (fill { r with cursor := r.cursor + 1 }).2) := by
  simp only [advance?, more, Bool.false_eq_true, if_false]

theorem start_keeps (id : Nat) (source : String) :
    (start id (Lexeme.scan source)).1.Keeps (.ofSource source) := by
  have tiles := Lexeme.scanFrom_tiles .first source.toList
  refine fill_keeps ⟨rfl, ?_, nofun⟩ (Nat.le_refl 0) (Nat.le_refl 0)
  exact tiles.finish.trans (congrArg _ (Lexeme.flatMap_scanFrom _ _))

namespace Keeps

/-- The reader moves on by one token and hands out the strays on the way. -/
theorem advance (keeps : r.Keeps tape) (more : r.cursor < tape.tokens.length) :
    ∃ next strays, r.advance? = some (next, strays) ∧ next.Keeps tape ∧
      next.cursor = r.cursor + 1 ∧ next.marks = r.marks ∧ r.unseen = strays ++ next.unseen := by
  have before : r.atEnd = false := by
    rw [← Bool.not_eq_true, keeps.atEnd]
    omega
  have inside : r.cursor < r.base + r.window.length := by simpa [Reader.atEnd] using before
  have filled : (fill { r with cursor := r.cursor + 1 }).1.Keeps tape := by
    refine fill_keeps (r := { r with cursor := r.cursor + 1 }) ?_ ?_ inside
    · exact ⟨keeps.pulled, keeps.finish, keeps.marks⟩
    · exact Nat.le_succ_of_le keeps.covers.1
  refine ⟨_, _, advance?_eq before, prune_keeps filled, ?_, ?_, ?_⟩
  · exact fill_cursor _
  · exact fill_marks _
  · exact fill_unseen { r with cursor := r.cursor + 1 }

theorem advance_end (keeps : r.Keeps tape) (ended : tape.tokens.length ≤ r.cursor) :
    r.advance? = none := by
  simp [advance?, keeps.atEnd.mpr ended]

theorem bookmark (keeps : r.Keeps tape) :
    r.bookmark.2.Keeps tape ∧ r.bookmark.1 ∉ r.marks := by
  obtain ⟨⟨pulled, finish, marks⟩, covers⟩ := keeps
  refine ⟨⟨⟨pulled, finish, ?_⟩, covers⟩, ?_⟩
  · intro m member
    rcases List.mem_append.mp member with old | new
    · obtain ⟨owner, serial, reachable⟩ := marks m old
      exact ⟨owner, Nat.lt_succ_of_lt serial, reachable⟩
    · obtain rfl := List.mem_singleton.mp new
      exact ⟨rfl, Nat.lt_succ_self _, covers⟩
  · intro member
    exact absurd (marks _ member).2.1 (Nat.lt_irrefl _)

/-- The reader returns to where a live bookmark was taken. -/
theorem backtrack {mark : Bookmark} (keeps : r.Keeps tape) (live : mark ∈ r.marks) :
    r.backtrack mark = .ok { r with cursor := mark.index } ∧
      Keeps tape { r with cursor := mark.index } := by
  obtain ⟨owner, -, covers⟩ := keeps.marks mark live
  refine ⟨by simp [Reader.backtrack, owner, live], ?_⟩
  exact ⟨⟨keeps.pulled, keeps.finish, keeps.marks⟩, covers⟩

theorem discard (keeps : r.Keeps tape) (mark : Bookmark) : (r.discard mark).Keeps tape := by
  simp only [Reader.discard]
  split
  · refine prune_keeps ⟨⟨keeps.pulled, keeps.finish, ?_⟩, keeps.covers⟩
    exact fun m member => keeps.marks m (List.mem_of_mem_erase member)
  · exact keeps

end Keeps

theorem discard_marks {mark : Bookmark} {others : List Bookmark}
    (last : r.marks = others ++ [mark]) (fresh : mark ∉ others) :
    (r.discard mark).marks = others := by
  rw [discard, if_pos (by simp [last])]
  simp only [prune, last]
  rw [List.erase_append_right _ fresh, List.erase_cons_head, List.append_nil]

/-- What the reader holds is on the tape, it can return to its bookmarks, and it meets
no stray characters. -/
structure Holds (tape : Tape) (r : Reader) : Prop where
  pulled : tape.tokens.drop r.base = r.window ++ r.pending.filterMap Lexeme.significant?
  clean : ∀ x ∈ r.pending, x.stray? = none
  finish : Lexeme.finish r.frontier r.pending = tape.finish
  marks : ∀ m ∈ r.marks, m.owner = r.id ∧ m.serial < r.issued ∧ r.Covers m.index

/-- The reader stands on the tape before the given tokens. -/
structure Stands (tape : Tape) (r : Reader) (rest : List Token) : Prop extends r.Holds tape where
  here : tape.tokens.drop r.cursor = rest
  covers : r.Covers r.cursor

theorem unseen_eq_nil : r.unseen = [] ↔ ∀ x ∈ r.pending, x.stray? = none :=
  List.filterMap_eq_nil_iff

theorem Keeps.stands (keeps : r.Keeps tape) (clean : r.unseen = [])
    (here : tape.tokens.drop r.cursor = rest) : r.Stands tape rest :=
  ⟨⟨keeps.pulled, unseen_eq_nil.mp clean, keeps.finish, keeps.marks⟩, here, keeps.covers⟩

namespace Stands

theorem keeps (stands : r.Stands tape rest) : r.Keeps tape :=
  ⟨⟨stands.pulled, stands.finish, stands.marks⟩, stands.covers⟩

theorem silent (stands : r.Stands tape rest) : r.unseen = [] := unseen_eq_nil.mpr stands.clean

theorem current? (stands : r.Stands tape rest) : r.current? = rest.head? := by
  rw [stands.keeps.current?, ← stands.here, List.head?_drop]

theorem atEnd (stands : r.Stands tape rest) : r.atEnd = true ↔ rest = [] := by
  rw [stands.keeps.atEnd, ← stands.here, List.drop_eq_nil_iff]

theorem selection_nil (stands : r.Stands tape []) : r.selection = .char tape.finish := by
  have none := stands.current?
  simp only [List.head?_nil] at none
  simp only [selection, none]
  rw [stands.keeps.frontier stands.covers (List.drop_eq_nil_iff.mp stands.here)]

theorem location (stands : r.Stands tape rest) : r.location = tape.place rest := by
  rw [stands.keeps.location, stands.here]

theorem suffix (stands : r.Stands tape rest) : rest <:+ tape.tokens :=
  stands.here ▸ List.drop_suffix _ _

end Stands

theorem advance_stands {t : Token} (stands : r.Stands tape (t :: rest)) :
    ∃ next, r.advance? = some (next, []) ∧ next.Stands tape rest ∧ next.marks = r.marks := by
  have more : r.cursor < tape.tokens.length := by
    have length := congrArg List.length stands.here
    simp only [List.length_drop, List.length_cons] at length
    omega
  obtain ⟨next, strays, moved, keeps, cursor, marks, unseen⟩ := stands.keeps.advance more
  obtain ⟨rfl, clean⟩ := List.append_eq_nil_iff.mp (unseen.symm.trans stands.silent)
  refine ⟨next, moved, keeps.stands clean ?_, marks⟩
  rw [cursor, ← List.drop_drop, stands.here]
  rfl

theorem advance_end (stands : r.Stands tape []) : r.advance? = none :=
  stands.keeps.advance_end (List.drop_eq_nil_iff.mp stands.here)

/-- A reader starts at the front of the tape with nothing to report. -/
theorem start_stands (id : Nat) {source : String}
    (clean : ∀ x ∈ Lexeme.scan source, x.stray? = none) :
    (start id (Lexeme.scan source)).2 = [] ∧
      (start id (Lexeme.scan source)).1.Stands (.ofSource source) (significantTokens source) := by
  have unseen := fill_unseen ⟨id, Lexeme.scan source, .first, [], 0, 0, [], 0⟩
  obtain ⟨strays, silent⟩ := List.append_eq_nil_iff.mp
    (unseen.symm.trans (unseen_eq_nil.mpr clean))
  refine ⟨strays, (start_keeps id source).stands silent ?_⟩
  simp only [start, fill_cursor]
  rfl

theorem bookmark_stands (stands : r.Stands tape rest) :
    r.bookmark.2.Stands tape rest ∧ r.bookmark.2.marks = r.marks ++ [r.bookmark.1] ∧
      r.bookmark.1 ∉ r.marks ∧ tape.tokens.drop r.bookmark.1.index = rest := by
  obtain ⟨keeps, fresh⟩ := stands.keeps.bookmark
  exact ⟨keeps.stands stands.silent stands.here, rfl, fresh, stands.here⟩

/-- The reader returns to where a live bookmark was taken. -/
theorem backtrack_stands {mark : Bookmark} {back : List Token} (stands : r.Stands tape rest)
    (live : mark ∈ r.marks) (there : tape.tokens.drop mark.index = back) :
    ∃ earlier, r.backtrack mark = .ok earlier ∧ earlier.Stands tape back ∧
      earlier.marks = r.marks := by
  obtain ⟨returned, keeps⟩ := stands.keeps.backtrack live
  exact ⟨_, returned, keeps.stands stands.silent there, rfl⟩

theorem discard_stands {mark : Bookmark} {others : List Bookmark} (stands : r.Stands tape rest)
    (last : r.marks = others ++ [mark]) (fresh : mark ∉ others) :
    (r.discard mark).Stands tape rest ∧ (r.discard mark).marks = others := by
  have same : (r.discard mark).cursor = r.cursor ∧ (r.discard mark).unseen = r.unseen := by
    simp only [discard]
    split <;> exact ⟨rfl, rfl⟩
  refine ⟨(stands.keeps.discard mark).stands ?_ ?_, discard_marks last fresh⟩
  · rw [same.2, stands.silent]
  · rw [same.1, stands.here]

end Reader
end Statecraft
