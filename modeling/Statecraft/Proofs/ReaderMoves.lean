import Statecraft.Proofs.Cursor

/-! A reader in use is a cursor into the tokens of its source. Whatever is done with it,
in any order, it shows what a cursor shows of which only indexes are known: where it is,
how far it has been, and where its bookmarks were taken. The window holds the tokens
between two of these indexes, and each stray character is handed out once. -/
namespace Statecraft.Reader

/-- What can be done with a reader. Bookmarks are numbered as they are taken. -/
inductive Move where
  | advance
  | bookmark
  | backtrack (number : Nat)
  | discard (number : Nat)

/-- A reader in use, with all bookmarks taken and all strays handed out so far. -/
structure Session where
  reader : Reader
  issued : List Bookmark
  strays : List Stray

namespace Session

def start (id : Nat) (source : String) : Session :=
  let (reader, strays) := Reader.start id (Lexeme.scan source)
  ⟨reader, [], strays⟩

/-- One move. At the end of the source there is nothing to advance to; a bookmark must
have been taken, and to return to it the reader must accept it. -/
def move (s : Session) : Move → Option Session
  | .advance =>
      match s.reader.advance? with
      | some (next, strays) => some { s with reader := next, strays := s.strays ++ strays }
      | none => some s
  | .bookmark =>
      let (mark, reader) := s.reader.bookmark
      some { s with reader, issued := s.issued ++ [mark] }
  | .backtrack number =>
      s.issued[number]?.bind fun mark =>
        match s.reader.backtrack mark with
        | .ok reader => some { s with reader }
        | .error _ => none
  | .discard number =>
      s.issued[number]?.map fun mark => { s with reader := s.reader.discard mark }

def run (s : Session) (moves : List Move) : Option Session := moves.foldlM move s

end Session

/-- A cursor into a list of tokens, known by its indexes. -/
structure Cursor where
  index : Nat
  /-- The largest index it has been at. -/
  furthest : Nat
  /-- Where each bookmark was taken, as long as it is not discarded. -/
  marks : List (Option Nat)
  /-- The first token that is kept. -/
  kept : Nat

namespace Cursor

def start : Cursor := ⟨0, 0, [], 0⟩

def oldest (c : Cursor) : Nat := (c.marks.filterMap fun place => place).foldl min c.index

def trim (c : Cursor) : Cursor := { c with kept := c.oldest }

/-- One move of a cursor into `count` tokens. It is trimmed when it has advanced and when
a live bookmark is discarded. -/
def move (count : Nat) (c : Cursor) : Move → Option Cursor
  | .advance =>
      if c.index < count then
        some (trim { c with index := c.index + 1, furthest := max c.furthest (c.index + 1) })
      else some c
  | .bookmark => some { c with marks := c.marks ++ [some c.index] }
  | .backtrack number => c.marks[number]?.join.map fun index => { c with index }
  | .discard number =>
      c.marks[number]?.map fun mark =>
        if mark.isSome then trim { c with marks := c.marks.set number none } else c

def run (count : Nat) (c : Cursor) (moves : List Move) : Option Cursor :=
  moves.foldlM (move count) c

end Cursor

/-- The range of the token with the index; past all of them, the character just past the
text. -/
def spanAt (source : String) (index : Nat) : Selection :=
  ((significantTokens source)[index]?.map Token.span).getD
    (.char (Location.first.after source.toList))

/-- What can be seen of the session is what the cursor says. -/
structure Session.Mirrors (source : String) (s : Session) (c : Cursor) : Prop where
  inside : c.index ≤ (significantTokens source).length
  current : s.reader.current? = (significantTokens source)[c.index]?
  atEnd : s.reader.atEnd = true ↔ c.index = (significantTokens source).length
  advances : s.reader.advance?.isSome = true ↔ c.index < (significantTokens source).length
  selection : s.reader.selection = spanAt source c.index
  location : s.reader.location = (spanAt source c.index).start
  marks : ∀ (number index : Nat), c.marks[number]? = some (some index) →
    ∃ mark, s.issued[number]? = some mark ∧
      s.reader.locate mark = (spanAt source index).start
  strays : s.strays <+: (Lexeme.scan source).filterMap Lexeme.stray?
  once : (s.strays.map Stray.location).Nodup
  window : s.reader.window = ((significantTokens source).take (c.furthest + 1)).drop c.kept
  reach : ∀ index ∈ s.reader.cursor :: s.reader.marks.map Bookmark.index,
    s.reader.base ≤ index ∧ index ≤ s.reader.base + s.reader.window.length

/-- How the fields of a session follow a cursor. -/
structure Session.Tracks (source : String) (s : Session) (c : Cursor) : Prop where
  keeps : s.reader.Keeps (.ofSource source)
  cursor : s.reader.cursor = c.index
  inside : c.index ≤ (significantTokens source).length
  base : s.reader.base = c.kept
  pulled : s.reader.base + s.reader.window.length =
    min (c.furthest + 1) (significantTokens source).length
  count : s.reader.issued = s.issued.length
  serials : s.issued.map Bookmark.serial = List.range s.issued.length
  distinct : s.reader.marks.Nodup
  known : ∀ mark ∈ s.reader.marks, mark ∈ s.issued
  live : c.marks = s.issued.map fun mark => if mark ∈ s.reader.marks then some mark.index else none
  strays : s.strays ++ s.reader.unseen = (Lexeme.scan source).filterMap Lexeme.stray?

section Window

variable {tape : Tape} {r : Reader}

theorem foldl_min_mem (indexes : List Nat) (bound : Nat) :
    indexes.foldl min bound ∈ bound :: indexes := by
  induction indexes generalizing bound with
  | nil => exact List.mem_singleton.mpr rfl
  | cons i more ih =>
    rcases List.mem_cons.mp (ih (min bound i)) with same | later
    · rw [List.foldl_cons, same]
      rcases Nat.le_total bound i with smaller | smaller
      · simp [Nat.min_eq_left smaller]
      · simp [Nat.min_eq_right smaller]
    · exact List.mem_cons_of_mem _ (List.mem_cons_of_mem _ later)

/-- Only which indexes there are decides on the smallest. -/
theorem foldl_min_congr {indexes others : List Nat} (bound : Nat)
    (same : ∀ i, i ∈ indexes ↔ i ∈ others) : indexes.foldl min bound = others.foldl min bound := by
  have below {indexes others : List Nat} (same : ∀ i ∈ others, i ∈ indexes) :
      indexes.foldl min bound ≤ others.foldl min bound := by
    obtain ⟨low, lower⟩ := foldl_min_le indexes bound
    rcases List.mem_cons.mp (foldl_min_mem others bound) with here | there
    · rw [here]
      exact low
    · exact lower _ (same _ there)
  exact Nat.le_antisymm (below fun i => (same i).mpr) (below fun i => (same i).mp)

theorem prune_base (keeps : r.Keeps tape) : r.prune.base = r.oldest := by
  have low := (foldl_min_le (r.marks.map Bookmark.index) r.cursor).1
  have base : r.base ≤ r.oldest := by
    rcases List.mem_cons.mp (foldl_min_mem (r.marks.map Bookmark.index) r.cursor) with here | there
    · rw [oldest, here]
      exact keeps.covers.1
    · obtain ⟨mark, member, same⟩ := List.mem_map.mp there
      rw [oldest, ← same]
      exact (keeps.marks mark member).2.2.1
  have high : r.oldest ≤ r.base + r.window.length := by
    rcases keeps.covers.2 with inside | ⟨ended, -⟩
    · exact Nat.le_trans low (Nat.le_of_lt inside)
    · exact Nat.le_trans low (Nat.le_of_eq ended)
  simp only [prune]
  omega

theorem prune_end (r : Reader) :
    r.prune.base + r.prune.window.length = r.base + r.window.length := by
  simp only [prune, List.length_drop]
  omega

theorem Keeps.pulled_le (keeps : r.Keeps tape) (low : r.base ≤ tape.tokens.length) :
    r.base + r.window.length ≤ tape.tokens.length ∧
      (r.pending = [] → r.base + r.window.length = tape.tokens.length) := by
  have length := congrArg List.length keeps.pulled
  simp only [List.length_drop, List.length_append] at length
  refine ⟨by omega, fun none => ?_⟩
  simp only [none, List.filterMap_nil, List.length_nil] at length
  omega

@[simp] theorem fill_base (r : Reader) : r.fill.1.base = r.base := by
  simp only [fill]
  split <;> rfl

@[simp] theorem fill_issued (r : Reader) : r.fill.1.issued = r.issued := by
  simp only [fill]
  split <;> rfl

/-- A reader pulls one token when it comes to one that it does not have. -/
theorem fill_end (keeps : r.fill.1.Keeps tape) (low : r.base ≤ tape.tokens.length)
    (high : r.cursor ≤ r.base + r.window.length) :
    r.fill.1.base + r.fill.1.window.length =
      max (r.base + r.window.length) (min (r.cursor + 1) tape.tokens.length) := by
  have bounds := keeps.pulled_le (by simpa using low)
  have covers := keeps.covers.2
  rw [fill_cursor, fill_base] at covers
  rw [fill_base] at bounds ⊢
  have grows : r.window.length ≤ r.fill.1.window.length ∧
      r.fill.1.window.length ≤ r.window.length + 1 ∧
      (r.cursor < r.base + r.window.length → r.fill.1.window.length = r.window.length) := by
    simp only [fill, atEnd]
    by_cases needed : r.base + r.window.length ≤ r.cursor
    · have short := Option.length_toList_le (o := (pull r.frontier r.pending).token?)
      simp only [needed, decide_true, if_true, List.length_append]
      omega
    · simp [needed]
  -- Either the token was found, or the tokens have ended and all are pulled.
  rcases covers with inside | ⟨ended, none⟩
  · omega
  · have whole := bounds.2 none
    omega

end Window

namespace Session

variable {source : String} {s : Session} {c : Cursor}

namespace Tracks

/-- The number of a bookmark tells it apart from all others. -/
theorem number_unique (tracks : s.Tracks source c) {number other : Nat} {mark : Bookmark}
    (here : s.issued[number]? = some mark) (there : s.issued[other]? = some mark) :
    number = other := by
  have serial {number : Nat} (here : s.issued[number]? = some mark) : mark.serial = number := by
    have same := congrArg (·[number]?) tracks.serials
    have inside := (List.getElem?_eq_some_iff.mp here).1
    simpa [here, List.getElem?_range inside] using same
  rw [← serial here, serial there]

theorem serial_lt (tracks : s.Tracks source c) {mark : Bookmark} (taken : mark ∈ s.issued) :
    mark.serial < s.issued.length := by
  have member := List.mem_map_of_mem (f := Bookmark.serial) taken
  rwa [tracks.serials, List.mem_range] at member

theorem marks_getElem? (tracks : s.Tracks source c) (number : Nat) :
    c.marks[number]? = s.issued[number]?.map fun mark =>
      if mark ∈ s.reader.marks then some mark.index else none := by
  rw [tracks.live, List.getElem?_map]

/-- The cursor and the reader can return to the same indexes. -/
theorem oldest (tracks : s.Tracks source c) : s.reader.oldest = c.oldest := by
  rw [Reader.oldest, Cursor.oldest, tracks.cursor]
  apply foldl_min_congr
  intro index
  simp only [List.mem_map, List.mem_filterMap, tracks.live]
  constructor
  · rintro ⟨mark, member, rfl⟩
    exact ⟨_, ⟨mark, tracks.known mark member, rfl⟩, if_pos member⟩
  · rintro ⟨_, ⟨mark, -, rfl⟩, found⟩
    split at found
    · rename_i member
      exact ⟨mark, member, Option.some.inj found⟩
    · contradiction

theorem current (tracks : s.Tracks source c) :
    s.reader.current? = (significantTokens source)[c.index]? :=
  tracks.cursor ▸ tracks.keeps.current?

theorem atEnd (tracks : s.Tracks source c) :
    s.reader.atEnd = true ↔ c.index = (significantTokens source).length := by
  have inside := tracks.inside
  rw [tracks.keeps.atEnd, tracks.cursor]
  exact ⟨fun ended => Nat.le_antisymm inside ended, fun same => Nat.le_of_eq same.symm⟩

theorem advances (tracks : s.Tracks source c) :
    s.reader.advance?.isSome = true ↔ c.index < (significantTokens source).length := by
  have inside := tracks.inside
  cases ended : s.reader.atEnd with
  | true =>
    have here := tracks.atEnd.mp ended
    simp only [advance?, ended, if_true, Option.isSome_none, Bool.false_eq_true, false_iff]
    omega
  | false =>
    have here := mt tracks.atEnd.mpr (by simp [ended])
    simp only [advance?_eq ended, Option.isSome_some, true_iff]
    omega

theorem selection (tracks : s.Tracks source c) : s.reader.selection = spanAt source c.index := by
  rw [Reader.selection, tracks.current, spanAt]
  cases found : (significantTokens source)[c.index]? with
  | some t => rfl
  | none =>
    have ended : (significantTokens source).length ≤ s.reader.cursor :=
      tracks.cursor ▸ List.getElem?_eq_none_iff.mp found
    exact congrArg Selection.char (tracks.keeps.frontier tracks.keeps.covers ended)

/-- A live bookmark is where it was taken. -/
theorem locate (tracks : s.Tracks source c) {number index : Nat}
    (found : c.marks[number]? = some (some index)) :
    ∃ mark, s.issued[number]? = some mark ∧
      s.reader.locate mark = (spanAt source index).start := by
  rw [tracks.marks_getElem?, Option.map_eq_some_iff] at found
  obtain ⟨mark, taken, found⟩ := found
  split at found
  · rename_i live
    cases found
    refine ⟨mark, taken, (tracks.keeps.locate live).trans ?_⟩
    rw [Tape.place, spanAt, List.head?_drop]
    change ((significantTokens source)[mark.index]?.map _).getD _ = _
    cases (significantTokens source)[mark.index]? <;> rfl
  · contradiction

/-- Strays are handed out in the order of the text, so none is handed out twice. -/
theorem once (tracks : s.Tracks source c) : (s.strays.map Stray.location).Nodup := by
  have ordered := (Lexeme.scanFrom_tiles .first source.toList).picked Lexeme.stray?
    Stray.location (by rintro (_ | _) _ ⟨⟩; rfl)
  have all := (List.pairwise_append.mp ordered).1
  change (((Lexeme.scan source).filterMap Lexeme.stray?).map Stray.location).Pairwise _ at all
  rw [← tracks.strays, List.map_append] at all
  refine (List.pairwise_append.mp all).1.imp ?_
  rintro a _ before rfl
  exact Location.lt_irrefl a before

theorem window (tracks : s.Tracks source c) :
    s.reader.window = ((significantTokens source).take (c.furthest + 1)).drop c.kept := by
  have pulled : (significantTokens source).drop s.reader.base = _ := tracks.keeps.pulled
  calc s.reader.window
      = ((significantTokens source).drop s.reader.base).take s.reader.window.length := by
        rw [pulled, List.take_left']
        rfl
    _ = ((significantTokens source).take (s.reader.base + s.reader.window.length)).drop c.kept := by
        rw [← tracks.base, List.drop_take, Nat.add_sub_cancel_left]
    _ = ((significantTokens source).take (c.furthest + 1)).drop c.kept := by
        rw [tracks.pulled, ← List.take_eq_take_min]

theorem reach (tracks : s.Tracks source c) :
    ∀ index ∈ s.reader.cursor :: s.reader.marks.map Bookmark.index,
      s.reader.base ≤ index ∧ index ≤ s.reader.base + s.reader.window.length := by
  have covered {index : Nat} (covers : s.reader.Covers index) :
      s.reader.base ≤ index ∧ index ≤ s.reader.base + s.reader.window.length := by
    obtain ⟨low, inside | ⟨ended, -⟩⟩ := covers
    · exact ⟨low, Nat.le_of_lt inside⟩
    · exact ⟨low, Nat.le_of_eq ended⟩
  intro index member
  rcases List.mem_cons.mp member with rfl | member
  · exact covered tracks.keeps.covers
  · obtain ⟨mark, live, rfl⟩ := List.mem_map.mp member
    exact covered (tracks.keeps.marks mark live).2.2

theorem mirrors (tracks : s.Tracks source c) : s.Mirrors source c where
  inside := tracks.inside
  current := tracks.current
  atEnd := tracks.atEnd
  advances := tracks.advances
  selection := tracks.selection
  location := congrArg Selection.start tracks.selection
  marks _ _ := tracks.locate
  strays := ⟨_, tracks.strays⟩
  once := tracks.once
  window := tracks.window
  reach := tracks.reach

/-- The reader is pruned to where the cursor is trimmed. -/
theorem trim (tracks : s.Tracks source c) :
    Tracks source { s with reader := s.reader.prune } c.trim where
  keeps := prune_keeps tracks.keeps
  cursor := tracks.cursor
  inside := tracks.inside
  base := (prune_base tracks.keeps).trans tracks.oldest
  pulled := (prune_end s.reader).trans tracks.pulled
  count := tracks.count
  serials := tracks.serials
  distinct := tracks.distinct
  known := tracks.known
  live := tracks.live
  strays := tracks.strays

/-- The reader pulls what the cursor comes to for the first time. -/
theorem fill (tracks : s.Tracks source c) (more : c.index < (significantTokens source).length) :
    Tracks source
      { s with
        reader := (Reader.fill { s.reader with cursor := s.reader.cursor + 1 }).1
        strays := s.strays ++ (Reader.fill { s.reader with cursor := s.reader.cursor + 1 }).2 }
      { c with index := c.index + 1, furthest := max c.furthest (c.index + 1) } := by
  let next : Reader := { s.reader with cursor := s.reader.cursor + 1 }
  have ahead : next.cursor = c.index + 1 := congrArg (· + 1) tracks.cursor
  have low : next.base ≤ c.index := tracks.cursor ▸ tracks.keeps.covers.1
  have pulled : next.base + next.window.length = min (c.furthest + 1) _ := tracks.pulled
  have high : next.cursor ≤ next.base + next.window.length := by
    have before : ¬s.reader.atEnd = true := fun ended => Nat.ne_of_lt more (tracks.atEnd.mp ended)
    simp only [Reader.atEnd, decide_eq_true_eq, Nat.not_le] at before
    exact before
  have filled : next.fill.1.Keeps (.ofSource source) := by
    refine fill_keeps ⟨tracks.keeps.pulled, tracks.keeps.finish, tracks.keeps.marks⟩ ?_ high
    omega
  have grown : next.fill.1.base + next.fill.1.window.length =
      max (next.base + next.window.length) (min (next.cursor + 1) (significantTokens source).length) :=
    fill_end filled (Nat.le_trans low tracks.inside) high
  refine ⟨filled, (fill_cursor next).trans ahead, more, (fill_base next).trans tracks.base, ?_,
    (fill_issued next).trans tracks.count, tracks.serials, ?_, ?_, ?_, ?_⟩
  · refine grown.trans ?_
    rw [pulled, ahead]
    dsimp only
    omega
  · exact fill_marks next ▸ tracks.distinct
  · exact fill_marks next ▸ tracks.known
  · exact fill_marks next ▸ tracks.live
  · rw [List.append_assoc, ← fill_unseen next]
    exact tracks.strays

theorem advance (tracks : s.Tracks source c) :
    Option.Rel (Tracks source) (s.move .advance)
      (c.move (significantTokens source).length .advance) := by
  simp only [move, Cursor.move]
  cases ended : s.reader.atEnd with
  | true =>
    have here := tracks.atEnd.mp ended
    simp only [advance?, ended, if_true, here, Nat.lt_irrefl, if_false]
    exact .some tracks
  | false =>
    have more : c.index < (significantTokens source).length :=
      Nat.lt_of_le_of_ne tracks.inside (mt tracks.atEnd.mpr (by simp [ended]))
    simp only [advance?_eq ended, more, if_true]
    exact .some (tracks.fill more).trim

theorem index_le (tracks : s.Tracks source c) {mark : Bookmark} (live : mark ∈ s.reader.marks) :
    mark.index ≤ (significantTokens source).length := by
  have reach := (tracks.reach mark.index (List.mem_cons_of_mem _ (List.mem_map_of_mem live))).2
  have pulled := tracks.pulled
  omega

/-- A bookmark is released under its number. -/
theorem release (tracks : s.Tracks source c) {number : Nat} {mark : Bookmark}
    (taken : s.issued[number]? = some mark) :
    Tracks source { s with reader := { s.reader with marks := s.reader.marks.erase mark } }
      { c with marks := c.marks.set number none } := by
  have left (other : Bookmark) :
      other ∈ s.reader.marks.erase mark ↔ other ≠ mark ∧ other ∈ s.reader.marks :=
    tracks.distinct.mem_erase_iff
  have keeps : Keeps (.ofSource source) { s.reader with marks := s.reader.marks.erase mark } := by
    refine ⟨⟨tracks.keeps.pulled, tracks.keeps.finish, ?_⟩, tracks.keeps.covers⟩
    exact fun other member => tracks.keeps.marks other (List.mem_of_mem_erase member)
  -- Numbers are unique, so no other bookmark is released with this one.
  refine { tracks with keeps, distinct := tracks.distinct.erase mark, known := ?_, live := ?_ }
  · exact fun other member => tracks.known other (List.mem_of_mem_erase member)
  · apply List.ext_getElem?
    intro other
    simp only [List.getElem?_set, List.getElem?_map, left, tracks.marks_getElem?]
    by_cases same : number = other
    · subst same
      obtain ⟨inside, here⟩ := List.getElem?_eq_some_iff.mp taken
      simp [tracks.live, inside, here]
    · simp only [same, if_false]
      cases found : s.issued[other]? with
      | none => rfl
      | some another =>
        have different : another ≠ mark := by
          rintro rfl
          exact same (tracks.number_unique taken found)
        simp [different]

theorem bookmark (tracks : s.Tracks source c) :
    Option.Rel (Tracks source) (s.move .bookmark)
      (c.move (significantTokens source).length .bookmark) := by
  obtain ⟨keeps, fresh⟩ := tracks.keeps.bookmark
  refine .some ⟨keeps, tracks.cursor, tracks.inside, tracks.base, tracks.pulled, ?_, ?_, ?_, ?_, ?_,
    tracks.strays⟩
  · simp [tracks.count]
  · simp [tracks.serials, tracks.count, List.range_succ]
  · simpa [Reader.bookmark, List.nodup_append, tracks.distinct] using
      fun mark live => ne_of_mem_of_not_mem live fresh
  · intro mark live
    rcases List.mem_append.mp live with old | new
    · exact List.mem_append_left _ (tracks.known mark old)
    · exact List.mem_append_right _ new
  · dsimp only
    rw [List.map_append, tracks.live]
    congr 1
    · refine List.map_congr_left fun mark taken => ?_
      have other : mark ≠ s.reader.bookmark.1 := by
        rintro rfl
        exact absurd (tracks.serial_lt taken) (tracks.count ▸ Nat.lt_irrefl _)
      have same : mark ∈ s.reader.bookmark.2.marks ↔ mark ∈ s.reader.marks := by
        refine List.mem_append.trans (or_iff_left ?_)
        exact mt List.mem_singleton.mp other
      exact ite_congr (propext same.symm) (fun _ => rfl) (fun _ => rfl)
    · simp [tracks.cursor]

theorem backtrack (tracks : s.Tracks source c) (number : Nat) :
    Option.Rel (Tracks source) (s.move (.backtrack number))
      (c.move (significantTokens source).length (.backtrack number)) := by
  simp only [move, Cursor.move, tracks.marks_getElem?]
  cases s.issued[number]? with
  | none => exact .none
  | some mark =>
    simp only [Option.bind_some, Option.map_some, Option.join_some]
    by_cases live : mark ∈ s.reader.marks
    · obtain ⟨returned, keeps⟩ := tracks.keeps.backtrack live
      simp only [returned, live, if_true, Option.map_some]
      refine .some { tracks with keeps, cursor := rfl, inside := ?_ }
      exact tracks.index_le live
    · have refused : ∃ error, s.reader.backtrack mark = .error error := by
        simp only [Reader.backtrack, live, not_false_eq_true, if_true]
        split
        · exact ⟨_, rfl⟩
        · exact ⟨_, rfl⟩
      obtain ⟨error, refused⟩ := refused
      simp only [refused, live, if_false, Option.map_none]
      exact .none

theorem discard (tracks : s.Tracks source c) (number : Nat) :
    Option.Rel (Tracks source) (s.move (.discard number))
      (c.move (significantTokens source).length (.discard number)) := by
  simp only [move, Cursor.move, tracks.marks_getElem?]
  cases taken : s.issued[number]? with
  | none => exact .none
  | some mark =>
    simp only [Option.map_some]
    by_cases live : mark ∈ s.reader.marks
    · simp only [live, if_true, Option.isSome_some, Reader.discard]
      exact .some (tracks.release taken).trim
    · simp only [live, if_false, Option.isSome_none, Bool.false_eq_true, Reader.discard]
      exact .some tracks

/-- Every move of a session is one of its cursor. -/
theorem move (tracks : s.Tracks source c) (m : Move) :
    Option.Rel (Tracks source) (s.move m) (c.move (significantTokens source).length m) := by
  cases m with
  | advance => exact tracks.advance
  | bookmark => exact tracks.bookmark
  | backtrack number => exact tracks.backtrack number
  | discard number => exact tracks.discard number

theorem run (tracks : s.Tracks source c) (moves : List Move) :
    Option.Rel (Tracks source) (s.run moves) (c.run (significantTokens source).length moves) := by
  induction moves generalizing s c with
  | nil => exact .some tracks
  | cons m moves ih =>
    have first := tracks.move m
    simp only [Session.run, Cursor.run, List.foldlM_cons]
    generalize s.move m = next, c.move (significantTokens source).length m = there at first
    cases first with
    | some tracks => exact ih tracks
    | none => exact .none

end Tracks

theorem start_tracks (id : Nat) (source : String) : (start id source).Tracks source .start := by
  let fresh : Reader := ⟨id, Lexeme.scan source, .first, [], 0, 0, [], 0⟩
  have keeps : fresh.fill.1.Keeps (.ofSource source) := start_keeps id source
  have pulled : fresh.fill.1.base + fresh.fill.1.window.length =
      max 0 (min 1 (significantTokens source).length) :=
    fill_end keeps (Nat.zero_le _) (Nat.le_refl 0)
  refine ⟨keeps, fill_cursor fresh, Nat.zero_le _, fill_base fresh, ?_, fill_issued fresh, rfl, ?_,
    ?_, rfl, (fill_unseen fresh).symm⟩
  · refine pulled.trans ?_
    simp [Cursor.start]
  · exact fill_marks fresh ▸ List.nodup_nil
  · exact fill_marks fresh ▸ nofun

/-- Whatever is done with a reader of a source, it shows the tokens of the source as a
cursor into them does, and returns to a bookmark if and only if it is live. After it has
advanced and after a live bookmark was discarded, its window starts at the smallest index
that it can still come to; in between it holds no less. -/
theorem run_mirrors (id : Nat) (source : String) (moves : List Move) :
    Option.Rel (Mirrors source) ((start id source).run moves)
      (Cursor.start.run (significantTokens source).length moves) := by
  have runs := (start_tracks id source).run moves
  generalize (start id source).run moves = last,
    Cursor.start.run (significantTokens source).length moves = there at runs
  cases runs with
  | some tracks => exact .some tracks.mirrors
  | none => exact .none

end Session
end Statecraft.Reader
