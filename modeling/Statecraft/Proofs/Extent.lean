import Statecraft.Source.Definition
import Statecraft.Proofs.Cursor

/-! How far the parts of a tree extend. The parts are laid out on the tokens of a source, each
on tokens of its own and one after the other, so a range that covers some of them goes from the
start of one token to the end of another. A part that could not be read takes no token. -/
namespace Statecraft

namespace Selection

def Inside (s outer : Selection) : Prop := outer.start ≤ s.start ∧ s.stop ≤ outer.stop

variable {a b c : Selection}

theorem Inside.refl (s : Selection) : s.Inside s := ⟨Location.le_refl _, Location.le_refl _⟩

theorem Inside.trans (first : a.Inside b) (second : b.Inside c) : a.Inside c :=
  ⟨Location.le_trans second.1 first.1, Location.le_trans first.2 second.2⟩

theorem inside_hull (a b : Selection) : a.Inside (hull a b) ∧ b.Inside (hull a b) := by
  simp only [Inside, hull]
  refine ⟨⟨?_, ?_⟩, ?_, ?_⟩
  · split
    · exact Location.le_of_lt ‹_›
    · exact Location.le_refl _
  · split
    · exact Location.le_of_lt ‹_›
    · exact Location.le_refl _
  · split
    · exact Location.le_refl _
    · exact Location.not_lt.mp ‹_›
  · split
    · exact Location.le_refl _
    · exact Location.not_lt.mp ‹_›

end Selection

namespace Location

variable {a b : Location}

theorem isValid_step (valid : a.isValid = true) (c : Char) : (a.step c).isValid = true := by
  simp only [isValid, Bool.and_eq_true, decide_eq_true_eq] at valid ⊢
  rw [step]
  split
  · exact ⟨Int.le_add_one valid.1, Int.le_refl 1⟩
  · exact ⟨valid.1, Int.le_add_one valid.2⟩

theorem isValid_after (valid : a.isValid = true) (text : List Char) :
    (a.after text).isValid = true := by
  induction text generalizing a with
  | nil => exact valid
  | cons c rest ih => exact ih (isValid_step valid c)

end Location

theorem significantTokens_disjoint (source : String) :
    (significantTokens source).Pairwise fun t u => t.span.stop < u.span.start := by
  have apart := (Lexeme.scanFrom_tiles .first source.toList).disjoint
  refine List.Pairwise.filterMap _ ?_ apart
  intro x y before t found u found'
  cases x <;> cases y <;> simp only [Lexeme.significant?, Option.ite_none_left_eq_some,
    Option.some.injEq, reduceCtorEq] at found found'
  rw [← found.2, ← found'.2]
  exact before

/-- The token has one of the indices from `i` up to `j`. -/
def Token.Among (source : String) (i j : Nat) (t : Token) : Prop :=
  ∃ k, i ≤ k ∧ k < j ∧ (significantTokens source)[k]? = some t

/-- The range goes from the start of a token to the end of one, both with indices from `i` up to
`j`. -/
structure Spans (source : String) (i j : Nat) (s : Selection) : Prop where
  ordered : s.Ordered
  start : ∃ t : Token, t.Among source i j ∧ s.start = t.span.start
  stop : ∃ t : Token, t.Among source i j ∧ s.stop = t.span.stop

namespace Token.Among

variable {source : String} {i j k l : Nat} {t u : Token}

theorem member (among : t.Among source i j) : t ∈ significantTokens source := by
  obtain ⟨k, -, -, here⟩ := among
  exact List.mem_of_getElem? here

theorem widen (among : t.Among source i j) (lower : k ≤ i) (upper : j ≤ l) :
    t.Among source k l := by
  obtain ⟨m, first, last, here⟩ := among
  exact ⟨m, by omega, by omega, here⟩

theorem spans (among : t.Among source i j) : Spans source i j t.span := by
  refine ⟨?_, ⟨t, among, rfl⟩, ⟨t, among, rfl⟩⟩
  obtain ⟨before, later, -, placed⟩ := significantTokens_placed among.member
  have span : t.span = _ := placed.selection
  rw [Selection.Ordered, span]
  exact Location.le_after _ _

/-- Tokens with smaller indices end before those with greater ones start. -/
theorem before (first : t.Among source i k) (second : u.Among source k j) :
    t.span.stop < u.span.start := by
  obtain ⟨m, -, less, here⟩ := first
  obtain ⟨n, more, -, there⟩ := second
  obtain ⟨inside, rfl⟩ := List.getElem?_eq_some_iff.mp here
  obtain ⟨inside', rfl⟩ := List.getElem?_eq_some_iff.mp there
  exact List.pairwise_iff_getElem.mp (significantTokens_disjoint source) m n inside inside'
    (by omega)

end Token.Among

namespace Spans

variable {source : String} {i j k l : Nat} {a b c : Selection}

theorem lt (spans : Spans source i j a) : i < j := by
  obtain ⟨t, ⟨k, lower, upper, -⟩, -⟩ := spans.start
  omega

theorem widen (spans : Spans source i j a) (lower : k ≤ i) (upper : j ≤ l) :
    Spans source k l a := by
  obtain ⟨ordered, ⟨t, first, start⟩, u, last, stop⟩ := spans
  exact ⟨ordered, ⟨t, first.widen lower upper, start⟩, u, last.widen lower upper, stop⟩

theorem before (first : Spans source i k a) (second : Spans source k j b) : a.stop < b.start := by
  obtain ⟨t, here, stop⟩ := first.stop
  obtain ⟨u, there, start⟩ := second.start
  rw [stop, start]
  exact here.before there

theorem valid (spans : Spans source i j a) : a.start.isValid = true ∧ a.stop.isValid = true := by
  obtain ⟨-, ⟨t, first, start⟩, u, last, stop⟩ := spans
  have placed {t : Token} (among : t.Among source i j) :
      t.span.start.isValid = true ∧ t.span.stop.isValid = true := by
    obtain ⟨before, later, -, placed⟩ := significantTokens_placed among.member
    have span : t.span = _ := placed.selection
    rw [span]
    have here := Location.isValid_after (a := .first) rfl before
    exact ⟨here, Location.isValid_after here _⟩
  rw [start, stop]
  exact ⟨(placed first).1, (placed last).2⟩

theorem hull (first : Spans source i j a) (second : Spans source i j b) :
    Spans source i j (a.hull b) := by
  refine ⟨?_, ?_, ?_⟩
  · have here := (Selection.inside_hull a b).1
    exact Location.le_trans here.1 (Location.le_trans first.ordered here.2)
  · simp only [Selection.hull]
    split
    · exact second.start
    · exact first.start
  · simp only [Selection.hull]
    split
    · exact second.stop
    · exact first.stop

theorem foldl_hull {ranges : List Selection} (first : Spans source i j a)
    (others : ∀ s ∈ ranges, Spans source i j s) :
    Spans source i j (ranges.foldl Selection.hull a) ∧
      ∀ s ∈ a :: ranges, s.Inside (ranges.foldl Selection.hull a) := by
  induction ranges generalizing a with
  | nil => exact ⟨first, by simp [Selection.Inside.refl]⟩
  | cons b rest ih =>
    obtain ⟨second, later⟩ := List.forall_mem_cons.mp others
    obtain ⟨spans, inside⟩ := ih (first.hull second) later
    obtain ⟨both, rest⟩ := List.forall_mem_cons.mp inside
    obtain ⟨left, right⟩ := Selection.inside_hull a b
    exact ⟨spans, List.forall_mem_cons.mpr
      ⟨left.trans both, List.forall_mem_cons.mpr ⟨right.trans both, rest⟩⟩⟩

/-- What covers ranges on some tokens is a range on them. -/
theorem cover (ranges : List Selection) (filled : ∃ s ∈ ranges, Spans source i j s)
    (each : ∀ s ∈ ranges, s = .absent ∨ Spans source i j s) :
    Spans source i j (.cover ranges) ∧
      ∀ s ∈ ranges, Spans source i j s → s.Inside (.cover ranges) := by
  -- A part without a range has no place in the source and is left out.
  have kept {s : Selection} (member : s ∈ ranges.filter fun s => s.start.isValid) :
      Spans source i j s := by
    obtain ⟨member, valid⟩ := List.mem_filter.mp member
    rcases each s member with rfl | spans
    · contradiction
    · exact spans
  have stays {s : Selection} (member : s ∈ ranges) (spans : Spans source i j s) :
      s ∈ ranges.filter fun s => s.start.isValid :=
    List.mem_filter.mpr ⟨member, spans.valid.1⟩
  simp only [Selection.cover]
  cases same : ranges.filter fun s => s.start.isValid with
  | nil =>
    obtain ⟨s, member, spans⟩ := filled
    have found := stays member spans
    rw [same] at found
    contradiction
  | cons a rest =>
    rw [same] at kept
    obtain ⟨spans, inside⟩ := foldl_hull (kept List.mem_cons_self)
      fun s member => kept (List.mem_cons_of_mem a member)
    refine ⟨spans, fun s member here => inside s ?_⟩
    rw [← same]
    exact stays member here

theorem cover_pair (first : Spans source i k a) (second : Spans source k j b) :
    Spans source i j (.cover [a, b]) ∧ a.Inside (.cover [a, b]) ∧ b.Inside (.cover [a, b]) := by
  have here := first.widen (Nat.le_refl i) (Nat.le_of_lt second.lt)
  have there := second.widen (Nat.le_of_lt first.lt) (Nat.le_refl j)
  obtain ⟨spans, inside⟩ := cover [a, b] ⟨a, by simp, here⟩ (by simp [here, there])
  exact ⟨spans, inside a (by simp) here, inside b (by simp) there⟩

/-- What stands between two ranges is inside of what covers them. -/
theorem between (first : Spans source i k a) (middle : Spans source k l c)
    (last : Spans source l j b) : c.Inside (.cover [a, b]) := by
  obtain ⟨-, left, right⟩ :=
    cover_pair first (last.widen (Nat.le_of_lt middle.lt) (Nat.le_refl j))
  refine ⟨Location.le_trans left.1 ?_, Location.le_trans ?_ right.2⟩
  · exact Location.le_trans first.ordered (Location.le_of_lt (first.before middle))
  · exact Location.le_trans (Location.le_of_lt (middle.before last)) last.ordered

/-- What stands on both sides of a range, where something does, is covered together with it. -/
theorem cover_around (middle : Spans source k l c) (lower : i ≤ k)
    (first : a = .absent ∨ Spans source i k a) (upper : l ≤ j)
    (last : b = .absent ∨ Spans source l j b) :
    Spans source i j (.cover [a, c, b]) ∧
      (Spans source i k a → a.Inside (.cover [a, c, b])) ∧
        (Spans source l j b → b.Inside (.cover [a, c, b])) := by
  have forward := Nat.le_of_lt middle.lt
  have here := middle.widen lower upper
  have left (spans : Spans source i k a) : Spans source i j a :=
    spans.widen (Nat.le_refl i) (Nat.le_trans forward upper)
  have right (spans : Spans source l j b) : Spans source i j b :=
    spans.widen (Nat.le_trans lower forward) (Nat.le_refl j)
  obtain ⟨covered, inside⟩ := cover [a, c, b] ⟨c, by simp, here⟩
    (by simp [first.imp_right left, here, last.imp_right right])
  exact ⟨covered, fun spans => inside a (by simp) (left spans),
    fun spans => inside b (by simp) (right spans)⟩

end Spans

/-- The items are laid out one after the other. -/
def Row {α : Type} (Laid : Nat → Nat → α → Prop) : Nat → Nat → List α → Prop
  | i, j, [] => i ≤ j
  | i, j, x :: rest => ∃ k l, i ≤ k ∧ k ≤ l ∧ Laid k l x ∧ Row Laid l j rest

namespace Row

variable {α β : Type} {Laid : Nat → Nat → α → Prop} {i j k : Nat} {xs : List α}

theorem since (row : Row Laid i j xs) (lower : k ≤ i) : Row Laid k j xs := by
  cases xs with
  | nil => exact Nat.le_trans lower row
  | cons x rest =>
    obtain ⟨m, l, slack, rest⟩ := row
    exact ⟨m, l, Nat.le_trans lower slack, rest⟩

theorem upTo (row : Row Laid i j xs) (upper : j ≤ k) : Row Laid i k xs := by
  induction xs generalizing i with
  | nil => exact Nat.le_trans row upper
  | cons x rest ih =>
    obtain ⟨m, l, slack, forward, here, later⟩ := row
    exact ⟨m, l, slack, forward, here, ih later⟩

theorem map {f : α → β} {Laid' : Nat → Nat → β → Prop} (row : Row Laid i j xs)
    (image : ∀ i j x, Laid i j x → Laid' i j (f x)) : Row Laid' i j (xs.map f) := by
  induction xs generalizing i with
  | nil => exact row
  | cons x rest ih =>
    obtain ⟨k, l, slack, forward, here, later⟩ := row
    exact ⟨k, l, slack, forward, image k l x here, ih later⟩

theorem le (row : Row Laid i j xs) : i ≤ j := by
  induction xs generalizing i with
  | nil => exact row
  | cons x rest ih =>
    obtain ⟨k, l, slack, forward, -, later⟩ := row
    exact Nat.le_trans slack (Nat.le_trans forward (ih later))

theorem mem (row : Row Laid i j xs) {x : α} (member : x ∈ xs) :
    ∃ k l, i ≤ k ∧ l ≤ j ∧ Laid k l x := by
  induction xs generalizing i with
  | nil => contradiction
  | cons y rest ih =>
    obtain ⟨k, l, slack, forward, here, later⟩ := row
    rcases List.mem_cons.mp member with rfl | member
    · exact ⟨k, l, slack, later.le, here⟩
    · obtain ⟨m, n, lower, upper, there⟩ := ih later member
      exact ⟨m, n, by omega, upper, there⟩

/-- Ranges of items that are laid out in a row are in order and apart. -/
theorem disjoint {source : String} {span : α → Selection} (row : Row Laid i j xs)
    (spans : ∀ {i j x}, Laid i j x → Spans source i j (span x)) :
    (xs.map span).Pairwise fun a b => a.stop < b.start := by
  induction xs generalizing i with
  | nil => exact .nil
  | cons x rest ih =>
    obtain ⟨k, l, slack, forward, here, later⟩ := row
    refine List.pairwise_cons.mpr ⟨List.forall_mem_map.mpr fun y member => ?_, ih later⟩
    obtain ⟨m, n, lower, upper, there⟩ := later.mem member
    exact (spans here).before ((spans there).widen lower (Nat.le_refl n))

/-- Items that are laid out between two ranges are inside of what covers these. -/
theorem between {source : String} {l : Nat} {a b : Selection} {span : α → Selection}
    (first : Spans source i k a) (row : Row Laid k l xs) (last : Spans source l j b)
    (spans : ∀ {i j x}, Laid i j x → Spans source i j (span x)) {x : α} (member : x ∈ xs) :
    (span x).Inside (.cover [a, b]) := by
  obtain ⟨m, n, lower, upper, here⟩ := row.mem member
  exact first.between ((spans here).widen lower upper) last

/-- Items that are left out leave a gap. -/
theorem filterMap_id {found : List (Option α)}
    (row : Row (fun i j o => ∀ x ∈ o, Laid i j x) i j found) :
    Row Laid i j (found.filterMap id) := by
  induction found generalizing i with
  | nil => exact row
  | cons o rest ih =>
    obtain ⟨k, l, slack, forward, here, later⟩ := row
    cases o with
    | none => exact (ih later).since (Nat.le_trans slack forward)
    | some x => exact ⟨k, l, slack, forward, here x rfl, ih later⟩

end Row

namespace Source

def Name.Laid (source : String) (i j : Nat) (n : Name) : Prop :=
  ∃ t : Token, t.Among source i j ∧ t.kind = .identifier ∧ n.text = t.text ∧ n.span = t.span

def Expr.Laid (source : String) : Nat → Nat → Expr → Prop
  | i, j, .number _ span | i, j, .boolean _ span | i, j, .string _ span => Spans source i j span
  | i, j, .ref name => name.Laid source i j
  | i, j, .unary _ opSpan operand => ∃ k, Spans source i k opSpan ∧ operand.Laid source k j
  | i, j, .binary _ opSpan left right =>
      ∃ k l, left.Laid source i k ∧ Spans source k l opSpan ∧ right.Laid source l j
  | i, j, .invalid => i ≤ j

mutual

def Action.Laid (source : String) : Nat → Nat → Action → Prop
  | i, j, .transition keyword target =>
      ∃ k, Spans source i k keyword ∧ target.Laid source k j
  | i, j, .assignment name value => ∃ k, name.Laid source i k ∧ value.Laid source k j
  | i, j, .conditional keyword test body otherwise =>
      ∃ k l m, Spans source i k keyword ∧ test.Laid source k l ∧ body.Laid source l m ∧
        match otherwise with
        | some other => other.Laid source m j
        | none => m ≤ j
  | i, j, .assertion keyword test => ∃ k, Spans source i k keyword ∧ test.Laid source k j
  | i, j, .nested block => block.Laid source i j

def Block.Laid (source : String) : Nat → Nat → Block → Prop
  | i, j, .braces opening actions closing =>
      ∃ k l, Spans source i k opening ∧ Action.AllLaid source k l actions ∧
        Spans source l j closing

def Action.AllLaid (source : String) : Nat → Nat → List Action → Prop
  | i, j, [] => i ≤ j
  | i, j, a :: rest =>
      ∃ k l, i ≤ k ∧ k ≤ l ∧ a.Laid source k l ∧ Action.AllLaid source l j rest

end

theorem Action.allLaid_iff {source : String} {i j : Nat} {actions : List Action} :
    Action.AllLaid source i j actions ↔ Row (Action.Laid source) i j actions := by
  induction actions generalizing i with
  | nil => simp only [Action.AllLaid, Row]
  | cons a rest ih => simp only [Action.AllLaid, Row, ih]

def Attribute.Laid (source : String) (i j : Nat) (a : Attribute) : Prop :=
  ∃ k, a.name.Laid source i k ∧ Spans source k j a.valueSpan

def StateEntry.Laid (source : String) (i j : Nat) (s : StateEntry) : Prop :=
  ∃ k, Row (Attribute.Laid source) i k s.attributes ∧ s.name.Laid source k j

def Definition.Laid (source : String) (i j : Nat) : Definition → Prop
  | .states list => ∃ k l, Spans source i k list.keyword ∧
      Row (StateEntry.Laid source) k l list.states ∧ Spans source l j list.closing
  | .declaration d => ∃ k l, Spans source i k d.keyword ∧ d.name.Laid source k l ∧
      d.value.Laid source l j
  | .whenBlock b => ∃ k l, Spans source i k b.keyword ∧ b.state.Laid source k l ∧
      b.body.Laid source l j

variable {source : String} {i j k l : Nat}

theorem Name.Laid.spans {n : Name} (laid : n.Laid source i j) : Spans source i j n.span := by
  obtain ⟨t, among, -, -, span⟩ := laid
  rw [span]
  exact among.spans

theorem Name.Laid.widen {n : Name} (laid : n.Laid source i j) (lower : k ≤ i) (upper : j ≤ l) :
    n.Laid source k l := by
  obtain ⟨t, among, same⟩ := laid
  exact ⟨t, among.widen lower upper, same⟩

namespace Expr

variable {e : Expr}

theorem Laid.le (laid : e.Laid source i j) : i ≤ j := by
  induction e generalizing i j with
  | number | boolean | string => exact Nat.le_of_lt (Spans.lt laid)
  | ref => exact Nat.le_of_lt (Name.Laid.spans laid).lt
  | unary op opSpan operand ih =>
    obtain ⟨k, sign, inner⟩ := laid
    exact Nat.le_trans (Nat.le_of_lt sign.lt) (ih inner)
  | binary op opSpan left right ihl ihr =>
    obtain ⟨k, l, first, sign, second⟩ := laid
    exact Nat.le_trans (ihl first) (Nat.le_trans (Nat.le_of_lt sign.lt) (ihr second))
  | invalid => exact laid

theorem Laid.widen (laid : e.Laid source i j) (lower : k ≤ i) (upper : j ≤ l) :
    e.Laid source k l := by
  induction e generalizing i j k l with
  | number | boolean | string => exact Spans.widen laid lower upper
  | ref => exact Name.Laid.widen laid lower upper
  | unary op opSpan operand ih =>
    obtain ⟨m, sign, inner⟩ := laid
    exact ⟨m, sign.widen lower (Nat.le_refl m), ih inner (Nat.le_refl m) upper⟩
  | binary op opSpan left right ihl ihr =>
    obtain ⟨m, n, first, sign, second⟩ := laid
    exact ⟨m, n, ihl first lower (Nat.le_refl m), sign, ihr second (Nat.le_refl n) upper⟩
  | invalid => exact Nat.le_trans lower (Nat.le_trans laid upper)

/-- Only what could not be read has no range. -/
theorem Laid.spans (laid : e.Laid source i j) :
    e = .invalid ∨ Spans source i j e.span := by
  induction e generalizing i j with
  | number | boolean | string => exact .inr laid
  | ref => exact .inr (Name.Laid.spans laid)
  | unary op opSpan operand ih =>
    obtain ⟨k, sign, inner⟩ := laid
    have first := sign.widen (Nat.le_refl i) inner.le
    refine .inr (Spans.cover _ ⟨opSpan, by simp, first⟩ ?_).1
    rcases ih inner with rfl | second
    · simp [first, span]
    · have second := second.widen (Nat.le_of_lt sign.lt) (Nat.le_refl j)
      simp [first, second]
  | binary op opSpan left right ihl ihr =>
    obtain ⟨k, l, first, sign, second⟩ := laid
    have leftmost := (ihl first).imp_left (congrArg span)
    have rightmost := (ihr second).imp_left (congrArg span)
    exact .inr (sign.cover_around first.le leftmost second.le rightmost).1
  | invalid => exact .inl rfl

/-- An expression is covered together with what stands before it. -/
theorem Laid.cover {a : Selection} (before : Spans source i k a) (laid : e.Laid source k j) :
    Spans source i j (.cover [a, e.span]) ∧ a.Inside (.cover [a, e.span]) ∧
      (e = .invalid ∨ Spans source k j e.span ∧ e.span.Inside (.cover [a, e.span])) := by
  rcases laid.spans with rfl | spans
  · have first := before.widen (Nat.le_refl i) laid.le
    obtain ⟨covered, inside⟩ := Spans.cover [a, .absent] ⟨a, by simp, first⟩
      (by simp [first])
    exact ⟨covered, inside a (by simp) first, .inl rfl⟩
  · obtain ⟨covered, left, right⟩ := before.cover_pair spans
    exact ⟨covered, left, .inr ⟨spans, right⟩⟩

end Expr

theorem Block.Laid.spans {b : Block} (laid : b.Laid source i j) : Spans source i j b.span := by
  obtain ⟨opening, actions, closing⟩ := b
  simp only [Block.Laid] at laid
  obtain ⟨k, l, first, row, last⟩ := laid
  have inner := (Action.allLaid_iff.mp row).le
  exact (first.cover_pair (last.widen inner (Nat.le_refl j))).1

theorem Block.Laid.since {b : Block} (laid : b.Laid source i j) (lower : k ≤ i) :
    b.Laid source k j := by
  obtain ⟨opening, actions, closing⟩ := b
  simp only [Block.Laid] at laid ⊢
  obtain ⟨m, n, first, rest⟩ := laid
  exact ⟨m, n, first.widen lower (Nat.le_refl m), rest⟩

theorem Action.Laid.spans {a : Action} (laid : a.Laid source i j) : Spans source i j a.span := by
  cases a with
  | transition keyword target =>
    simp only [Action.Laid] at laid
    obtain ⟨k, first, last⟩ := laid
    exact (first.cover_pair last.spans).1
  | assignment name value =>
    simp only [Action.Laid] at laid
    obtain ⟨k, first, last⟩ := laid
    exact (last.cover first.spans).1
  | conditional keyword test body otherwise =>
    cases otherwise with
    | none =>
      simp only [Action.Laid] at laid
      obtain ⟨k, l, m, first, middle, block, last⟩ := laid
      exact (first.cover_pair (block.spans.widen middle.le last)).1
    | some other =>
      simp only [Action.Laid] at laid
      obtain ⟨k, l, m, first, middle, block, last⟩ := laid
      have further := Nat.le_trans middle.le (Nat.le_of_lt block.spans.lt)
      exact (first.cover_pair (last.spans.widen further (Nat.le_refl j))).1
  | assertion keyword test =>
    simp only [Action.Laid] at laid
    obtain ⟨k, first, last⟩ := laid
    exact (last.cover first).1
  | nested block =>
    simp only [Action.Laid] at laid
    exact laid.spans

theorem Attribute.Laid.spans {a : Attribute} (laid : a.Laid source i j) :
    Spans source i j a.span := by
  obtain ⟨k, first, last⟩ := laid
  exact (first.spans.cover_pair last).1

/-- The attributes of a state are inside of its range. -/
theorem StateEntry.Laid.spans {s : StateEntry} (laid : s.Laid source i j) :
    Spans source i j s.span ∧ ∀ a ∈ s.attributes, a.span.Inside s.span := by
  obtain ⟨k, row, last⟩ := laid
  have named := last.spans.widen row.le (Nat.le_refl j)
  have annotated {a : Attribute} (member : a ∈ s.attributes) : Spans source i j a.span := by
    obtain ⟨m, n, lower, upper, here⟩ := row.mem member
    exact here.spans.widen lower (Nat.le_trans upper (Nat.le_of_lt last.spans.lt))
  obtain ⟨covered, inside⟩ := Spans.cover
    (s.name.span :: s.attributes.map Attribute.span) ⟨s.name.span, by simp, named⟩ (by
      simp only [List.forall_mem_cons, List.forall_mem_map]
      exact ⟨.inr named, fun a member => .inr (annotated member)⟩)
  refine ⟨covered, fun a member => inside a.span ?_ (annotated member)⟩
  exact List.mem_cons_of_mem _ (List.mem_map_of_mem member)

/-- The value of a declaration is covered with the keyword and the name. -/
theorem Declaration.spans {d : Declaration} (laid : (Definition.declaration d).Laid source i j) :
    Spans source i j d.span ∧ (d.value = .invalid ∨ d.value.span.Inside d.span) := by
  obtain ⟨k, l, first, middle, last⟩ := laid
  have keyword := first.widen (Nat.le_refl i)
    (Nat.le_trans (Nat.le_of_lt middle.spans.lt) last.le)
  have named := middle.spans.widen (Nat.le_of_lt first.lt) last.le
  rcases last.spans with same | valued
  · have covered := Spans.cover [d.keyword, d.name.span, d.value.span]
      ⟨d.keyword, by simp, keyword⟩ (by simp [same, keyword, named, Expr.span])
    exact ⟨covered.1, .inl same⟩
  · have value := valued.widen
      (Nat.le_trans (Nat.le_of_lt first.lt) (Nat.le_of_lt middle.spans.lt)) (Nat.le_refl j)
    have covered := Spans.cover [d.keyword, d.name.span, d.value.span]
      ⟨d.keyword, by simp, keyword⟩ (by simp [keyword, named, value])
    exact ⟨covered.1, .inr (covered.2 _ (by simp) value)⟩

theorem Definition.Laid.spans {d : Definition} (laid : d.Laid source i j) :
    Spans source i j d.span := by
  cases d with
  | states list =>
    obtain ⟨k, l, first, row, last⟩ := laid
    exact (first.cover_pair (last.widen row.le (Nat.le_refl j))).1
  | declaration d => exact (Declaration.spans laid).1
  | whenBlock b =>
    obtain ⟨k, l, first, middle, last⟩ := laid
    exact (first.cover_pair
      (last.spans.widen (Nat.le_of_lt middle.spans.lt) (Nat.le_refl j))).1

end Source
end Statecraft
