import Mathlib.Logic.Relation
import Statecraft.Proofs.Placement

/-! Ranges nest as the nodes of a tree do. The parts of a node are laid out in a row on the tokens
that the node is read from. So the range of a node holds those of its parts, and parts that are
listed one after the other have ranges in the same order and apart. -/
namespace Statecraft
namespace Source

/-- A part of a program that has a range of its own. -/
inductive Node where
  | program (p : Program)
  | definition (d : Definition)
  | state (s : StateEntry)
  | annotation (a : Attribute)
  | action (a : Action)
  | block (b : Block)
  | expr (e : Expr)

namespace Node

def span : Node → Selection
  | program p => p.span
  | definition d => d.span
  | state s => s.span
  | annotation a => a.span
  | action a => a.span
  | block b => b.span
  | expr e => e.span

def children : Node → List Node
  | program p => p.map definition
  | definition (.states list) => list.states.map state
  | definition (.declaration d) => [expr d.value]
  | definition (.whenBlock b) => [block b.body]
  | state s => s.attributes.map annotation
  | action (.assignment _ value) => [expr value]
  | action (.conditional _ test body otherwise) =>
      expr test :: block body :: otherwise.toList.map block
  | action (.assertion _ test) => [expr test]
  | action (.nested b) => [block b]
  | block b => b.actions.map action
  | expr (.unary _ _ operand) => [expr operand]
  | expr (.binary _ _ left right) => [expr left, expr right]
  | action (.transition _ _) | annotation _ | expr _ => []

/-- The children that are listed: definitions of a program, states of a list, actions of a
block. -/
def listed : Node → List Node
  | program p => p.map definition
  | definition (.states list) => list.states.map state
  | block b => b.actions.map action
  | _ => []

/-- A node, and all that it is made of. -/
abbrev Contains : Node → Node → Prop :=
  Relation.ReflTransGen fun parent child => child ∈ parent.children

theorem Contains.of_path {n last : Node} {path : List Nat}
    (found : path.foldlM (fun n k => n.children[k]?) n = some last) : n.Contains last := by
  induction path generalizing n with
  | nil =>
    cases found
    exact .refl
  | cons k rest ih =>
    obtain ⟨child, here, later⟩ := Option.bind_eq_some_iff.mp found
    exact (ih later).head (List.mem_of_getElem? here)

/-- The range of the node is a range of a text, it holds those of its children, and children that
are listed have theirs in order and apart. A child that could not be read has no range. -/
structure Nests (n : Node) : Prop where
  ordered : n.span.Ordered
  valid : n.span.start.isValid = true ∧ n.span.stop.isValid = true
  inside : ∀ child ∈ n.children, child ≠ .expr .invalid → child.span.Inside n.span
  listed : (n.listed.map span).Pairwise fun a b => a.stop < b.start

def Laid (source : String) (i j : Nat) : Node → Prop
  | program p => Row (Definition.Laid source) i j p
  | definition d => d.Laid source i j
  | state s => s.Laid source i j
  | annotation a => a.Laid source i j
  | action a => a.Laid source i j
  | block b => b.Laid source i j
  | expr e => e.Laid source i j

variable {source : String} {i j : Nat} {n child : Node}

theorem row_single {k l : Nat} (lower : i ≤ k) (forward : k ≤ l) (laid : n.Laid source k l)
    (upper : l ≤ j) : Row (Node.Laid source) i j [n] :=
  ⟨k, l, lower, forward, laid, upper⟩

/-- The children of a node are laid out in a row on its tokens. -/
theorem Laid.children_row (laid : n.Laid source i j) :
    Row (Node.Laid source) i j n.children := by
  cases n with
  | program p => exact Row.map (f := definition) laid fun _ _ _ here => here
  | definition d =>
    cases d with
    | states list =>
      obtain ⟨k, l, first, row, last⟩ := laid
      exact ((row.map (f := state) fun _ _ _ here => here).since (Nat.le_of_lt first.lt)).upTo
        (Nat.le_of_lt last.lt)
    | declaration d =>
      obtain ⟨k, l, first, middle, last⟩ := laid
      have lower := Nat.le_of_lt (Nat.lt_trans first.lt middle.spans.lt)
      exact row_single lower last.le last (Nat.le_refl j)
    | whenBlock b =>
      obtain ⟨k, l, first, middle, last⟩ := laid
      have lower := Nat.le_of_lt (Nat.lt_trans first.lt middle.spans.lt)
      exact row_single lower (Nat.le_of_lt last.spans.lt) last (Nat.le_refl j)
  | state s =>
    obtain ⟨k, row, last⟩ := laid
    exact (row.map (f := annotation) fun _ _ _ here => here).upTo (Nat.le_of_lt last.spans.lt)
  | annotation a => exact Nat.le_of_lt (Attribute.Laid.spans laid).lt
  | action a =>
    cases a with
    | transition keyword target => exact Nat.le_of_lt (Action.Laid.spans laid).lt
    | assignment name value =>
      simp only [Laid, Action.Laid] at laid
      obtain ⟨k, first, last⟩ := laid
      exact row_single (Nat.le_of_lt first.spans.lt) last.le last (Nat.le_refl j)
    | conditional keyword test body otherwise =>
      cases otherwise with
      | none =>
        simp only [Laid, Action.Laid] at laid
        obtain ⟨k, l, m, first, middle, block, last⟩ := laid
        exact ⟨k, l, Nat.le_of_lt first.lt, middle.le, middle,
          row_single (Nat.le_refl l) (Nat.le_of_lt block.spans.lt) block last⟩
      | some other =>
        simp only [Laid, Action.Laid] at laid
        obtain ⟨k, l, m, first, middle, block, last⟩ := laid
        exact ⟨k, l, Nat.le_of_lt first.lt, middle.le, middle, l, m, Nat.le_refl l,
          Nat.le_of_lt block.spans.lt, block,
          row_single (Nat.le_refl m) (Nat.le_of_lt last.spans.lt) last (Nat.le_refl j)⟩
    | assertion keyword test =>
      simp only [Laid, Action.Laid] at laid
      obtain ⟨k, first, last⟩ := laid
      exact row_single (Nat.le_of_lt first.lt) last.le last (Nat.le_refl j)
    | nested b =>
      simp only [Laid, Action.Laid] at laid
      exact row_single (Nat.le_refl i) (Nat.le_of_lt laid.spans.lt) laid (Nat.le_refl j)
  | block b =>
    obtain ⟨opening, actions, closing⟩ := b
    simp only [Laid, Block.Laid, Action.allLaid_iff] at laid
    obtain ⟨k, l, first, row, last⟩ := laid
    exact ((row.map (f := action) fun _ _ _ here => here).since (Nat.le_of_lt first.lt)).upTo
      (Nat.le_of_lt last.lt)
  | expr e =>
    cases e with
    | number | boolean | string => exact Nat.le_of_lt (Spans.lt laid)
    | ref => exact Nat.le_of_lt (Name.Laid.spans laid).lt
    | unary op opSpan operand =>
      obtain ⟨k, sign, inner⟩ := laid
      exact row_single (Nat.le_of_lt sign.lt) inner.le inner (Nat.le_refl j)
    | binary op opSpan left right =>
      obtain ⟨k, l, first, sign, second⟩ := laid
      exact ⟨i, k, Nat.le_refl i, first.le, first,
        row_single (Nat.le_of_lt sign.lt) second.le second (Nat.le_refl j)⟩
    | invalid => exact laid

theorem Laid.contained (laid : n.Laid source i j) (contains : n.Contains child) :
    ∃ k l, child.Laid source k l := by
  induction contains with
  | refl => exact ⟨i, j, laid⟩
  | tail _ member ih =>
    obtain ⟨k, l, laid⟩ := ih
    obtain ⟨k', l', -, -, here⟩ := laid.children_row.mem member
    exact ⟨k', l', here⟩

theorem Program.spans {p : Program} (laid : (program p).Laid source i j) (filled : p ≠ []) :
    Spans source i j p.span ∧ ∀ d ∈ p, d.span.Inside p.span := by
  have each {d : Definition} (member : d ∈ p) : Spans source i j d.span := by
    obtain ⟨k, l, lower, upper, here⟩ := Row.mem laid member
    exact here.spans.widen lower upper
  obtain ⟨d, member⟩ := List.exists_mem_of_ne_nil p filled
  obtain ⟨covered, inside⟩ := Spans.cover (p.map Definition.span)
    ⟨d.span, List.mem_map_of_mem member, each member⟩
    (List.forall_mem_map.mpr fun d member => .inr (each member))
  exact ⟨covered, fun d member => inside d.span (List.mem_map_of_mem member) (each member)⟩

/-- A node goes from a token to a token, a program without definitions and what could not be
read apart. -/
theorem Laid.spans (laid : n.Laid source i j) :
    n = .expr .invalid ∨ n = .program [] ∨ Spans source i j n.span := by
  cases n with
  | program p =>
    by_cases filled : p = []
    · exact .inr (.inl (congrArg program filled))
    · exact .inr (.inr (Program.spans laid filled).1)
  | definition d => exact .inr (.inr (Definition.Laid.spans laid))
  | state s => exact .inr (.inr (StateEntry.Laid.spans laid).1)
  | annotation a => exact .inr (.inr (Attribute.Laid.spans laid))
  | action a => exact .inr (.inr (Action.Laid.spans laid))
  | block b => exact .inr (.inr (Block.Laid.spans laid))
  | expr e => exact (Expr.Laid.spans laid).imp (congrArg expr) .inr

theorem Laid.inside (laid : n.Laid source i j) (member : child ∈ n.children)
    (read : child ≠ .expr .invalid) : child.span.Inside n.span := by
  have apart {e : Expr} {P : Prop} (read : expr e ≠ expr .invalid) (known : e = .invalid ∨ P) :
      P := known.resolve_left fun same => read (congrArg expr same)
  cases n with
  | program p =>
    obtain ⟨d, listed, rfl⟩ := List.mem_map.mp member
    exact (Program.spans laid (List.ne_nil_of_mem listed)).2 d listed
  | definition d =>
    cases d with
    | states list =>
      obtain ⟨k, l, first, row, last⟩ := laid
      obtain ⟨s, listed, rfl⟩ := List.mem_map.mp member
      exact Row.between first row last (fun here => here.spans.1) listed
    | declaration d =>
      obtain rfl := List.mem_singleton.mp member
      exact apart read (Declaration.spans laid).2
    | whenBlock b =>
      obtain rfl := List.mem_singleton.mp member
      obtain ⟨k, l, first, middle, last⟩ := laid
      exact (first.cover_pair
        (last.spans.widen (Nat.le_of_lt middle.spans.lt) (Nat.le_refl j))).2.2
  | state s =>
    obtain ⟨a, listed, rfl⟩ := List.mem_map.mp member
    exact (StateEntry.Laid.spans laid).2 a listed
  | annotation a => contradiction
  | action a =>
    cases a with
    | transition keyword target => contradiction
    | assignment name value =>
      obtain rfl := List.mem_singleton.mp member
      simp only [Laid, Action.Laid] at laid
      obtain ⟨k, first, last⟩ := laid
      exact (apart read (last.cover first.spans).2.2).2
    | conditional keyword test body otherwise =>
      cases otherwise with
      | none =>
        simp only [Laid, Action.Laid] at laid
        obtain ⟨k, l, m, first, middle, block, last⟩ := laid
        have closing := block.spans.widen (Nat.le_refl l) last
        rcases List.mem_cons.mp member with rfl | member
        · exact first.between (apart read middle.spans) closing
        · obtain rfl := List.mem_singleton.mp member
          exact (first.cover_pair (closing.widen middle.le (Nat.le_refl j))).2.2
      | some other =>
        simp only [Laid, Action.Laid] at laid
        obtain ⟨k, l, m, first, middle, block, last⟩ := laid
        have opening := first.widen (Nat.le_refl i) middle.le
        have closing := last.spans.widen (Nat.le_of_lt block.spans.lt) (Nat.le_refl j)
        rcases List.mem_cons.mp member with rfl | member
        · exact first.between (apart read middle.spans) closing
        rcases List.mem_cons.mp member with rfl | member
        · exact opening.between block.spans last.spans
        · obtain rfl := List.mem_singleton.mp member
          exact (opening.cover_pair closing).2.2
    | assertion keyword test =>
      obtain rfl := List.mem_singleton.mp member
      simp only [Laid, Action.Laid] at laid
      obtain ⟨k, first, last⟩ := laid
      exact (apart read (last.cover first).2.2).2
    | nested b =>
      obtain rfl := List.mem_singleton.mp member
      exact Selection.Inside.refl _
  | block b =>
    obtain ⟨opening, actions, closing⟩ := b
    simp only [Laid, Block.Laid, Action.allLaid_iff] at laid
    obtain ⟨k, l, first, row, last⟩ := laid
    obtain ⟨a, listed, rfl⟩ := List.mem_map.mp member
    exact Row.between first row last (fun here => here.spans) listed
  | expr e =>
    cases e with
    | number | boolean | string | ref | invalid => contradiction
    | unary op opSpan operand =>
      obtain rfl := List.mem_singleton.mp member
      obtain ⟨k, sign, inner⟩ := laid
      exact (apart read (inner.cover sign).2.2).2
    | binary op opSpan left right =>
      obtain ⟨k, l, first, sign, second⟩ := laid
      obtain ⟨-, before, after⟩ := sign.cover_around first.le
        (first.spans.imp_left (congrArg Expr.span)) second.le
        (second.spans.imp_left (congrArg Expr.span))
      rcases List.mem_cons.mp member with rfl | member
      · exact before (apart read first.spans)
      · obtain rfl := List.mem_singleton.mp member
        exact after (apart read second.spans)

theorem Laid.listed_apart (laid : n.Laid source i j) :
    (n.listed.map span).Pairwise fun a b => a.stop < b.start := by
  cases n with
  | program p =>
    rw [listed, List.map_map]
    exact Row.disjoint laid Definition.Laid.spans
  | definition d =>
    cases d with
    | states list =>
      obtain ⟨k, l, first, row, last⟩ := laid
      rw [listed, List.map_map]
      exact row.disjoint fun here => here.spans.1
    | declaration | whenBlock => exact .nil
  | block b =>
    obtain ⟨opening, actions, closing⟩ := b
    simp only [Laid, Block.Laid, Action.allLaid_iff] at laid
    obtain ⟨k, l, first, row, last⟩ := laid
    rw [listed, List.map_map]
    exact row.disjoint Action.Laid.spans
  | state | annotation | action | expr => exact .nil

theorem Laid.nests (laid : n.Laid source i j) (read : n ≠ .expr .invalid) : n.Nests := by
  have inside : ∀ child ∈ n.children, child ≠ .expr .invalid → child.span.Inside n.span :=
    fun _ => laid.inside
  rcases laid.spans with same | same | spans
  · contradiction
  · subst same
    exact ⟨Location.le_refl _, ⟨rfl, rfl⟩, inside, .nil⟩
  · exact ⟨spans.ordered, spans.valid, inside, laid.listed_apart⟩

end Node

/-- In the tree of every source, however much of it could not be read, ranges nest. -/
theorem parsed_nests (source : String) (n : Node)
    (contained : (Node.program (parse source).value).Contains n) (read : n ≠ .expr .invalid) :
    n.Nests := by
  obtain ⟨j, row⟩ := parse_laid source
  have laid : (Node.program (parse source).value).Laid source 0 j := row
  obtain ⟨k, l, here⟩ := laid.contained contained
  exact here.nests read

def unfinishedTest : String :=
  "when A \x7b\n  if a + \x7b\x7d else \x7b x := b; \x7d\n\x7d"

theorem parsed_nests_unfinishedTest :
    ∃ n : Node, (Node.program (parse unfinishedTest).value).Contains n ∧
      n ≠ .expr .invalid ∧ n.span = ⟨⟨2, 6⟩, ⟨2, 8⟩⟩ ∧
      n.children.map Node.span = [⟨⟨2, 6⟩, ⟨2, 6⟩⟩, .absent] ∧ n.Nests := by
  have shown : (([0, 0, 0, 0].foldlM (fun n k => n.children[k]?)
      (Node.program (parse unfinishedTest).value)).map fun n =>
        (n.span, n.children.map Node.span)) =
      some (⟨⟨2, 6⟩, ⟨2, 8⟩⟩, [⟨⟨2, 6⟩, ⟨2, 6⟩⟩, .absent]) := by decide +kernel
  obtain ⟨n, found, same⟩ := Option.map_eq_some_iff.mp shown
  obtain ⟨span, parts⟩ := Prod.mk.inj same
  have contained := Node.Contains.of_path found
  have read : n ≠ .expr .invalid := by
    rintro rfl
    contradiction
  exact ⟨n, contained, read, span, parts, parsed_nests unfinishedTest n contained read⟩

end Source
end Statecraft
