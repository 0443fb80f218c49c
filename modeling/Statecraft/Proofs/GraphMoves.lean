import Statecraft.Proofs.Typing
import Statecraft.Proofs.CurrentSection

/-! Which moves the graph of a compiled program has. They are those of the live transitions,
at any depth, and a move of each state to itself whose when-block has no live transition. -/
namespace Statecraft.Source

mutual

/-- A live transition to the target stands in the action. -/
inductive Action.Moves (target : String) : Action → Prop where
  | transition {keyword : Selection} {name : Name} (same : name.text = target) :
      Action.Moves target (.transition keyword name)
  | body {keyword : Selection} {test : Expr} {body : Block} {otherwise : Option Block}
      (inner : Block.Moves target body) :
      Action.Moves target (.conditional keyword test body otherwise)
  | otherwise {keyword : Selection} {test : Expr} {body other : Block}
      (inner : Block.Moves target other) :
      Action.Moves target (.conditional keyword test body (some other))
  | nested {body : Block} (inner : Block.Moves target body) :
      Action.Moves target (.nested body)

inductive Block.Moves (target : String) : Block → Prop where
  | braces {opening closing : Selection} {actions : List Action} {a : Action}
      (live : a ∈ Action.live actions) (moves : Action.Moves target a) :
      Block.Moves target (.braces opening actions closing)

end

/-- A bare block leaves the block around it if the last of its live actions does. -/
theorem Action.leaves_nested_iff {opening closing : Selection} {actions : List Action} :
    (Action.nested (.braces opening actions closing)).leaves = true ↔
      ∃ a, (Action.live actions).getLast? = some a ∧ a.leaves = true := by
  rw [Action.leaves, Block.leaves]
  induction actions with
  | nil => simp [Action.someLeaves, Action.live]
  | cons a rest ih =>
    rw [Action.someLeaves, Action.live]
    cases stops : a.leaves with
    | true => simp [stops]
    | false =>
      rw [Bool.false_or, ih, if_neg Bool.false_ne_true]
      cases more : Action.live rest with
      | nil => simp [stops]
      | cons b later => rw [List.getLast?_cons_cons]

/-- The when-block has a live transition to the target, or it has none at all and the target
is its own state. -/
def WhenBlock.Offers (b : WhenBlock) (target : String) : Prop :=
  b.body.Moves target ∨ b.state.text = target ∧ ∀ other, ¬b.body.Moves other

end Statecraft.Source

namespace Statecraft

namespace Graph.Builder

variable {b : Builder} {source target : String} {move : String × String}

theorem of_mem_withMove (member : move ∈ (b.withMove source target).moves) :
    move ∈ b.moves ∨ move = (source, target) := by
  simp only [withMove, addMove] at member
  split at member
  · exact .inl member
  · split at member
    · exact .inl member
    · split at member
      · exact .inl member
      · exact (List.mem_insert_iff.mp member).symm

theorem of_mem_foldl_withMove {targets : List String}
    (member : move ∈
      (targets.foldl (fun graph target => graph.withMove source target) b).moves) :
    move ∈ b.moves ∨ ∃ target ∈ targets, move = (source, target) := by
  induction targets generalizing b with
  | nil => exact .inl member
  | cons first rest ih =>
    rcases ih member with before | ⟨target, later, same⟩
    · rcases of_mem_withMove before with old | same
      · exact .inl old
      · exact .inr ⟨first, List.mem_cons_self, same⟩
    · exact .inr ⟨target, List.mem_cons_of_mem _ later, same⟩

end Graph.Builder

namespace Compile

open Source (Action Block WhenBlock)

variable {scope : Scope} {target : String}

mutual

/-- The targets that are met are those of the live transitions. -/
theorem action_targets (a : Action) (counter : Nat) :
    target ∈ (action scope counter a).targets ↔ a.Moves target := by
  cases a with
  | transition keyword name =>
    rw [action, transition, List.mem_singleton]
    constructor
    · intro same
      exact .transition same.symm
    · rintro ⟨same⟩
      exact same.symm
  | assignment | assertion => exact ⟨nofun, nofun⟩
  | nested body =>
    rw [action, block_targets body counter]
    constructor
    · exact .nested
    · rintro ⟨inner⟩
      assumption
  | conditional keyword test body otherwise =>
    have first := block_targets body (counter + 2)
    cases otherwise with
    | none =>
      simp only [action, conditional, List.mem_append, first]
      constructor
      · rintro (inner | member)
        · exact .body inner
        · contradiction
      · intro moves
        cases moves with
        | body inner => exact .inl inner
    | some other =>
      simp only [action, conditional, List.mem_append, first, block_targets other]
      constructor
      · rintro (inner | inner)
        · exact .body inner
        · exact .otherwise inner
      · intro moves
        cases moves with
        | body inner => exact .inl inner
        | otherwise inner => exact .inr inner

theorem block_targets (b : Block) (counter : Nat) :
    target ∈ (block scope counter b).targets ↔ b.Moves target := by
  obtain ⟨opening, body, closing⟩ := b
  rw [block, actions_targets body counter]
  constructor
  · rintro ⟨a, live, moves⟩
    exact .braces live moves
  · rintro ⟨live, moves⟩
    exact ⟨_, live, moves⟩

theorem actions_targets (as : List Action) (counter : Nat) :
    target ∈ (actions scope counter as).targets ↔ ∃ a ∈ Action.live as, a.Moves target := by
  cases as with
  | nil => simp [actions, ActionCode.none, Action.live]
  | cons a rest =>
    have first := action_targets a counter
    have stops : (action scope counter a).terminator.isSome = a.leaves := action_leaves a counter
    rw [Action.live]
    cases terminator : (action scope counter a).terminator with
    | some name =>
      obtain ⟨more, same⟩ := actions_terminated terminator rest
      rw [terminator, Option.isSome_some] at stops
      rw [same, first, ← stops]
      simp
    | none =>
      rw [terminator, Option.isSome_none] at stops
      rw [actions, terminator, ← stops]
      simp only [ActionCode.append, List.mem_append, first, actions_targets rest,
        Bool.false_eq_true, if_false, List.mem_cons, exists_eq_or_imp]

end

mutual

/-- Without an error every target is a state. -/
theorem action_declared (a : Action) (counter : Nat)
    (quiet : Quiet (action scope counter a).reports) :
    (action scope counter a).targets ⊆ scope.states := by
  cases a with
  | transition keyword name =>
    rw [action] at quiet ⊢
    simpa [transition] using transition_quiet_iff.mp quiet
  | assignment | assertion => exact List.nil_subset _
  | nested body => exact block_declared body counter quiet
  | conditional keyword test body otherwise =>
    have first := block_declared body (counter + 2)
    cases otherwise with
    | none =>
      simp only [action, conditional, quiet_append] at quiet ⊢
      exact List.append_subset.mpr ⟨first quiet.1.2, List.nil_subset _⟩
    | some other =>
      simp only [action, conditional, quiet_append] at quiet ⊢
      exact List.append_subset.mpr ⟨first quiet.1.2, block_declared other _ quiet.2⟩

theorem block_declared (b : Block) (counter : Nat)
    (quiet : Quiet (block scope counter b).reports) :
    (block scope counter b).targets ⊆ scope.states := by
  obtain ⟨_, body, _⟩ := b
  exact actions_declared body counter quiet

theorem actions_declared (as : List Action) (counter : Nat)
    (quiet : Quiet (actions scope counter as).reports) :
    (actions scope counter as).targets ⊆ scope.states := by
  cases as with
  | nil => exact List.nil_subset _
  | cons a rest =>
    obtain ⟨here, later⟩ := (actions_cons_quiet_iff a rest counter).mp quiet
    have stops : (action scope counter a).terminator.isSome = a.leaves := action_leaves a counter
    have first := action_declared a counter here
    cases terminator : (action scope counter a).terminator with
    | some name =>
      obtain ⟨more, same⟩ := actions_terminated terminator rest
      rwa [same]
    | none =>
      rw [terminator] at stops
      rw [actions, terminator]
      exact List.append_subset.mpr ⟨first, actions_declared rest _ (later stops.symm)⟩

end

namespace Sections

variable {s : Sections} {move : String × String}

/-- What a section records are the moves of its when-block. -/
theorem mem_compile_moves {b : WhenBlock} (opened : s.Open scope)
    (declared : b.state.text ∈ scope.states) (quiet : Quiet (compile scope s b).reports) :
    move ∈ (compile scope s b).graph.moves ↔
      move ∈ s.graph.moves ∨ move.1 = b.state.text ∧ b.Offers move.2 := by
  have met (other : String) : other ∈ (block scope s.counter b.body).targets ↔
      b.body.Moves other := block_targets b.body s.counter
  have listed (other : String) :
      other ∈ (if (block scope s.counter b.body).targets.isEmpty then [b.state.text]
        else (block scope s.counter b.body).targets) ↔ b.Offers other := by
    rw [WhenBlock.Offers, ← met]
    split
    · rename_i empty
      rw [List.isEmpty_iff] at empty
      simp [← met, empty, eq_comm]
    · rename_i some
      obtain ⟨first, member⟩ := List.exists_mem_of_ne_nil _ (mt List.isEmpty_iff.mpr some)
      have moving : ¬∀ other, ¬b.body.Moves other := fun none => none first ((met first).mp member)
      simp [moving]
  constructor
  · intro member
    rcases Graph.Builder.of_mem_foldl_withMove member with old | ⟨other, here, rfl⟩
    · exact .inl old
    · exact .inr ⟨rfl, (listed other).mp here⟩
  · rintro (old | ⟨same, offers⟩)
    · exact (Graph.Builder.foldl_withMove b.state.text _ s.graph).2.2 old
    · obtain ⟨source, other⟩ := move
      obtain rfl : source = b.state.text := same
      have known : other ∈ scope.states := by
        rcases offers with moves | ⟨rfl, -⟩
        · exact block_declared b.body s.counter (quiet_append.mp quiet).2 ((met other).mpr moves)
        · exact declared
      have hasState {name : String} (member : name ∈ scope.states) :
          s.graph.hasState name = true := by
        rwa [Graph.Builder.hasState_iff, opened.states]
      exact Graph.Builder.mem_foldl_withMove opened.fresh (hasState declared) (hasState known)
        ((listed other).mpr offers)

theorem mem_foldl_moves (blocks : List WhenBlock) (opened : s.Open scope)
    (quiet : Quiet (blocks.foldl (add scope) s).reports) :
    move ∈ (blocks.foldl (add scope) s).graph.moves ↔
      move ∈ s.graph.moves ∨ ∃ b ∈ blocks, move.1 = b.state.text ∧ b.Offers move.2 := by
  induction blocks generalizing s with
  | nil => simp
  | cons b rest ih =>
    have here : Quiet (add scope s b).reports := quiet.of_prefix (foldl_reports scope rest _)
    obtain ⟨same, declared, -⟩ := add_quiet here
    rw [List.foldl_cons, same] at quiet ⊢
    rw [same] at here
    rw [ih (compile_open opened) quiet, mem_compile_moves opened declared here, or_assoc]
    simp only [List.mem_cons, exists_eq_or_imp]

theorem foldl_graph_states (blocks : List WhenBlock) (s : Sections) :
    (blocks.foldl (add scope) s).graph.states = s.graph.states := by
  induction blocks generalizing s with
  | nil => rfl
  | cons b rest ih =>
    rw [List.foldl_cons, ih]
    simp only [add]
    split
    · rfl
    · split
      · rfl
      · exact (Graph.Builder.foldl_withMove b.state.text _ s.graph).1

end Sections

theorem mem_whenBlocks {program : Source.Program} {b : WhenBlock} :
    b ∈ whenBlocks program ↔ .whenBlock b ∈ program := by
  rw [whenBlocks, List.mem_filterMap]
  constructor
  · rintro ⟨d, member, same⟩
    cases d with
    | whenBlock other =>
      cases same
      exact member
    | states | declaration => contradiction
  · intro member
    exact ⟨_, member, rfl⟩

variable {program : Source.Program} {earlier reports : List Report} {p : Program}

theorem accepted_moves (accepted : Compile.program program earlier = .ok ⟨some p, reports⟩) :
    ∃ graph, p.graph = some graph ∧ graph.states = (Declared.ofProgram program).graph.states ∧
      ∀ source target, (source, target) ∈ graph.moves ↔
        ∃ b, .whenBlock b ∈ program ∧ b.state.text = source ∧ b.Offers target := by
  obtain ⟨list, graph, builder, -, built, quiet, -, walks, -⟩ := accepted_parts accepted
  obtain ⟨lists, -, -, -⟩ := accepted_sections accepted
  have opened : (Sections.first program earlier).Open (scopeOf program) := ⟨lists.fresh, rfl⟩
  have none : (Sections.first program earlier).graph.moves = [] := lists.moves
  obtain ⟨states, moves⟩ := build_parts built
  refine ⟨graph, walks, ?_, ?_⟩
  · rw [states]
    exact Sections.foldl_graph_states _ _
  · intro source target
    rw [moves, sectionsOf, Sections.mem_foldl_moves _ opened quiet, none]
    simp [mem_whenBlocks, eq_comm]

end Compile

/-- Three states. The first one moves to the second or to itself, and what would move it to
the third is never reached; the second one stays, with a variable negated and then asserted. -/
def Source.Program.detour : Source.Program :=
  let name (text : String) : Source.Name := ⟨text, .absent⟩
  let block (actions : List Source.Action) : Source.Block := .braces .absent actions .absent
  [.states ⟨.absent, [⟨name "A", []⟩, ⟨name "B", []⟩, ⟨name "C", []⟩], .absent⟩,
    .declaration ⟨.assignable, .absent, name "x", .boolean true .absent⟩,
    .whenBlock ⟨.absent, name "A",
      block
        [.nested (block
          [.conditional .absent (.ref (name "x")) (block [.transition .absent (name "B")]) none,
            .transition .absent (name "A")]),
          .transition .absent (name "C")]⟩,
    .whenBlock ⟨.absent, name "B",
      block
        [.assignment (name "x") (.unary .not .absent (.ref (name "x"))),
          .assertion .absent (.ref (name "x"))]⟩]

/-- The graph of a compiled program has the moves of its source: a state can move to the
targets of the live transitions in its when-block, or to itself if there are none. -/
theorem compiled_moves_iff {source : Source.Program} {compiled : Program}
    {earlier reports : List Report}
    (accepted : Compile.program source earlier = .ok ⟨some compiled, reports⟩) :
    ∃ graph, compiled.graph = some graph ∧ ∀ state target,
      graph.canMove state target = true ↔
        ∃ b, .whenBlock b ∈ source ∧ b.state.text = state ∧
          (b.body.Moves target ∨ state = target ∧ ∀ other, ¬b.body.Moves other) := by
  obtain ⟨graph, walks, -, moves⟩ := Compile.accepted_moves accepted
  refine ⟨graph, walks, fun state target => ?_⟩
  rw [Graph.canMove, decide_eq_true_iff, moves]
  constructor
  · rintro ⟨b, member, rfl, offers⟩
    exact ⟨b, member, rfl, offers⟩
  · rintro ⟨b, member, rfl, offers⟩
    exact ⟨b, member, rfl, offers⟩

/-- The detour can move from `A` to `B` and to `A`, but not to `C`, and `B` stays. -/
theorem compiled_moves_iff_detour :
    ∃ compiled reports graph,
      Compile.program Source.Program.detour [] = .ok ⟨some compiled, reports⟩ ∧
        compiled.graph = some graph ∧ graph.canMove "A" "B" = true ∧
        graph.canMove "A" "A" = true ∧ graph.canMove "A" "C" = false ∧
        graph.canMove "B" "B" = true := by
  obtain ⟨graph, walks, moves⟩ := @compiled_moves_iff .detour _ [] _ rfl
  have met (body : Source.Block) (target : String) :
      body.Moves target ↔ target ∈ (Compile.block ⟨.empty, [], []⟩ 0 body).targets :=
    (Compile.block_targets body 0).symm
  refine ⟨_, _, graph, rfl, walks, ?_, ?_, ?_, ?_⟩
  · exact (moves "A" "B").mpr
      ⟨_, .tail _ (.tail _ (.head _)), rfl, .inl ((met _ _).mpr (by decide))⟩
  · exact (moves "A" "A").mpr
      ⟨_, .tail _ (.tail _ (.head _)), rfl, .inl ((met _ _).mpr (by decide))⟩
  · rw [← Bool.not_eq_true, moves]
    rintro ⟨b, member, same, offers⟩
    simp only [Source.Program.detour, List.mem_cons, List.not_mem_nil, or_false, reduceCtorEq,
      Source.Definition.whenBlock.injEq, false_or] at member
    rcases member with rfl | rfl
    · rcases offers with moves | ⟨other, -⟩
      · exact absurd ((met _ _).mp moves) (by decide)
      · contradiction
    · contradiction
  · refine (moves "B" "B").mpr ⟨_, .tail _ (.tail _ (.tail _ (.head _))), rfl, .inr ⟨rfl, ?_⟩⟩
    intro other moves
    exact List.not_mem_nil ((met _ _).mp moves)

end Statecraft
