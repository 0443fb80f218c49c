import Statecraft.Proofs.Declarations

/-! What a program compiles to when nothing is wrong with it: the initial values, the
way to the first state, and a section for every when-block, whose moves are those of
the graph. -/
namespace Statecraft

namespace Graph.Builder

variable {b : Builder}

theorem withMove_states (b : Builder) (source target : String) :
    (b.withMove source target).states = b.states ∧
      (b.withMove source target).consumed = b.consumed := by
  simp only [withMove, addMove]
  split
  · exact ⟨rfl, rfl⟩
  · split
    · exact ⟨rfl, rfl⟩
    · split <;> exact ⟨rfl, rfl⟩

theorem withMove_moves (b : Builder) (source target : String) :
    b.moves ⊆ (b.withMove source target).moves := by
  intro move member
  simp only [withMove, addMove]
  split
  · exact member
  · split
    · exact member
    · split
      · exact member
      · exact List.mem_insert_of_mem member

theorem hasState_iff {name : String} : b.hasState name = true ↔ name ∈ b.states.map State.name := by
  simp [hasState]

theorem mem_withMove {source target : String} (fresh : b.consumed = false)
    (leaves : b.hasState source = true) (enters : b.hasState target = true) :
    (source, target) ∈ (b.withMove source target).moves := by
  simp [withMove, addMove, fresh, leaves, enters, Except.toOption]

/-- Moves are recorded one after the other and none is lost. -/
theorem foldl_withMove (source : String) (targets : List String) (b : Builder) :
    (targets.foldl (fun graph target => graph.withMove source target) b).states = b.states ∧
      (targets.foldl (fun graph target => graph.withMove source target) b).consumed = b.consumed ∧
      b.moves ⊆ (targets.foldl (fun graph target => graph.withMove source target) b).moves := by
  induction targets generalizing b with
  | nil => exact ⟨rfl, rfl, fun _ member => member⟩
  | cons target rest ih =>
    obtain ⟨states, consumed, moves⟩ := ih (b.withMove source target)
    obtain ⟨states', consumed'⟩ := withMove_states b source target
    exact ⟨states.trans states', consumed.trans consumed',
      fun _ member => moves (withMove_moves b source target member)⟩

theorem mem_foldl_withMove {source target : String} {targets : List String}
    (fresh : b.consumed = false) (leaves : b.hasState source = true)
    (enters : b.hasState target = true) (member : target ∈ targets) :
    (source, target) ∈
      (targets.foldl (fun graph target => graph.withMove source target) b).moves := by
  induction targets generalizing b with
  | nil => simp at member
  | cons first rest ih =>
    obtain ⟨states, consumed⟩ := withMove_states b source first
    rcases List.mem_cons.mp member with rfl | later
    · exact (foldl_withMove source rest _).2.2 (mem_withMove fresh leaves enters)
    · refine ih (consumed.trans fresh) ?_ ?_ later <;> simpa only [hasState, states]

end Graph.Builder

namespace Compile

open Source (WhenBlock)

def sectionCode (scope : Scope) (counter : Nat) (b : WhenBlock) : List Instruction :=
  .label b.state.text :: .location (.hullAll [b.keyword, b.state.span]) ::
    (block scope counter b.body).code ++ [.jump b.state.text]

namespace Sections

variable {scope : Scope} {s : Sections} {b other : WhenBlock}

/-- The sections have that of the when-block, compiled without an error, and its
moves to declared states. -/
def Houses (s : Sections) (scope : Scope) (b : WhenBlock) : Prop :=
  b.state.text ∈ scope.states ∧ ∃ counter,
    (∃ before after, s.code = before ++ sectionCode scope counter b ++ after) ∧
      Quiet (block scope counter b.body).reports ∧
      ∀ target ∈ (block scope counter b.body).targets, target ∈ scope.states →
        (b.state.text, target) ∈ s.graph.moves

/-- The graph is still open and has the states of the scope. -/
structure Open (s : Sections) (scope : Scope) : Prop where
  fresh : s.graph.consumed = false
  states : s.graph.states.map State.name = scope.states

theorem add_reports (scope : Scope) (s : Sections) (b : WhenBlock) :
    s.reports <+: (add scope s b).reports := by
  simp only [add]
  split
  · exact List.prefix_append _ _
  · split
    · exact List.prefix_append _ _
    · exact List.prefix_append _ _

theorem foldl_reports (scope : Scope) (blocks : List WhenBlock) (s : Sections) :
    s.reports <+: (blocks.foldl (add scope) s).reports := by
  induction blocks generalizing s with
  | nil => exact List.prefix_refl _
  | cons b rest ih => exact (add_reports scope s b).trans (ih (add scope s b))

/-- Without an error the section is compiled. -/
theorem add_quiet (quiet : Quiet (add scope s b).reports) :
    add scope s b = compile scope s b ∧ b.state.text ∈ scope.states ∧ b.state.text ∉ s.labels := by
  simp only [add] at quiet ⊢
  split at quiet
  · simp [Report.isError, Report.severity, ReportKind.severity] at quiet
  · rename_i declared
    split at quiet
    · simp [Report.isError, Report.severity, ReportKind.severity] at quiet
    · rename_i first
      exact ⟨by simp [declared, first], Decidable.not_not.mp declared, first⟩

theorem compile_code (scope : Scope) (s : Sections) (b : WhenBlock) :
    (compile scope s b).code = s.code ++ sectionCode scope s.counter b := by
  simp [compile, sectionCode]

theorem compile_open (opened : s.Open scope) : (compile scope s b).Open scope := by
  obtain ⟨states, consumed, -⟩ := Graph.Builder.foldl_withMove b.state.text
    (if (block scope s.counter b.body).targets.isEmpty then [b.state.text]
      else (block scope s.counter b.body).targets) s.graph
  exact ⟨consumed.trans opened.fresh, (congrArg (List.map State.name) states).trans opened.states⟩

theorem compile_houses (opened : s.Open scope) (declared : b.state.text ∈ scope.states)
    (quiet : Quiet (compile scope s b).reports) : (compile scope s b).Houses scope b := by
  refine ⟨declared, s.counter, ⟨s.code, [], ?_⟩, (quiet_append.mp quiet).2, ?_⟩
  · rw [compile_code, List.append_nil]
  · intro target member known
    have some : (block scope s.counter b.body).targets.isEmpty = false := by
      cases same : (block scope s.counter b.body).targets with
      | nil => simp [same] at member
      | cons => rfl
    have hasState {name : String} (known : name ∈ scope.states) : s.graph.hasState name = true := by
      rwa [Graph.Builder.hasState_iff, opened.states]
    simp only [compile, some, Bool.false_eq_true, if_false]
    exact Graph.Builder.mem_foldl_withMove opened.fresh (hasState declared) (hasState known) member

theorem compile_keeps (houses : s.Houses scope other) :
    (compile scope s b).Houses scope other := by
  obtain ⟨declared, counter, ⟨before, after, code⟩, quiet, moves⟩ := houses
  refine ⟨declared, counter, ⟨before, after ++ sectionCode scope s.counter b, ?_⟩, quiet, ?_⟩
  · rw [compile_code, code]
    simp only [List.append_assoc]
  · intro target member known
    exact (Graph.Builder.foldl_withMove b.state.text _ s.graph).2.2 (moves target member known)

/-- Without an error every when-block has its section, in order after what was there. -/
theorem foldl_houses (blocks : List WhenBlock) (opened : s.Open scope)
    (quiet : Quiet (blocks.foldl (add scope) s).reports) :
    (∀ b ∈ blocks, (blocks.foldl (add scope) s).Houses scope b) ∧
      (∀ b, s.Houses scope b → (blocks.foldl (add scope) s).Houses scope b) ∧
      (blocks.foldl (add scope) s).Open scope ∧ s.code <+: (blocks.foldl (add scope) s).code := by
  induction blocks generalizing s with
  | nil => exact ⟨by simp, fun b houses => houses, opened, List.prefix_refl _⟩
  | cons b rest ih =>
    have here : Quiet (add scope s b).reports := quiet.of_prefix (foldl_reports scope rest _)
    obtain ⟨same, declared, -⟩ := add_quiet here
    rw [List.foldl_cons, same] at quiet ⊢
    rw [same] at here
    obtain ⟨later, kept, opened', shorter⟩ := ih (compile_open opened) quiet
    refine ⟨?_, fun b' houses => kept b' (compile_keeps houses), opened', ?_⟩
    · intro b' member
      rcases List.mem_cons.mp member with rfl | member
      · exact kept _ (compile_houses opened declared here)
      · exact later b' member
    · refine List.IsPrefix.trans ?_ shorter
      rw [compile_code]
      exact List.prefix_append _ _

end Sections

def scopeOf (program : Source.Program) : Scope :=
  let declared := Declared.ofProgram program
  let states := declared.graph.states.map State.name
  ⟨declared.symbols, states, ((whenBlocks program).map fun b => b.state.text).filter (· ∈ states)⟩

def preamble (program : Source.Program) : List Instruction :=
  (Declared.ofProgram program).code ++
    entry (scopeOf program).states.head? (scopeOf program).withBlock

def Sections.first (program : Source.Program) (earlier : List Report) : Sections :=
  ⟨preamble program, earlier ++ (Declared.ofProgram program).reports, [], [], 0,
    (Declared.ofProgram program).graph⟩

def sectionsOf (program : Source.Program) (earlier : List Report) : Sections :=
  (whenBlocks program).foldl (Sections.add (scopeOf program)) (.first program earlier)

variable {program : Source.Program} {earlier reports : List Report} {compiled : Program}

theorem finish_eq (program : Source.Program) (earlier : List Report)
    (list : Source.StateList) :
    finish program earlier (Declared.ofProgram program) list =
      match (sectionsOf program earlier).graph.build with
      | .error _ => .ok ⟨none, (sectionsOf program earlier).reports⟩
      | .ok (graph, _) =>
          if (sectionsOf program earlier).reports.any Report.isError then
            .ok ⟨none, (sectionsOf program earlier).reports⟩
          else
            (Program.assemble (sectionsOf program earlier).code
              ((Declared.ofProgram program).symbols.useAll (sectionsOf program earlier).used)
              (some graph)).map fun compiled =>
              ⟨some compiled,
                (sectionsOf program earlier).reports ++ unreachableStates list.keyword graph⟩ :=
  rfl

/-- An assembled program is made of what it was assembled from. -/
theorem assemble_parts {code : List Instruction} {symbols : Symbols} {graph : Option Graph}
    {p : Program} (assembled : Program.assemble code symbols graph = .ok p) :
    p.instructions = code ∧ p.symbols = symbols ∧ p.graph = graph := by
  unfold Program.assemble at assembled
  split at assembled
  · contradiction
  · split at assembled
    · contradiction
    · cases assembled
      simp [Program.instructions]

/-- What is known of a program that is accepted. -/
theorem accepted_parts (accepted : Compile.program program earlier = .ok ⟨some compiled, reports⟩) :
    ∃ list graph builder, (Declared.ofProgram program).list = some list ∧
      (sectionsOf program earlier).graph.build = .ok (graph, builder) ∧
      Quiet (sectionsOf program earlier).reports ∧
      compiled.instructions = (sectionsOf program earlier).code ∧ compiled.graph = some graph ∧
      reports = (sectionsOf program earlier).reports ++ unreachableStates list.keyword graph := by
  simp only [Compile.program] at accepted
  split at accepted
  · cases accepted
  · rename_i list listed
    rw [finish_eq] at accepted
    split at accepted
    · cases accepted
    · rename_i graph builder built
      split at accepted
      · cases accepted
      · rename_i errors
        cases assembled : Program.assemble (sectionsOf program earlier).code
          ((Declared.ofProgram program).symbols.useAll (sectionsOf program earlier).used)
          (some graph) with
        | error e => simp [assembled, Except.map] at accepted
        | ok p =>
          simp only [assembled, Except.map, Except.ok.injEq, Compiled.mk.injEq,
            Option.some.injEq] at accepted
          obtain ⟨rfl, rfl⟩ := accepted
          obtain ⟨code, -, walks⟩ := assemble_parts assembled
          exact ⟨list, graph, builder, listed, built, quiet_iff.mpr (by simpa using errors), code,
            walks, rfl⟩

theorem preamble_quiet (quiet : Quiet (sectionsOf program earlier).reports) :
    Quiet earlier ∧ Quiet (Declared.ofProgram program).reports := by
  have shorter : earlier ++ (Declared.ofProgram program).reports <+:
      (sectionsOf program earlier).reports :=
    Sections.foldl_reports _ _ (.first program earlier)
  exact quiet_append.mp (quiet.of_prefix shorter)

/-- What the sections of an accepted program have. -/
theorem sections_housed (quiet : Quiet (sectionsOf program earlier).reports)
    (fresh : (Declared.ofProgram program).graph.consumed = false) :
    (∀ b ∈ whenBlocks program, (sectionsOf program earlier).Houses (scopeOf program) b) ∧
      (sectionsOf program earlier).Open (scopeOf program) ∧
      preamble program <+: (sectionsOf program earlier).code := by
  have opened : (Sections.first program earlier).Open (scopeOf program) := ⟨fresh, rfl⟩
  obtain ⟨houses, -, opened, shorter⟩ := Sections.foldl_houses (whenBlocks program) opened quiet
  exact ⟨houses, opened, shorter⟩

theorem accepted_sections
    (accepted : Compile.program program earlier = .ok ⟨some compiled, reports⟩) :
    (Declared.ofProgram program).Listed program ∧
      (∀ b ∈ whenBlocks program, (sectionsOf program earlier).Houses (scopeOf program) b) ∧
      (sectionsOf program earlier).Open (scopeOf program) ∧
      preamble program <+: (sectionsOf program earlier).code := by
  obtain ⟨list, graph, builder, listed, -, quiet, -⟩ := accepted_parts accepted
  have lists : (Declared.ofProgram program).Listed program :=
    Declared.foldl_states program rfl rfl (preamble_quiet quiet).2 listed
  exact ⟨lists, sections_housed quiet lists.fresh⟩

theorem build_parts {b builder : Graph.Builder} {graph : Graph}
    (built : b.build = .ok (graph, builder)) :
    graph.states = b.states ∧ graph.moves = b.moves := by
  simp only [Graph.Builder.build] at built
  split at built
  · contradiction
  · split at built
    · contradiction
    · rename_i initial others states
      cases built
      exact ⟨states.symm, rfl⟩

end Compile
end Statecraft
