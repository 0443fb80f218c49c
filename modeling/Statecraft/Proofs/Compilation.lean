import Statecraft.Pipeline
import Statecraft.Proofs.StackDepth
import Statecraft.Proofs.Optimization
import Statecraft.Proofs.Trees
import Statecraft.Proofs.Verification

/-! Compilations break off only at the stack check. Whatever is read from a source
compiles to code that can be assembled unless there is an error, and code that passes
the stack check passes it again when it is optimised. The check refuses code only where
a number of the source is too large to be read. -/
namespace Statecraft

namespace Compile

variable {program : Source.Program} {earlier : List Report}

theorem unreachableStates_quiet (keyword : Selection) (graph : Graph) :
    Quiet (unreachableStates keyword graph) := by
  intro r member
  obtain ⟨name, -, rfl⟩ := List.mem_map.mp member
  rfl

/-- States have the names they are declared with. -/
theorem scope_plain (named : ∀ d ∈ program, d.Named)
    (listed : (Declared.ofProgram program).Listed program) : (scopeOf program).Plain := by
  obtain ⟨list, member, names⟩ := listed.names
  intro name declared
  rw [scopeOf, names, List.mem_map] at declared
  obtain ⟨s, here, rfl⟩ := declared
  exact named _ member s here

theorem build_open {s : Sections} {scope : Scope} (opened : s.Open scope)
    (some : scope.states ≠ []) : ∃ graph builder, s.graph.build = .ok (graph, builder) := by
  simp only [Graph.Builder.build, opened.fresh, Bool.false_eq_true, if_false]
  split
  · rename_i none
    rw [← opened.states, none] at some
    contradiction
  · exact ⟨_, _, rfl⟩

/-- Sections without an error are assembled. -/
theorem finish_quiet (named : ∀ d ∈ program, d.Named) {list : Source.StateList}
    (listed : (Declared.ofProgram program).list = some list)
    (quiet : Quiet (sectionsOf program earlier).reports) :
    ∃ p graph, finish program earlier (Declared.ofProgram program) list =
      .ok ⟨some p,
        (sectionsOf program earlier).reports ++ unreachableStates list.keyword graph⟩ := by
  have lists : (Declared.ofProgram program).Listed program :=
    Declared.foldl_states program rfl rfl (preamble_quiet quiet).2 listed
  obtain ⟨-, opened, -⟩ := sections_housed quiet lists.fresh
  have linked := sections_linked (scope_plain named lists) quiet lists.fresh
  have some : (scopeOf program).states ≠ [] := by
    intro none
    have several := lists.several
    rw [List.map_eq_nil_iff.mp none] at several
    contradiction
  obtain ⟨graph, builder, built⟩ := build_open opened some
  simp only [finish_eq, built, quiet_iff.mp quiet, Bool.false_eq_true, if_false,
    Program.assemble_linked linked]
  exact ⟨_, graph, rfl⟩

/-- A program whose states have plain names compiles, and there is code for it unless
there is an error. -/
theorem program_compiles (named : Quiet earlier → ∀ d ∈ program, d.Named) :
    ∃ compiled, Compile.program program earlier = .ok compiled ∧
      (compiled.program.isSome = true ↔ Quiet compiled.reports) := by
  cases listed : (Declared.ofProgram program).list with
  | none =>
    refine ⟨_, by simp only [Compile.program, listed]; rfl, ?_⟩
    simp [Report.isError, Report.severity, ReportKind.severity]
  | some list =>
    have finishes : Compile.program program earlier =
        finish program earlier (Declared.ofProgram program) list := by
      simp only [Compile.program, listed]
    rw [finishes]
    by_cases quiet : Quiet (sectionsOf program earlier).reports
    · obtain ⟨p, graph, finished⟩ := finish_quiet (named (preamble_quiet quiet).1) listed quiet
      exact ⟨_, finished, by simp [quiet, unreachableStates_quiet]⟩
    · have errors : (sectionsOf program earlier).reports.any Report.isError = true := by
        rwa [quiet_iff, Bool.not_eq_false] at quiet
      refine ⟨⟨none, (sectionsOf program earlier).reports⟩, ?_, by simp [quiet]⟩
      rw [finish_eq]
      split
      · rfl
      · simp only [errors, if_true]

end Compile

namespace Compilation

/-- Nothing broke off, and there is a program unless a report is an error. -/
def Settled (outcome : Except CompilationError Compilation) : Prop :=
  ∃ c, outcome = .ok c ∧ (c.program.isSome = true ↔ c.hasErrors = false)

variable {source : String} {optimize : Bool} {milestones : List Milestone}

theorem improve_settled {reports : List Report} {p : Program} (quiet : Quiet reports)
    (balanced : Code.Balanced p.instructions) :
    Settled (improve source reports p optimize milestones).result := by
  have errors : reports.any Report.isError = false := quiet_iff.mp quiet
  simp only [improve]
  split
  · exact ⟨_, rfl, by simp [hasErrors, errors]⟩
  · obtain ⟨optimized, accepted⟩ :=
      Optimize.optimize_balanced Optimize.Pass.standard Optimize.standardLimit balanced
    simp only [accepted]
    exact ⟨_, rfl, by simp [hasErrors, errors]⟩

/-- The stack check decides about a compiled program. -/
theorem check_settled {compiled : Compile.Compiled}
    (present : compiled.program.isSome = true ↔ Quiet compiled.reports) :
    ((∀ p, compiled.program = some p → Code.Balanced p.instructions) →
      Settled (check source compiled optimize milestones).result) ∧
    (∀ p, compiled.program = some p → ¬Code.Balanced p.instructions →
      ∃ e, (check source compiled optimize milestones).result = .error (.stack e)) := by
  obtain ⟨program, reports⟩ := compiled
  cases program with
  | none =>
    refine ⟨fun _ => ⟨_, rfl, ?_⟩, nofun⟩
    simpa [hasErrors, quiet_iff] using present
  | some p =>
    have quiet : Quiet reports := present.mp rfl
    refine ⟨fun balanced => ?_, ?_⟩
    · have accepted := (Program.stackErrors_eq_nil_iff p).mpr (balanced p rfl)
      simp only [check, accepted]
      exact improve_settled quiet (balanced p rfl)
    · rintro _ ⟨⟩ unbalanced
      simp only [check]
      split
      · exact ⟨_, rfl⟩
      · rename_i accepted
        exact absurd ((Program.stackErrors_eq_nil_iff p).mp accepted) unbalanced

end Compilation

/-- What is read compiles, and then it is checked. -/
theorem compile_checks (source : String) (optimize : Bool) : ∃ compiled milestones,
    Compile.program (Source.parse source).value (Source.parse source).reports = .ok compiled ∧
      (compiled.program.isSome = true ↔ Quiet compiled.reports) ∧
      compile source optimize =
        (Compilation.check source compiled optimize milestones).result := by
  have named : Quiet (Source.parse source).reports → ∀ d ∈ (Source.parse source).value, d.Named :=
    Source.parse_named
  obtain ⟨compiled, accepted, present⟩ := Compile.program_compiles named
  simp only [compile, Compilation.traced, accepted]
  exact ⟨compiled, _, rfl, present, rfl⟩

/-- Where every number can be read, the compiled code is balanced. -/
theorem readable_balanced {source : String} {p : Program} {reports : List Report}
    (readable : ∀ t ∈ significantTokens source, t.Readable)
    (accepted : Compile.program (Source.parse source).value (Source.parse source).reports =
      .ok ⟨some p, reports⟩) : Code.Balanced p.instructions := by
  obtain ⟨-, -, -, -, -, quiet, code, -⟩ := Compile.accepted_parts accepted
  rw [code]
  exact Compile.sections_balanced
    (Source.parse_complete readable (Compile.preamble_quiet quiet).1) quiet

/-- A compilation breaks off only where the stack check refuses the code, and this only
happens where a number of the source cannot be read. -/
theorem compile_settled_iff (source : String) (optimize : Bool) :
    (Compilation.Settled (compile source optimize) ↔
      ∀ p reports, Compile.program (Source.parse source).value (Source.parse source).reports =
        .ok ⟨some p, reports⟩ → Code.Balanced p.instructions) ∧
    (¬Compilation.Settled (compile source optimize) →
      (∃ e, compile source optimize = .error (.stack e)) ∧
        ∃ t ∈ significantTokens source, t.kind = .number ∧ Double.ofLiteral? t.text = none) := by
  obtain ⟨compiled, milestones, accepted, present, result⟩ := compile_checks source optimize
  obtain ⟨settles, refuses⟩ := Compilation.check_settled present
  rw [← result] at settles refuses
  have unsettled {p : Program} (found : compiled.program = some p)
      (unbalanced : ¬Code.Balanced p.instructions) :
      ¬Compilation.Settled (compile source optimize) := by
    obtain ⟨e, broken⟩ := refuses p found unbalanced
    rintro ⟨c, settled, -⟩
    rw [broken] at settled
    contradiction
  constructor
  · constructor
    · intro settled p reports same
      obtain rfl := Except.ok.inj (accepted.symm.trans same)
      exact Classical.byContradiction fun unbalanced => unsettled rfl unbalanced settled
    · intro balanced
      apply settles
      intro p found
      exact balanced p compiled.reports (by rw [accepted, ← found])
  · intro broken
    obtain ⟨p, found, unbalanced⟩ :
        ∃ p, compiled.program = some p ∧ ¬Code.Balanced p.instructions := by
      refine Classical.byContradiction fun none => broken (settles fun p found => ?_)
      exact Classical.byContradiction fun unbalanced => none ⟨p, found, unbalanced⟩
    refine ⟨refuses p found unbalanced, Classical.byContradiction fun none => unbalanced ?_⟩
    refine readable_balanced (fun t member number => ?_) (accepted.trans (by rw [← found]))
    exact Option.isSome_iff_ne_none.mpr fun missing => none ⟨t, member, number, missing⟩

/-- Nobody reports a value that could not be read, and its store finds nothing. -/
example :
    (match Compile.program
        [.states ⟨.absent, [⟨⟨"A", .absent⟩, []⟩, ⟨⟨"B", .absent⟩, []⟩], .absent⟩,
          .declaration ⟨.assignable, .absent, ⟨"x", .absent⟩, .invalid⟩] [] with
      | .ok ⟨some p, reports⟩ => !reports.any Report.isError && !p.stackErrors.isEmpty
      | _ => false) = true := by
  decide +kernel

end Statecraft
