import Statecraft.Proofs.WellFormed

/-! What is known of an accepted program. Earlier reports do not change what it is compiled to.
It is well formed, and its symbols are the declared names, marked where they are used. -/
namespace Statecraft

theorem Compile.valueSymbol?_eq_some_iff {symbols : Symbols} {name : String} {s : Symbol} :
    valueSymbol? symbols name = some s ↔ symbols.find? name = some s ∧ s.kind ≠ .state := by
  simp [valueSymbol?, Option.filter_eq_some_iff]

namespace Symbols.Shows

variable {symbols : Symbols} {env : Source.Environment} {name : String}

theorem kept_of_find? {s : Symbol} (shows : symbols.Shows env) (found : symbols.find? name = some s)
    (valued : s.kind.hasValue = true) :
    ∃ storage, env name = some (storage, s.type) ∧ s.kind = storage.kind := by
  apply shows.kept (Compile.valueSymbol?_eq_some_iff.mpr ⟨found, ?_⟩)
  intro state
  rw [state] at valued
  contradiction

theorem find?_of_kept {storage : Source.Storage} {t : Ty} (shows : symbols.Shows env)
    (kept : env name = some (storage, t)) :
    ∃ s, symbols.find? name = some s ∧ s.kind = storage.kind ∧ s.type = t := by
  obtain ⟨s, symbol, kind, type⟩ := shows.found kept
  exact ⟨s, (Compile.valueSymbol?_eq_some_iff.mp symbol).1, kind, type⟩

end Symbols.Shows

namespace Compile

open Source (Environment StateList WhenBlock)

variable {program : Source.Program} {earlier reports : List Report} {compiled : Program}

/-- Reports are only added to, and nothing else depends on them. -/
theorem Sections.add_earlier (scope : Scope) (earlier : List Report) (s : Sections)
    (b : WhenBlock) :
    add scope { s with reports := earlier ++ s.reports } b =
      { add scope s b with reports := earlier ++ (add scope s b).reports } := by
  simp only [add]
  split
  · simp
  · split
    · simp
    · simp [compile]

theorem Sections.foldl_earlier (scope : Scope) (earlier : List Report) (blocks : List WhenBlock)
    (s : Sections) :
    blocks.foldl (add scope) { s with reports := earlier ++ s.reports } =
      { blocks.foldl (add scope) s with
        reports := earlier ++ (blocks.foldl (add scope) s).reports } := by
  induction blocks generalizing s with
  | nil => rfl
  | cons b rest ih => rw [List.foldl_cons, add_earlier, ih, List.foldl_cons]

theorem sectionsOf_earlier (program : Source.Program) (earlier : List Report) :
    sectionsOf program earlier =
      { sectionsOf program [] with reports := earlier ++ (sectionsOf program []).reports } :=
  Sections.foldl_earlier (scopeOf program) earlier (whenBlocks program) (.first program [])

theorem accepted_describes (complete : program.Complete)
    (accepted : Compile.program program earlier = .ok ⟨some compiled, reports⟩) :
    ∃ list env, program.Describes list env := by
  obtain ⟨list, -, -, listed, -, quiet, -⟩ := accepted_parts accepted
  rw [sectionsOf_earlier, quiet_append] at quiet
  exact ⟨list, (sections_quiet_iff complete).mp ⟨listed, quiet.2⟩⟩

/-- A program is accepted if nothing was wrong before and it is well formed. -/
theorem accepted_iff (complete : program.Complete) (named : ∀ d ∈ program, d.Named) :
    (∃ compiled reports, Compile.program program earlier = .ok ⟨some compiled, reports⟩) ↔
      Quiet earlier ∧ program.WellFormed := by
  constructor
  · rintro ⟨compiled, reports, accepted⟩
    obtain ⟨-, -, -, -, -, quiet, -⟩ := accepted_parts accepted
    exact ⟨(preamble_quiet quiet).1, accepted_describes complete accepted⟩
  · rintro ⟨before, list, described⟩
    obtain ⟨listed, quiet⟩ := (sections_quiet_iff complete).mpr described
    have still : Quiet (sectionsOf program earlier).reports := by
      rw [sectionsOf_earlier]
      exact quiet_append.mpr ⟨before, quiet⟩
    obtain ⟨p, graph, finished⟩ := finish_quiet named listed still
    have compiles : Compile.program program earlier =
        finish program earlier (Declared.ofProgram program) list := by
      simp only [Compile.program, listed]
    exact ⟨p, _, compiles.trans finished⟩

theorem accepted_symbols
    (accepted : Compile.program program earlier = .ok ⟨some compiled, reports⟩) :
    compiled.symbols =
      (Declared.ofProgram program).symbols.useAll (sectionsOf program []).used := by
  obtain ⟨list, graph, builder, listed, built, quiet, -⟩ := accepted_parts accepted
  simp only [Compile.program, listed, finish_eq, built, quiet_iff.mp quiet, Bool.false_eq_true,
    if_false] at accepted
  rw [sectionsOf_earlier] at accepted
  cases assembled : Program.assemble (sectionsOf program []).code
    ((Declared.ofProgram program).symbols.useAll (sectionsOf program []).used) (some graph) with
  | error e => simp [assembled, Except.map] at accepted
  | ok p =>
    simp only [assembled, Except.map, Except.ok.injEq, Compiled.mk.injEq, Option.some.injEq]
      at accepted
    rw [← accepted.1]
    exact (assemble_parts assembled).2.1

/-- The symbols of an accepted program are the constants and variables it describes. -/
theorem accepted_shows {list : StateList} {env : Environment} (complete : program.Complete)
    (describes : program.Describes list env)
    (accepted : Compile.program program earlier = .ok ⟨some compiled, reports⟩) :
    compiled.symbols.Shows env := by
  have admits : Source.Admits [] [] .empty program env :=
    ⟨by simp [describes.only], by simpa [describes.only] using describes.several,
      describes.distinct, describes.initializes⟩
  rw [accepted_symbols accepted]
  exact (ofProgram_tracks complete admits).shows.useAll _

end Compile
end Statecraft
