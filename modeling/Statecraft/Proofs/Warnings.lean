import Statecraft.Proofs.StrayReports
import Statecraft.Proofs.GraphMoves
import Statecraft.Proofs.Reachability

/-! Warnings about states. Reading a source reports errors only, and checking its definitions
and when-blocks reports nothing about states that cannot be reached. So every such warning
names a state that the search of the graph did not find, and no run ever gets there. -/
namespace Statecraft

/-- No report is about a state that cannot be reached. -/
def Unwarned (reports : List Report) : Prop := ∀ r ∈ reports, r.kind ≠ .unreachableState

@[simp] theorem unwarned_nil : Unwarned [] := by simp [Unwarned]

@[simp] theorem unwarned_append {a b : List Report} :
    Unwarned (a ++ b) ↔ Unwarned a ∧ Unwarned b := by
  simp only [Unwarned, List.mem_append, or_imp, forall_and]

@[simp] theorem unwarned_cons {r : Report} {rest : List Report} :
    Unwarned (r :: rest) ↔ r.kind ≠ .unreachableState ∧ Unwarned rest := by
  simp only [Unwarned, List.mem_cons, forall_eq_or_imp]

/-- What is recorded on the way has the kinds of the changes, besides stray characters. -/
theorem Context.Becomes.kinds {Kinds : ReportKind → Prop} {ctx next : Context}
    (becomes : ctx.Becomes Kinds next) (stray : Kinds .invalidToken)
    (before : ∀ r ∈ ctx.reports, Kinds r.kind) : ∀ r ∈ next.reports, Kinds r.kind := by
  induction becomes with
  | refl => exact before
  | tail _ alters ih =>
    cases alters with
    | advance moved =>
      obtain ⟨found, -, rfl⟩ := Option.map_eq_some_iff.mp moved
      simp only [Context.take, List.mem_append, List.mem_map]
      rintro r (old | ⟨s, -, rfl⟩)
      · exact ih r old
      · exact stray
    | record known =>
      simp only [Context.record, List.mem_append, List.mem_singleton]
      rintro r (old | rfl)
      · exact ih r old
      · exact known
    | bookmark | rewind | discard => exact ih

namespace Source

namespace Grammar

def Grave (kind : ReportKind) : Prop := kind.severity = .error

theorem expression_grave : expression.Blames Grave ∧ expression.Records Grave := by
  simp [expression, conjunction, negation, relation, term, factor, sign, level, signed, primary,
    parenthesized, literal, Parser.anyToken, Parser.oneOf, Parser.optional, Parser.recoverAs,
    Parser.andThen, Parser.as, Parser.map, Parser.Blames, Parser.Records, Grave,
    ReportKind.severity]

theorem block_grave : block.Blames Grave ∧ block.Records Grave := by
  simp [block, recoveredAction, resyncAction, action, transition, conditional, assertion,
    assignment, assigned, condition, statementValue, terminator, name, Parser.oneOf,
    Parser.optional, Parser.followedBy, Parser.andThen, Parser.as, Parser.map, Parser.Blames,
    Parser.Records, Grave, ReportKind.severity]

theorem program_grave : program.Blames Grave ∧ program.Records Grave := by
  simp [program, recoveredDefinition, resyncDefinition, definition, stateList, stateEntry,
    annotated, declaration, whenBlock, assigned, statementValue, terminator, name,
    Parser.anyToken, Parser.oneOf, Parser.between, Parser.followedBy, Parser.andThen, Parser.as,
    Parser.map, Parser.Blames, Parser.Records, Grave, ReportKind.severity]

theorem rules_grave {γ : Type} (rule : Rule γ) :
    (rules rule).Blames Grave ∧ (rules rule).Records Grave := by
  cases rule with
  | expression => exact expression_grave
  | block => exact block_grave

end Grammar

/-- Everything that is reported while a program is read is an error. -/
theorem parse_grave (source : String) :
    ∀ r ∈ (parse source).reports, Grammar.Grave r.kind := by
  let fuel := Grammar.fuel (Lexeme.scan source)
  have called {γ : Type} (rule : Rule γ) :=
    Statecraft.Grammar.runRule_orderly Grammar.rules_grave fuel fuel rule
  have begun : ∀ r ∈ (Context.start (Lexeme.scan source)).reports, Grammar.Grave r.kind := by
    simp [Context.start, Context.strayReport, Report.invalidToken, Grammar.Grave,
      ReportKind.severity]
  have course {outcome : Outcome Program} {after : Context}
      (ran : Grammar.rules.run fuel Grammar.program (.start (Lexeme.scan source)) =
        (outcome, after)) : ∀ r ∈ after.reports, Grammar.Grave r.kind :=
    Context.Becomes.kinds
      (Parser.runWith_orderly called fuel Grammar.program Grammar.program_grave.2 ran) rfl begun
  simp only [parse, Statecraft.Grammar.parse]
  split
  · rename_i ran
    split
    · exact course ran
    · simp only [Context.drain, Context.take, Context.record, List.mem_append, List.mem_map,
        List.mem_singleton]
      rintro r ((old | rfl) | ⟨s, -, rfl⟩)
      · exact course ran r old
      · rfl
      · rfl
  · rename_i failed
    simp only [Context.record, List.mem_append, List.mem_singleton]
    rintro r (old | rfl)
    · exact course failed r old
    · exact Parser.runWith_fails (fun rule => (called rule).1) fuel Grammar.program
        Grammar.program_grave.1 failed
  · rename_i ran
    exact course ran

end Source

/-- A state is added only once. -/
theorem Graph.Builder.withState_distinct {b : Builder} {s : State}
    (distinct : (b.states.map State.name).Nodup) :
    ((b.withState s).states.map State.name).Nodup := by
  simp only [withState, addState]
  split
  · exact distinct
  · split
    · exact distinct
    · rename_i new
      rw [hasState_iff] at new
      change ((b.states ++ [s]).map State.name).Nodup
      rw [List.map_append, List.nodup_append]
      refine ⟨distinct, by simp, ?_⟩
      rintro name old _ here rfl
      exact new (List.mem_singleton.mp here ▸ old)

namespace Compile

open Source (Action Block Expr Name WhenBlock)

variable {scope : Scope}

theorem expr_unwarned (symbols : Symbols) (e : Expr) : Unwarned (expr symbols e).reports := by
  induction e with
  | number | boolean | string | invalid => exact unwarned_nil
  | ref name =>
    simp only [expr]
    split <;> simp [undefinedVariable]
  | unary op opSpan operand ih =>
    simp only [expr]
    split
    · exact ih
    · split
      · exact ih
      · simp [ih, undefinedOperator]
  | binary op opSpan left right ihl ihr =>
    simp only [expr]
    split
    · simp [ihl, ihr]
    · split <;> simp [ihl, ihr, undefinedOperator]

theorem condition_unwarned (symbols : Symbols) (test : Expr) :
    Unwarned (condition symbols test).reports := by
  simp only [condition]
  split
  · simp [expr_unwarned, mismatch]
  · exact expr_unwarned symbols test

theorem transition_unwarned (counter : Nat) (a : Action) (target : Name) :
    Unwarned (transition scope counter a target).reports := by
  simp only [transition]
  split <;> simp

theorem assignment_unwarned (counter : Nat) (a : Action) (name : Name) (value : Expr) :
    Unwarned (assignment scope counter a name value).reports := by
  have target : Unwarned (assigned scope.symbols name).2 := by
    simp only [assigned]
    split
    · simp [undefinedVariable]
    · split <;> simp
  simp only [assignment, unwarned_append]
  refine ⟨⟨target, expr_unwarned scope.symbols value⟩, ?_⟩
  split <;> simp [mismatch]

mutual

theorem action_unwarned (a : Action) (counter : Nat) :
    Unwarned (action scope counter a).reports := by
  cases a with
  | transition keyword target => exact transition_unwarned counter _ target
  | assignment name value => exact assignment_unwarned counter _ name value
  | assertion keyword test => exact condition_unwarned scope.symbols test
  | nested body => exact block_unwarned body counter
  | conditional keyword test body otherwise =>
    have tested := condition_unwarned scope.symbols test
    have first := block_unwarned body (counter + 2)
    cases otherwise with
    | none =>
      simp only [action, conditional, unwarned_append]
      exact ⟨⟨tested, first⟩, unwarned_nil⟩
    | some other =>
      simp only [action, conditional, unwarned_append]
      exact ⟨⟨tested, first⟩, block_unwarned other _⟩

theorem block_unwarned (b : Block) (counter : Nat) :
    Unwarned (block scope counter b).reports := by
  obtain ⟨_, body, _⟩ := b
  exact actions_unwarned body counter

theorem actions_unwarned (as : List Action) (counter : Nat) :
    Unwarned (actions scope counter as).reports := by
  cases as with
  | nil => exact unwarned_nil
  | cons a rest =>
    have first := action_unwarned a counter
    simp only [actions]
    split
    · split
      · exact first
      · simp [first, unreachable]
    · exact unwarned_append.mpr ⟨first, actions_unwarned rest _⟩

end

namespace Declared

open Source (Definition StateEntry)

theorem addStates_unwarned (keyword : Selection) (entries : List StateEntry)
    (repeated : List String) {d : Declared} (before : Unwarned d.reports) :
    Unwarned (addStates keyword entries repeated d).reports := by
  induction entries generalizing repeated d with
  | nil => exact before
  | cons s rest ih =>
    simp only [addStates]
    split
    · split
      · exact ih _ before
      · exact ih _ (by simp [report, before])
    · split
      · exact ih _ (by simp [report, before])
      · exact ih _ before

theorem foldl_unwarned (xs : List Definition) {d : Declared} (before : Unwarned d.reports) :
    Unwarned (xs.foldl add d).reports := by
  induction xs generalizing d with
  | nil => exact before
  | cons x rest ih =>
    apply ih
    cases x with
    | whenBlock b => exact before
    | declaration x =>
      simp only [add, declaration]
      split
      · simp [report, before]
      · simp [before, expr_unwarned]
    | states list =>
      simp only [add, states]
      split
      · simp [report, before]
      · have added : Unwarned
            (addStates list.keyword list.states [] { d with list := some list }).reports :=
          addStates_unwarned _ _ _ before
        split
        · simp [report, added]
        · exact added

theorem addStates_distinct (keyword : Selection) (entries : List StateEntry)
    (repeated : List String) {d : Declared} (distinct : (d.graph.states.map State.name).Nodup) :
    ((addStates keyword entries repeated d).graph.states.map State.name).Nodup := by
  induction entries generalizing repeated d with
  | nil => exact distinct
  | cons s rest ih =>
    simp only [addStates]
    split
    · split <;> exact ih _ distinct
    · split
      · exact ih _ distinct
      · exact ih _ (Graph.Builder.withState_distinct distinct)

theorem foldl_distinct (xs : List Definition) {d : Declared}
    (distinct : (d.graph.states.map State.name).Nodup) :
    ((xs.foldl add d).graph.states.map State.name).Nodup := by
  induction xs generalizing d with
  | nil => exact distinct
  | cons x rest ih =>
    apply ih
    cases x with
    | whenBlock b => exact distinct
    | declaration x =>
      simp only [add, declaration]
      split <;> exact distinct
    | states list =>
      simp only [add, states]
      split
      · exact distinct
      · split <;> exact addStates_distinct _ _ _ distinct

end Declared

theorem Sections.foldl_unwarned (blocks : List WhenBlock) {s : Sections}
    (before : Unwarned s.reports) : Unwarned (blocks.foldl (add scope) s).reports := by
  induction blocks generalizing s with
  | nil => exact before
  | cons b rest ih =>
    apply ih
    simp only [add]
    split
    · simp [before]
    · split
      · simp [before]
      · exact unwarned_append.mpr ⟨before, block_unwarned b.body s.counter⟩

variable {program : Source.Program} {earlier reports : List Report} {p : Program}

/-- The states that warnings name are the ones that the search did not find. -/
theorem accepted_warned (before : Unwarned earlier)
    (accepted : Compile.program program earlier = .ok ⟨some p, reports⟩) :
    ∃ graph, p.graph = some graph ∧ graph.names.Nodup ∧
      ∀ r ∈ reports, r.kind = .unreachableState → r.info ∈ graph.unreachable := by
  obtain ⟨list, graph, builder, -, built, -, -, walks, rfl⟩ := accepted_parts accepted
  refine ⟨graph, walks, ?_, ?_⟩
  · rw [Graph.names, (build_parts built).1, sectionsOf, Sections.foldl_graph_states]
    exact Declared.foldl_distinct program .nil
  · intro r member kind
    have declared : Unwarned (Declared.ofProgram program).reports :=
      Declared.foldl_unwarned program unwarned_nil
    have checked : Unwarned (sectionsOf program earlier).reports :=
      Sections.foldl_unwarned _ (unwarned_append.mpr ⟨before, declared⟩)
    rcases List.mem_append.mp member with early | late
    · exact absurd kind (checked r early)
    · obtain ⟨name, missed, rfl⟩ := List.mem_map.mp late
      exact missed

/-- No machine on the graph of a compiled program is ever in a state that a warning names. -/
theorem warned_avoided {q : Program} {m : Machine} {r : Report} (before : Unwarned earlier)
    (accepted : Compile.program program earlier = .ok ⟨some p, reports⟩)
    (same : q.graph = p.graph) (member : r ∈ reports) (kind : r.kind = .unreachableState)
    (reached : m.Reached q) : m.state ≠ r.info := by
  obtain ⟨graph, walks, distinct, missed⟩ := accepted_warned before accepted
  intro current
  apply Graph.not_reachable_of_unreachable distinct (missed r member kind)
  rw [← current]
  exact reached.state_reachable (same.trans walks)

end Compile

theorem Optimize.optimize_graph {passes : List Pass} {limit : Nat} {p : Program}
    {optimized : Optimized} (accepted : (optimize passes limit p).2 = .ok optimized) :
    optimized.program.graph = p.graph := by
  obtain ⟨code, improves, result, -⟩ := optimize_recode passes limit p
  rw [result optimized accepted]
  rfl

/-- A compilation keeps the reports and the graph of the program that was compiled first. -/
theorem compile_parts {source : String} {optimize : Bool} {c : Compilation} {p : Program}
    (compiled : compile source optimize = .ok c) (present : c.program = some p) :
    ∃ q, Compile.program (Source.parse source).value (Source.parse source).reports =
        .ok ⟨some q, c.reports⟩ ∧ p.graph = q.graph := by
  obtain ⟨⟨program, reports⟩, milestones, accepted, -, result⟩ := compile_checks source optimize
  rw [result, Compilation.check] at compiled
  cases program with
  | none =>
    cases compiled
    contradiction
  | some q =>
    refine ⟨q, ?_⟩
    dsimp only at compiled
    split at compiled
    · contradiction
    · simp only [Compilation.improve] at compiled
      split at compiled
      · cases compiled
        cases present
        exact ⟨accepted, rfl⟩
      · split at compiled
        · contradiction
        · rename_i better
          cases compiled
          cases present
          exact ⟨accepted, Optimize.optimize_graph better⟩

/-- A machine is always in a state that the search of its graph found. So it never gets to a
state that compiling warned of, whether its program is optimised or not. -/
theorem reached_avoids_warned :
    (∀ (p : Program) (graph : Graph), p.graph = some graph →
      ∀ m, Machine.Reached p m → m.state ∈ graph.reachable) ∧
    (∀ (source : Source.Program) (compiled : Program) (reports : List Report),
      Compile.program source [] = .ok ⟨some compiled, reports⟩ →
        ∀ r ∈ reports, r.kind = .unreachableState →
          (∀ m, Machine.Reached compiled m → m.state ≠ r.info) ∧
          ∀ passes limit optimized, (Optimize.optimize passes limit compiled).2 = .ok optimized →
            ∀ m, Machine.Reached optimized.program m → m.state ≠ r.info) ∧
    ∀ (source : String) (optimize : Bool) (c : Compilation) (p : Program),
      compile source optimize = .ok c → c.program = some p →
        ∀ r ∈ c.reports, r.kind = .unreachableState →
          ∀ m, Machine.Reached p m → m.state ≠ r.info := by
  refine ⟨?_, ?_, ?_⟩
  · intro p graph walks m reached
    exact reached.state_reachable walks
  · intro source compiled reports accepted r member kind
    constructor
    · intro m reached
      exact Compile.warned_avoided unwarned_nil accepted rfl member kind reached
    · intro passes limit optimized result m reached
      exact Compile.warned_avoided unwarned_nil accepted (Optimize.optimize_graph result) member
        kind reached
  · intro source optimize c p compiled present r member kind m reached
    obtain ⟨q, accepted, same⟩ := compile_parts compiled present
    have read : Unwarned (Source.parse source).reports := by
      intro other reported warns
      have grave := Source.parse_grave source other reported
      rw [warns] at grave
      contradiction
    exact Compile.warned_avoided read accepted same member kind reached

/-- Three states, the last of which no transition leads to. -/
def Source.stranded : String := "state\x7bA,B,C\x7dwhen A\x7bstate:=B;\x7d"

/-- The detour never gets to `C`, of which compiling it warns, optimised or not. The source with
the stranded state is read, compiled and optimised, and its machine does not get there either. -/
theorem reached_avoids_warned_stranded :
    (∃ compiled reports graph optimized,
      Compile.program Source.Program.detour [] = .ok ⟨some compiled, reports⟩ ∧
        compiled.graph = some graph ∧ ((Machine.start compiled).after 20).state = "B" ∧
        "B" ∈ graph.reachable ∧ (∀ m, Machine.Reached compiled m → m.state ≠ "C") ∧
        (Optimize.optimize Optimize.Pass.standard Optimize.standardLimit compiled).2 =
          .ok optimized ∧
        ∀ m, Machine.Reached optimized.program m → m.state ≠ "C") ∧
      ∃ c p, compile Source.stranded true = .ok c ∧ c.program = some p ∧
        ∀ m, Machine.Reached p m → m.state ≠ "C" := by
  obtain ⟨stays, compiled, read⟩ := reached_avoids_warned
  constructor
  · obtain ⟨p, reports, graph, optimized, accepted, walks, current, better, warned⟩ :
        ∃ p reports graph optimized,
          Compile.program Source.Program.detour [] = .ok ⟨some p, reports⟩ ∧
            p.graph = some graph ∧ ((Machine.start p).after 20).state = "B" ∧
            (Optimize.optimize Optimize.Pass.standard Optimize.standardLimit p).2 = .ok optimized ∧
            reports.any (fun r => r.kind = .unreachableState && r.info = "C") = true :=
      ⟨_, _, _, _, rfl, rfl, by decide +kernel, rfl, by decide +kernel⟩
    obtain ⟨r, member, warns⟩ := List.any_eq_true.mp warned
    simp only [Bool.and_eq_true, decide_eq_true_eq] at warns
    obtain ⟨kind, named⟩ := warns
    obtain ⟨first, second⟩ := compiled _ p reports accepted r member kind
    rw [named] at first second
    refine ⟨p, reports, graph, optimized, accepted, walks, current, ?_, first, better,
      second _ _ _ better⟩
    exact current ▸ stays p graph walks _ (.after p 20)
  · have warned : (match compile Source.stranded true with
        | .ok c => c.program.isSome &&
            c.reports.any fun r => r.kind = .unreachableState && r.info = "C"
        | .error _ => false) = true := by decide +kernel
    cases accepted : compile Source.stranded true with
    | error e =>
      rw [accepted] at warned
      contradiction
    | ok c =>
      simp only [accepted, Bool.and_eq_true, Option.isSome_iff_exists, List.any_eq_true,
        decide_eq_true_eq] at warned
      obtain ⟨⟨p, present⟩, r, member, kind, named⟩ := warned
      exact ⟨c, p, rfl, present, named ▸ read _ _ _ _ accepted present r member kind⟩

end Statecraft
