import Statecraft.Proofs.Sections

/-! Compiled programs do what the source means. The code of a program gets from the
when-block of one state to that of the next as the source does in rounds, so the
machine and the source make the same stores and moves and exit together. On the way
no step faults, and every statement starts with an empty stack. -/
namespace Statecraft

open Source (Progress Execution)

namespace Source.Program

variable {p : Program} {name : String}

theorem body?_some {body : Block} (found : p.body? name = some body) :
    ∃ b ∈ Compile.whenBlocks p, b.state.text = name ∧ b.body = body ∧ .whenBlock b ∈ p := by
  obtain ⟨d, member, found⟩ := List.exists_of_findSome?_eq_some found
  cases d with
  | whenBlock b =>
    simp only [Option.ite_none_right_eq_some, Option.some.injEq] at found
    exact ⟨b, List.mem_filterMap.mpr ⟨_, member, rfl⟩, found.1, found.2, member⟩
  | states | declaration => contradiction

theorem body?_none (missing : p.body? name = none) (b : WhenBlock)
    (member : b ∈ Compile.whenBlocks p) : b.state.text ≠ name := by
  obtain ⟨d, here, same⟩ := List.mem_filterMap.mp member
  have found := List.findSome?_eq_none_iff.mp missing d here
  cases d with
  | whenBlock other =>
    cases same
    intro equal
    simp [equal] at found
  | states | declaration => contradiction

end Source.Program

namespace Compile

/-- How an accepted program is laid out: it gets from its start to the first state,
and the section of every when-block stands in it. -/
structure Layout (program : Source.Program) (p : Program) (graph : Graph) (effects : List Effect)
    (store : Store) : Prop where
  holds : (scopeOf program).Holds p graph
  initial : program.initialState? = some graph.initial.name
  declared : graph.initial.name ∈ (scopeOf program).states
  stored : Source.Declaration.storeAll .empty program.declarations = some (effects, store)
  fits : store.Fits (scopeOf program).symbols
  begins : Arrives p (scopeOf program) ⟨0, [], .empty, graph.initial.name⟩ effects store
    graph.initial.name
  sections : ∀ b ∈ whenBlocks program, b.state.text ∈ (scopeOf program).withBlock ∧
    ∃ counter ip, p.Segment ip (sectionCode (scopeOf program) counter b) ∧
      (block (scopeOf program) counter b.body).Placed p (scopeOf program) graph (ip + 2)
        b.state.text

variable {program : Source.Program} {earlier reports : List Report} {p : Program} {graph : Graph}
  {effects : List Effect} {store : Store}

theorem initial_arrives {scope : Scope} {n ip : Nat} {s : Situation} {name : String}
    (holds : scope.Holds p graph) (leads : p.Leads s n effects ⟨ip, [], store, name⟩)
    (segment : p.Segment ip (entry (some name) scope.withBlock)) :
    Arrives p scope s effects store name := by
  rw [← List.append_nil effects]
  by_cases member : name ∈ scope.withBlock
  · obtain ⟨i, label⟩ := holds.sections name member
    simp only [entry, member, if_true] at segment
    exact .inl ⟨member, _, i, label, leads.trans (Program.leads_jump segment.head label)⟩
  · simp only [entry, member, if_false] at segment
    exact .inr ⟨member, _, leads.exits (Program.exits_exit segment.head)⟩

theorem layout (complete : program.Complete)
    (accepted : Compile.program program earlier = .ok ⟨some p, reports⟩) :
    ∃ graph effects store, Layout program p graph effects store := by
  obtain ⟨list, graph, builder, listed, built, quiet, code, walks, -⟩ := accepted_parts accepted
  have declaredQuiet := (preamble_quiet quiet).2
  obtain ⟨-, initial, several, -, fresh⟩ :=
    Declared.foldl_states program rfl rfl declaredQuiet listed
  obtain ⟨first, effects, store, grown, stored, typed, fits, leads⟩ :=
    Declared.foldl_leads program Declared.empty_typed.1 Declared.empty_typed.2 complete
      declaredQuiet
  obtain ⟨houses, opened, shorter⟩ := sections_housed quiet fresh
  obtain ⟨states, moves⟩ := build_parts built
  have names : graph.states.map State.name = (scopeOf program).states := by
    rw [states, opened.states]
  have head : (scopeOf program).states.head? = some graph.initial.name := by
    rw [← names]
    rfl
  have within (b : Source.WhenBlock) (member : b ∈ whenBlocks program) :
      b.state.text ∈ (scopeOf program).withBlock :=
    List.mem_filter.mpr ⟨List.mem_map_of_mem member, decide_eq_true (houses b member).1⟩
  have placed (b : Source.WhenBlock) (member : b ∈ whenBlocks program) :
      ∃ counter ip, p.Segment ip (sectionCode (scopeOf program) counter b) ∧
        (block (scopeOf program) counter b.body).Placed p (scopeOf program) graph (ip + 2)
          b.state.text := by
    obtain ⟨-, counter, ⟨before, after, parts⟩, quiet, recorded⟩ := houses b member
    have segment := Program.Segment.of_instructions (code.trans parts)
    refine ⟨counter, before.length, segment, segment.tail.tail.left, quiet, ?_⟩
    intro target member known
    simpa [Graph.canMove, moves] using recorded target member known
  have holds : (scopeOf program).Holds p graph := by
    refine ⟨walks, typed, ?_, ?_⟩
    · intro name member
      rw [← names, List.mem_map] at member
      obtain ⟨s, member, rfl⟩ := member
      exact Option.isSome_iff_exists.mp (List.find?_isSome.mpr ⟨s, member, by simp⟩)
    · intro name member
      obtain ⟨b, here, rfl⟩ := List.mem_map.mp (List.mem_filter.mp member).1
      obtain ⟨counter, ip, segment, -⟩ := placed b here
      exact ⟨ip, segment.head⟩
  refine ⟨graph, effects, store, holds, ?_, ?_, stored, fits, ?_, fun b member =>
    ⟨within b member, placed b member⟩⟩
  · rw [← initial, ← head]
    rfl
  · exact List.mem_of_mem_head? head
  · have start : p.Segment 0 (preamble program) := by
      obtain ⟨after, parts⟩ := shorter
      exact Program.Segment.of_instructions (a := []) (code.trans parts.symm)
    have begun : (Declared.ofProgram program).code = first := grown
    simp only [preamble, begun, head] at start
    obtain ⟨n, leads⟩ := leads p 0 graph.initial.name start.left
    exact initial_arrives holds leads start.right

/-- The machine got as far as the source after some rounds: it stands at the section
of the current state, after at least as many steps, or it exited. A source in a state
without a when-block exits in the next round, its machine has done so already. -/
inductive Meets (program : Source.Program) (p : Program) (k : Nat) (r : Progress) : Prop where
  | running {n i : Nat} {last : Machine} (enough : k ≤ n)
      (runs : (Machine.start p).Runs n r.effects last)
      (label : p.code[i]? = some (.label r.state)) (shows : last.Shows p ⟨i, [], r.store, r.state⟩)
      (within : r.state ∈ (scopeOf program).withBlock)
      (fits : r.store.Fits (scopeOf program).symbols) (going : r.exit = none)
  | exited {n : Nat} {last : Machine} {reason : ExitReason}
      (runs : (Machine.start p).Runs n r.effects last)
      (exited : Program.Exited last reason r.store r.state)
      (same : r.exit = some reason ∨
        r.exit = none ∧ r.state ∉ (scopeOf program).withBlock ∧ reason = .finalStateReached)

theorem Arrives.meets {n k : Nat} {m : Machine} {s : Situation} {first second : List Effect}
    {target : String} (runs : (Machine.start p).Runs n first m) (shows : m.Shows p s)
    (enough : k ≤ n) (fits : store.Fits (scopeOf program).symbols)
    (arrives : Arrives p (scopeOf program) s second store target) :
    Meets program p k ⟨first ++ second, store, target, none⟩ := by
  rcases arrives with ⟨within, more, i, label, leads⟩ | ⟨apart, more, exits⟩
  · obtain ⟨last, runs', shows⟩ := leads m shows
    exact .running (Nat.le_trans enough (Nat.le_add_right n more)) (runs.trans runs') label shows
      within fits rfl
  · obtain ⟨last, runs', exited⟩ := exits m shows
    exact .exited (runs.trans runs') exited (.inr ⟨rfl, apart, rfl⟩)

/-- A new machine is at the first instruction, in the initial state. -/
theorem start_shows (walks : p.graph = some graph) :
    (Machine.start p).Shows p ⟨0, [], .empty, graph.initial.name⟩ := by
  refine ⟨rfl, rfl, rfl, rfl, rfl, .start graph, ?_, walks, rfl⟩
  simp [Machine.start, walks]

theorem start_meets (layout : Layout program p graph effects store) :
    ∃ r, program.run? 0 = some r ∧ Meets program p 0 r := by
  refine ⟨⟨effects, store, graph.initial.name, none⟩, ?_, ?_⟩
  · simp [Source.Program.run?, Source.Program.start?, layout.stored, layout.initial]
  · exact Arrives.meets (.refl _) (start_shows layout.holds.walks) (Nat.zero_le 0) layout.fits
      layout.begins

/-- A state without a section has no when-block. -/
theorem body?_eq_none (layout : Layout program p graph effects store) {state : String}
    (apart : state ∉ (scopeOf program).withBlock) : program.body? state = none := by
  cases found : program.body? state with
  | none => rfl
  | some body =>
    obtain ⟨b, member, name, -, -⟩ := Source.Program.body?_some found
    exact absurd (name ▸ (layout.sections b member).1) apart

/-- One round of the source is a run of the machine. -/
theorem round_meets (complete : program.Complete) (layout : Layout program p graph effects store)
    {k : Nat} {r : Progress} (meets : Meets program p k r) :
    ∃ next, program.round? r = some next ∧ Meets program p (k + 1) next := by
  cases meets with
  | exited runs exited same =>
    rcases same with same | ⟨going, apart, rfl⟩
    · exact ⟨r, by simp [Source.Program.round?, same], .exited runs exited (.inl same)⟩
    · refine ⟨{ r with exit := some .finalStateReached }, ?_, .exited runs exited (.inl rfl)⟩
      simp [Source.Program.round?, going, body?_eq_none layout apart]
  | @running n i last enough runs label shows within fits going =>
    obtain ⟨body, found⟩ : ∃ body, program.body? r.state = some body := by
      cases found : program.body? r.state with
      | some body => exact ⟨body, rfl⟩
      | none =>
        obtain ⟨b, member, name⟩ := List.mem_map.mp (List.mem_filter.mp within).1
        exact absurd name (Source.Program.body?_none found b member)
    obtain ⟨b, member, name, rfl, defined⟩ := Source.Program.body?_some found
    obtain ⟨-, counter, ip, segment, placed⟩ := layout.sections b member
    rw [name] at placed
    -- There is one label of the state, so the machine stands at this very section.
    obtain rfl : i = ip := by
      have here := segment.head
      rw [name] at here
      exact Option.some.inj
        ((Program.resolve?_of_label label).symm.trans (Program.resolve?_of_label here))
    have entered : p.Leads ⟨i, [], r.store, r.state⟩ 2 [] ⟨i + 2, [], r.store, r.state⟩ :=
      (Program.leads_label segment.head).trans (Program.leads_location segment.tail.head)
    obtain ⟨fits', carries⟩ :=
      block_carries layout.holds b.body counter fits (complete _ defined) placed
    obtain ⟨inside, more, shows⟩ := entered last shows
    have runs := runs.trans more
    rw [List.append_nil] at runs
    cases ends : (b.body.execute r.store).ending with
    | finished =>
      simp only [ends] at carries
      obtain ⟨m, leads⟩ := carries
      have back := segment.tail.tail.right.head
      have again := leads.trans (Program.leads_jump back segment.head)
      rw [List.append_nil] at again
      obtain ⟨last, more, shows⟩ := again inside shows
      refine ⟨⟨r.effects ++ (b.body.execute r.store).effects, (b.body.execute r.store).store,
        r.state, none⟩, ?_, .running ?_ (runs.trans more) label shows within fits' rfl⟩
      · simp [Source.Program.round?, going, found, ends]
      · omega
    | moved target =>
      simp only [ends] at carries
      refine ⟨_, ?_, carries.2.meets runs shows (k := k + 1) (by omega) fits'⟩
      simp [Source.Program.round?, going, found, ends]
    | failed =>
      simp only [ends] at carries
      obtain ⟨m, exits⟩ := carries
      obtain ⟨last, more, exited⟩ := exits inside shows
      refine ⟨⟨r.effects ++ (b.body.execute r.store).effects, (b.body.execute r.store).store,
        r.state, some .assertionFailed⟩, ?_, .exited (runs.trans more) exited (.inl rfl)⟩
      simp [Source.Program.round?, going, found, ends]
    | undefined =>
      simp only [ends] at carries

/-- The machine meets the source after every number of rounds. -/
theorem run_meets (complete : program.Complete) (layout : Layout program p graph effects store)
    (k : Nat) : ∃ r, program.run? k = some r ∧ Meets program p k r := by
  induction k with
  | zero => exact start_meets layout
  | succ k ih =>
    obtain ⟨r, ran, meets⟩ := ih
    obtain ⟨next, stepped, meets⟩ := round_meets complete layout meets
    exact ⟨next, by simp [Source.Program.run?, ran, stepped], meets⟩

/-- At every point of a run either the next step is steady or the program exited. -/
theorem steady_or_exited (complete : program.Complete)
    (layout : Layout program p graph effects store) (n : Nat) :
    ((Machine.start p).after n).Steady ∨
      ((Machine.start p).after n).exit.isSome = true ∧
        ((Machine.start p).after n).fault = none := by
  obtain ⟨r, -, meets⟩ := run_meets complete layout (n + 1)
  cases meets with
  | running enough runs => exact .inl (runs.steady n enough)
  | @exited m last reason runs exited =>
    rcases Nat.lt_or_ge n m with early | late
    · exact .inl (runs.steady n early)
    · have stopped := Machine.stopped_of_exit (runs.reached.symm ▸ exited.exit)
      rw [Machine.after_of_stopped_le stopped late, runs.reached]
      exact .inr ⟨by simp [exited.exit], exited.sound⟩

/-- The machine is never ahead of the source by a store or a move. -/
theorem changes_reflected (complete : program.Complete)
    (layout : Layout program p graph effects store) (n : Nat) :
    ∃ r, program.run? n = some r ∧ (Machine.start p).changes n <+: r.effects := by
  obtain ⟨r, ran, meets⟩ := run_meets complete layout n
  refine ⟨r, ran, ?_⟩
  cases meets with
  | running enough runs => exact runs.changed ▸ Machine.changes_prefix _ enough
  | @exited m last reason runs exited =>
    rcases Nat.le_total n m with early | late
    · exact runs.changed ▸ Machine.changes_prefix _ early
    · have stopped := Machine.stopped_of_exit (runs.reached.symm ▸ exited.exit)
      have same : (Machine.start p).changes n = r.effects :=
        (Machine.changes_of_stopped_le stopped late).trans runs.changed
      exact same ▸ List.prefix_refl _

/-- Where the machine exited, the source exits. -/
theorem exit_reflected (complete : program.Complete)
    (layout : Layout program p graph effects store) {n : Nat} {reason : ExitReason}
    (exited : ((Machine.start p).after n).exit = some reason) :
    ∃ k, program.run? k = some ⟨(Machine.start p).changes n, ((Machine.start p).after n).store,
      ((Machine.start p).after n).state, some reason⟩ := by
  have stopped := Machine.stopped_of_exit exited
  obtain ⟨r, ran, meets⟩ := run_meets complete layout (n + 1)
  cases meets with
  | running enough runs => exact absurd (runs.steady n enough).running (by simp [stopped])
  | @exited m last reason' runs exited' same =>
    have stopped' := Machine.stopped_of_exit (runs.reached.symm ▸ exited'.exit)
    obtain ⟨here, there⟩ := Machine.stopped_unique stopped stopped'
    rw [runs.reached] at here
    rw [runs.changed] at there
    obtain rfl : reason = reason' := Option.some.inj (exited.symm.trans (here ▸ exited'.exit))
    obtain ⟨done, values, current, left⟩ := r
    obtain rfl : done = _ := there.symm
    obtain rfl : values = _ := exited'.store.symm.trans (congrArg Machine.store here.symm)
    obtain rfl : current = _ := exited'.state.symm.trans (congrArg Machine.state here.symm)
    rcases same with rfl | ⟨rfl, apart, rfl⟩
    · exact ⟨n + 1, ran⟩
    · -- The machine stopped with the move, the source does in the next round.
      refine ⟨n + 2, ?_⟩
      rw [Source.Program.run?, ran]
      simp [Source.Program.round?, body?_eq_none layout apart]

/-- Where the source exited, the machine exits. -/
theorem exit_reached (complete : program.Complete)
    (layout : Layout program p graph effects store) {k : Nat} {done : List Effect}
    {values : Store} {state : String} {reason : ExitReason}
    (ran : program.run? k = some ⟨done, values, state, some reason⟩) :
    ∃ n, ((Machine.start p).after n).exit = some reason ∧ (Machine.start p).changes n = done ∧
      ((Machine.start p).after n).store = values ∧ ((Machine.start p).after n).state = state := by
  obtain ⟨r, ran', meets⟩ := run_meets complete layout k
  obtain rfl := Option.some.inj (ran'.symm.trans ran)
  cases meets with
  | running _ _ _ _ _ _ going => contradiction
  | @exited m last reason' runs exited same =>
    rcases same with same | ⟨going, -⟩
    · cases same
      exact ⟨m, runs.reached.symm ▸ exited.exit, runs.changed,
        runs.reached.symm ▸ exited.store, runs.reached.symm ▸ exited.state⟩
    · contradiction

end Compile

/-- Machine and source make the same stores and moves, in the same order, and one
exits if and only if the other does: for the same reason, after the same stores and
moves, with the same values and in the same state. The source never gets to an
expression without a value. -/
structure Agrees (m : Machine) (source : Source.Program) : Prop where
  defined : ∀ k, (source.run? k).isSome = true
  reached : ∀ k r, source.run? k = some r → ∃ n, m.changes n = r.effects
  reflected : ∀ n, ∃ k r, source.run? k = some r ∧ m.changes n <+: r.effects
  exits_iff : ∀ reason effects store state,
    (∃ n, (m.after n).exit = some reason ∧ m.changes n = effects ∧ (m.after n).store = store ∧
        (m.after n).state = state) ↔
      ∃ k r, source.run? k = some r ∧ r = ⟨effects, store, state, some reason⟩

/-- Two states, the first of which negates a variable and moves to the second. -/
def Source.Program.negation : Source.Program :=
  let name (text : String) : Source.Name := ⟨text, .absent⟩
  [.states ⟨.absent, [⟨name "A", []⟩, ⟨name "B", []⟩], .absent⟩,
    .declaration ⟨.assignable, .absent, name "x", .boolean true .absent⟩,
    .whenBlock ⟨.absent, name "A",
      .braces .absent
        [.assignment (name "x") (.unary .not .absent (.ref (name "x"))),
          .transition .absent (name "B")]
        .absent⟩]

theorem Source.Program.negation_complete : negation.Complete := by
  intro d member
  simp only [negation, List.mem_cons, List.not_mem_nil, or_false] at member
  rcases member with rfl | rfl | rfl <;>
    simp [Definition.Complete, Expr.Complete, Block.Complete, Action.AllComplete, Action.Complete]

/-- A compiled program does what its source means. -/
theorem compiled_agrees {source : Source.Program} {compiled : Program} {reports : List Report}
    (complete : source.Complete)
    (accepted : Compile.program source [] = .ok ⟨some compiled, reports⟩) :
    Agrees (Machine.start compiled) source := by
  obtain ⟨graph, effects, store, layout⟩ := Compile.layout complete accepted
  have meets := Compile.run_meets complete layout
  refine ⟨?_, ?_, ?_, ?_⟩
  · intro k
    obtain ⟨r, ran, -⟩ := meets k
    simp [ran]
  · intro k r ran
    obtain ⟨r', ran', meets⟩ := meets k
    obtain rfl : r' = r := Option.some.inj (ran'.symm.trans ran)
    cases meets with
    | running enough runs => exact ⟨_, runs.changed⟩
    | exited runs => exact ⟨_, runs.changed⟩
  · intro n
    exact ⟨n, Compile.changes_reflected complete layout n⟩
  · intro reason effects store state
    constructor
    · rintro ⟨n, exited, rfl, rfl, rfl⟩
      obtain ⟨k, ran⟩ := Compile.exit_reflected complete layout exited
      exact ⟨k, _, ran, rfl⟩
    · rintro ⟨k, r, ran, rfl⟩
      exact Compile.exit_reached complete layout ran

/-- The compiled negation exits as its source does, with the variable negated. -/
theorem compiled_agrees_negation :
    ∃ compiled reports,
      Compile.program Source.Program.negation [] = .ok ⟨some compiled, reports⟩ ∧
        Agrees (Machine.start compiled) .negation ∧
        ∃ n, ((Machine.start compiled).after n).exit = some .finalStateReached ∧
          (Machine.start compiled).changes n =
            [.stored "x" (.boolean true), .stored "x" (.boolean false), .moved "B"] := by
  refine ⟨_, _, rfl, compiled_agrees Source.Program.negation_complete rfl, ?_⟩
  have agrees := compiled_agrees Source.Program.negation_complete rfl
  obtain ⟨n, exited, changed, -⟩ := (agrees.exits_iff _ _ _ _).mpr ⟨2, _, rfl, rfl⟩
  exact ⟨n, exited, changed⟩

/-- No step of a compiled program faults, and every statement starts with an empty
stack. -/
theorem compiled_sound {source : Source.Program} {compiled : Program} {reports : List Report}
    (complete : source.Complete)
    (accepted : Compile.program source [] = .ok ⟨some compiled, reports⟩) (n : Nat) :
    ((Machine.start compiled).after n).fault = none ∧
      (((Machine.start compiled).after n).stopped = false →
        ((Machine.start compiled).after n).atStatement = true →
          ((Machine.start compiled).after n).stack = []) := by
  obtain ⟨graph, effects, store, layout⟩ := Compile.layout complete accepted
  rcases Compile.steady_or_exited complete layout n with steady | ⟨exited, sound⟩
  · exact ⟨(Machine.stopped_eq_false.mp steady.running).2, fun _ => steady.clear⟩
  · refine ⟨sound, fun running => ?_⟩
    rw [(Machine.stopped_eq_false.mp running).1] at exited
    contradiction

/-- No step of the compiled negation faults. -/
theorem compiled_sound_negation :
    ∃ compiled reports,
      Compile.program Source.Program.negation [] = .ok ⟨some compiled, reports⟩ ∧
        ∀ n, ((Machine.start compiled).after n).fault = none :=
  ⟨_, _, rfl, fun n => (compiled_sound Source.Program.negation_complete rfl n).1⟩

end Statecraft
