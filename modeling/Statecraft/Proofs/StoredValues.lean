import Statecraft.Proofs.Acceptance
import Statecraft.Proofs.Preservation
import Statecraft.Proofs.Reachability
import Statecraft.Proofs.CurrentSection

/-! What a machine holds. Its values are what the stores so far made of them, so those of a
compiled program have the declared types, all of them are there once the declarations were run
through, and a constant keeps its value. -/
namespace Statecraft

namespace Effect

variable {effects : List Effect} {store : Store} {name : String}

theorem foldl_changes (effects : List Effect) (store : Store) :
    (effects.filter isChange).foldl update store = effects.foldl update store := by
  induction effects generalizing store with
  | nil => rfl
  | cons e rest ih => cases e <;> exact ih _

theorem find?_foldl_of_not_mem (apart : name ∉ effects.filterMap target?) :
    (effects.foldl update store).find? name = store.find? name := by
  induction effects generalizing store with
  | nil => rfl
  | cons e rest ih =>
    cases e with
    | located | moved => exact ih apart
    | stored other v =>
      simp only [List.filterMap_cons, target?, List.mem_cons, not_or] at apart
      rw [List.foldl_cons, ih apart.2, update, Store.find?_insert, if_neg apart.1]

theorem isSome_find?_foldl (effects : List Effect) (found : (store.find? name).isSome = true) :
    ((effects.foldl update store).find? name).isSome = true := by
  induction effects generalizing store with
  | nil => exact found
  | cons e rest ih =>
    apply ih
    cases e with
    | located | moved => exact found
    | stored other v =>
      rw [update, Store.find?_insert]
      split
      · rfl
      · exact found

end Effect

namespace Machine

variable {m next : Machine} {x : Instruction} {p : Program} {name : String}

/-- The values change by what is stored. -/
theorem execute_store (executed : m.execute x = .ok next) :
    next.store = (m.effectsOf x).foldl Effect.update m.store := by
  obtain ⟨name, v, rest, rfl, operands, stored, -⟩ | ⟨state, rfl, moved⟩ | ⟨other, kept, -⟩ :=
    execute_cases executed
  · rw [stored, effectsOf, operands]
    rfl
  · exact (moveTo_follows moved).2
  · rw [kept]
    cases x with
    | store name => exact absurd rfl (other name)
    | push | load | unary | binary | jump | jumpIfNot | label | location | transition | exit => rfl

theorem stepped_store (m : Machine) :
    m.stepped.store = m.effects.foldl Effect.update m.store := by
  cases stopped : m.stopped with
  | true => simp [stepped_of_stopped stopped, effects, stopped]
  | false =>
    cases current : m.program.code[m.ip]? with
    | none => simp [stepped_of_end stopped current, effects, current]
    | some x =>
      cases executed : m.execute x with
      | error failure =>
        obtain ⟨rest, -, stepped⟩ := stepped_of_error stopped current executed
        simp [effects, stepped]
      | ok next =>
        have stored := execute_store executed
        rw [stepped_of_ok stopped current executed, Paired.effects_of_ok stopped current executed]
        exact stored

theorem after_store (m : Machine) (n : Nat) :
    (m.after n).store = (m.changes n).foldl Effect.update m.store := by
  rw [changes, Effect.foldl_changes]
  induction n generalizing m with
  | zero => rfl
  | succ n ih => rw [after, ih, trace, List.foldl_append, stepped_store]

/-- A name that has a value keeps one. -/
theorem isSome_find?_after (m : Machine) {a b : Nat} (later : a ≤ b)
    (found : ((m.after a).store.find? name).isSome = true) :
    ((m.after b).store.find? name).isSome = true := by
  obtain ⟨c, rfl⟩ := Nat.exists_eq_add_of_le later
  rw [after_add, after_store]
  exact Effect.isSome_find?_foldl _ found

theorem mem_changes_of_find? {n : Nat}
    (found : (((start p).after n).store.find? name).isSome = true) :
    name ∈ ((start p).changes n).filterMap Effect.target? := by
  apply Decidable.byContradiction
  intro apart
  rw [after_store, Effect.find?_foldl_of_not_mem apart] at found
  contradiction

/-- What is stored once only keeps its value. -/
theorem find?_after_of_count {a b : Nat} {v : Value}
    (once : (((start p).changes b).filterMap Effect.target?).count name ≤ 1)
    (found : ((start p).after a).store.find? name = some v) (later : a ≤ b) :
    ((start p).after b).store.find? name = some v := by
  have stored := mem_changes_of_find? (Option.isSome_of_eq_some found)
  obtain ⟨c, rfl⟩ := Nat.exists_eq_add_of_le later
  -- The one store there is has been made already, so there is none between the two points.
  rw [changes_add, List.filterMap_append, List.count_append] at once
  have first := List.one_le_count_iff.mpr stored
  have never : name ∉ (((start p).after a).changes c).filterMap Effect.target? := by
    rw [← List.count_eq_zero]
    omega
  rw [after_add, after_store, Effect.find?_foldl_of_not_mem never, found]

/-- A steady step over an instruction that goes on leads to the next one. -/
theorem stepped_on (steady : m.Steady) (current : m.program.code[m.ip]? = some x)
    (goes : x.goesOn = true) : m.stepped.ip = m.ip + 1 ∧ m.stepped.stopped = false := by
  obtain ⟨next, executed, stepped⟩ := executed_of_sound steady.running current steady.sound
  obtain ⟨still, -, there⟩ := execute_state executed goes
  have running := stopped_eq_false.mp steady.running
  rw [stepped]
  exact ⟨there, stopped_eq_false.mpr
    ⟨still.trans running.1, (execute_frame executed).2.trans running.2⟩⟩

theorem find?_stepped (steady : m.Steady) (current : m.program.code[m.ip]? = some (.store name)) :
    (m.stepped.store.find? name).isSome = true := by
  obtain ⟨next, executed, stepped⟩ := executed_of_sound steady.running current steady.sound
  obtain ⟨_, v, -, ⟨⟩, -, stored, -⟩ | ⟨state, other, -⟩ | ⟨other, -⟩ := execute_cases executed
  · rw [stepped]
    simp [stored, Store.find?_insert]
  · contradiction
  · exact absurd rfl (other name)

/-- Code without jumps at the start of a program is run through instruction by instruction. -/
theorem after_straight {code : List Instruction}
    (steady : ∀ n, ((start p).after n).stopped = false → ((start p).after n).Steady)
    (segment : p.Segment 0 code) (goes : ∀ x ∈ code, x.goesOn = true) {n : Nat}
    (inside : n ≤ code.length) :
    ((start p).after n).ip = n ∧ ((start p).after n).stopped = false ∧
      ∀ name, .store name ∈ code.take n →
        (((start p).after n).store.find? name).isSome = true := by
  induction n with
  | zero => exact ⟨rfl, rfl, by simp⟩
  | succ n ih =>
    obtain ⟨here, running, stored⟩ := ih (Nat.le_of_succ_le inside)
    have current : ((start p).after n).program.code[((start p).after n).ip]? = some code[n] := by
      rw [(Reached.after p n).program, here]
      simpa using segment n _ (List.getElem?_eq_getElem inside)
    obtain ⟨there, running'⟩ := stepped_on (steady n running) current (goes _ (List.getElem_mem _))
    rw [after_add (start p) n 1]
    refine ⟨there.trans (congrArg (· + 1) here), running', ?_⟩
    intro name member
    -- The name was stored before and still is, or the step over `code[n]` stores it.
    rw [List.take_add_one, List.mem_append] at member
    rcases member with early | now
    · exact isSome_find?_after _ (Nat.le_succ 0) (stored name early)
    · rw [List.getElem?_eq_getElem inside, Option.toList_some, List.mem_singleton] at now
      rw [← now] at current
      exact find?_stepped (steady n running) current

end Machine

/-- Where the first jump or exit stands: what is before it is run through once. -/
def Program.entry (p : Program) : Nat := p.instructions.findIdx Instruction.isTerminator

theorem Program.entry_eq {p : Program} {before rest : List Instruction} {x : Instruction}
    (parts : p.instructions = before ++ x :: rest) (goes : ∀ y ∈ before, y.goesOn = true)
    (leads : x.isTerminator = true) : p.entry = before.length := by
  have none : before.findIdx Instruction.isTerminator = before.length := by
    rw [List.findIdx_eq_length]
    intro y member
    have on := goes y member
    cases y with
    | jump | exit => contradiction
    | push | load | store | unary | binary | jumpIfNot | label | location | transition => rfl
  rw [entry, parts, List.findIdx_append, none, if_neg (Nat.lt_irrefl _)]
  simp [List.findIdx_cons, leads]

namespace Compile

open Source (Definition Declaration)

variable {program : Source.Program} {earlier reports : List Report} {p : Program}

theorem Declared.foldl_code (xs : List Definition) (d : Declared) :
    d.code <+: (xs.foldl add d).code := by
  induction xs generalizing d with
  | nil => exact List.prefix_refl _
  | cons x rest ih =>
    refine List.IsPrefix.trans ?_ (ih (d.add x))
    cases x with
    | states list =>
      have same : (d.add (.states list)).code = d.code := states_code d list
      exact same ▸ List.prefix_refl _
    | whenBlock b => exact List.prefix_refl _
    | declaration x =>
      simp only [add, declaration]
      split
      · exact List.prefix_refl _
      · simp

/-- Without an error every declaration is stored. -/
theorem Declared.foldl_stores (xs : List Definition) {d : Declared} {x : Declaration}
    (quiet : Quiet (xs.foldl add d).reports) (member : x ∈ Source.Program.declarations xs) :
    .store x.name.text ∈ (xs.foldl add d).code := by
  induction xs generalizing d with
  | nil => contradiction
  | cons y rest ih =>
    have here : Quiet (d.add y).reports := quiet.of_prefix (foldl_reports rest (d.add y))
    cases y with
    | states | whenBlock => exact ih quiet member
    | declaration y =>
      rcases List.mem_cons.mp member with rfl | there
      · apply (foldl_code rest (d.add (.declaration x))).subset
        simp only [add, declaration] at here ⊢
        split at here
        · simp [report, Report.isError, Report.severity, ReportKind.severity] at here
        · simp
      · exact ih quiet there

/-- After the declarations comes the jump to the section of the initial state, or an exit if
there is none. -/
theorem accepted_entry (accepted : Compile.program program earlier = .ok ⟨some p, reports⟩) :
    p.entry = (Declared.ofProgram program).code.length ∧
      p.Segment 0 (Declared.ofProgram program).code ∧
      ∃ initial, program.initialState? = some initial ∧
        p.code[p.entry]? = some (if (program.body? initial).isSome = true then .jump initial
          else .exit .finalStateReached) := by
  obtain ⟨list, graph, builder, -, built, -, code, -⟩ := accepted_parts accepted
  obtain ⟨lists, -, opened, rest, shorter⟩ := accepted_sections accepted
  have goes : ∀ x ∈ (Declared.ofProgram program).code, x.goesOn = true :=
    Declared.foldl_goesOn program nofun
  obtain ⟨initial, first⟩ : ∃ initial, (scopeOf program).states.head? = some initial := by
    refine ⟨graph.initial.name, ?_⟩
    rw [← opened.states, ← (build_parts built).1]
    rfl
  have parts := code.trans shorter.symm
  have stretch := preamble_stretch first parts
  have departs : p.code[(Declared.ofProgram program).code.length]? =
      some (if (program.body? initial).isSome = true then .jump initial
        else .exit .finalStateReached) := by
    simpa only [Departs, Nat.zero_add, mem_withBlock_iff accepted] using stretch.departs
  have entered : p.entry = (Declared.ofProgram program).code.length := by
    obtain ⟨x, more, same, leads⟩ : ∃ x more,
        entry (some initial) (scopeOf program).withBlock = x :: more ∧ x.isTerminator = true := by
      simp only [entry]
      split
      · exact ⟨_, _, rfl, rfl⟩
      · exact ⟨_, _, rfl, rfl⟩
    rw [preamble, first, same, List.append_assoc, List.cons_append] at parts
    exact Program.entry_eq parts goes leads
  exact ⟨entered, stretch.segment, initial, lists.initial.symm.trans first, entered ▸ departs⟩

/-- Every declaration is stored when the code before the entry was run through. -/
theorem accepted_entered (complete : program.Complete)
    (accepted : Compile.program program earlier = .ok ⟨some p, reports⟩) :
    (∀ n ≤ p.entry, ((Machine.start p).after n).ip = n) ∧
      ∀ x ∈ program.declarations,
        (((Machine.start p).after p.entry).store.find? x.name.text).isSome = true := by
  obtain ⟨entered, segment, -⟩ := accepted_entry accepted
  obtain ⟨-, -, -, -, -, quiet, -⟩ := accepted_parts accepted
  obtain ⟨graph, effects, store, layout⟩ := layout complete accepted
  have goes : ∀ x ∈ (Declared.ofProgram program).code, x.goesOn = true :=
    Declared.foldl_goesOn program nofun
  have steady (n : Nat) (running : ((Machine.start p).after n).stopped = false) :
      ((Machine.start p).after n).Steady := by
    rcases steady_or_exited complete layout n with steady | ⟨exited, -⟩
    · exact steady
    · rw [(Machine.stopped_eq_false.mp running).1] at exited
      contradiction
  rw [entered]
  constructor
  · intro n inside
    exact (Machine.after_straight steady segment goes inside).1
  · intro x member
    apply (Machine.after_straight steady segment goes (Nat.le_refl _)).2.2
    rw [List.take_length]
    exact Declared.foldl_stores program (preamble_quiet quiet).2 member

/-- What was stored so far keeps to the declarations, as it does in the source. -/
theorem accepted_reflected {list : Source.StateList} {env : Source.Environment}
    (complete : program.Complete) (describes : program.Describes list env)
    (accepted : Compile.program program earlier = .ok ⟨some p, reports⟩) (n : Nat) :
    ((Machine.start p).after n).store.Obeys env ∧
      ∀ name t, env name = some (.fixed, t) →
        (((Machine.start p).changes n).filterMap Effect.target?).count name ≤ 1 := by
  obtain ⟨graph, effects, store, layout⟩ := layout complete accepted
  obtain ⟨r, ran, reflected⟩ := changes_reflected complete layout n
  have keeps := Source.Program.run?_keeps describes ran
  constructor
  · rw [Machine.after_store]
    apply Store.Obeys.foldl (.empty env)
    intro e member
    exact keeps.typed e (reflected.subset member)
  · intro name t constant
    have fewer := (reflected.sublist.filterMap Effect.target?).count_le name
    exact Nat.le_trans fewer (keeps.stored_once describes constant)

end Compile

/-- What the machines of a compiled program hold keeps to the declarations of its source. -/
structure Respects (compiled : Program) (source : Source.Program) : Prop where
  /-- The names that have values are those declared as constants and as variables. -/
  declares : ∀ name kind, kind.hasValue = true →
    ((∃ s, compiled.symbols.find? name = some s ∧ s.kind = kind) ↔
      ∃ x ∈ source.declarations, x.name.text = name ∧ x.storage.kind = kind)
  /-- Every stored name is one of them, with a value of its type. -/
  typed : ∀ m, Machine.Reached compiled m → ∀ name v, m.store.find? name = some v →
    ∃ s, compiled.symbols.find? name = some s ∧ s.kind.hasValue = true ∧ s.type = v.type
  /-- At the entry control goes to the initial state, or stops if it has no when-block. -/
  enters : ∃ initial, source.initialState? = some initial ∧
    compiled.code[compiled.entry]? =
      some (if (source.body? initial).isSome = true then .jump initial
        else .exit .finalStateReached)
  /-- The entry is reached, and from then on all names are stored. -/
  filled : ∃ k, ((Machine.start compiled).after k).ip = compiled.entry ∧
    (∀ n < k, ((Machine.start compiled).after n).ip < compiled.entry) ∧
    ∀ n ≥ k, ∀ x ∈ source.declarations,
      (((Machine.start compiled).after n).store.find? x.name.text).isSome = true
  /-- Once a constant has a value, this is its value for the rest of the run. -/
  fixed : ∀ name s, compiled.symbols.find? name = some s → s.kind = .constant →
    ∀ a v, ((Machine.start compiled).after a).store.find? name = some v →
      ∀ b ≥ a, ((Machine.start compiled).after b).store.find? name = some v

/-- Two states in turn, with a constant that gives a variable its initial value. -/
def Source.Program.relay : Source.Program :=
  let name (text : String) : Source.Name := ⟨text, .absent⟩
  let block (actions : List Source.Action) : Source.Block := .braces .absent actions .absent
  [.states ⟨.absent, [⟨name "A", []⟩, ⟨name "B", []⟩], .absent⟩,
    .declaration ⟨.fixed, .absent, name "c", .boolean true .absent⟩,
    .declaration ⟨.assignable, .absent, name "x", .ref (name "c")⟩,
    .whenBlock ⟨.absent, name "A",
      block
        [.assignment (name "x") (.unary .not .absent (.ref (name "x"))),
          .transition .absent (name "B")]⟩,
    .whenBlock ⟨.absent, name "B",
      block [.assertion .absent (.ref (name "c")), .transition .absent (name "A")]⟩]

/-- The machines of a compiled program hold what its source declares. -/
theorem compiled_respects {source : Source.Program} {compiled : Program}
    {earlier reports : List Report} (complete : source.Complete)
    (accepted : Compile.program source earlier = .ok ⟨some compiled, reports⟩) :
    Respects compiled source := by
  obtain ⟨list, env, describes⟩ := Compile.accepted_describes complete accepted
  obtain ⟨reached, stored⟩ := Compile.accepted_entered complete accepted
  have shows := Compile.accepted_shows complete describes accepted
  have mirrors := Compile.accepted_reflected complete describes accepted
  refine ⟨?_, ?_, (Compile.accepted_entry accepted).2.2, ⟨compiled.entry, ?_, ?_, ?_⟩, ?_⟩
  · intro name kind valued
    constructor
    · rintro ⟨s, symbol, rfl⟩
      obtain ⟨storage, kept, same⟩ := shows.kept_of_find? symbol valued
      rcases describes.initializes.of_kept kept with before | ⟨x, member, named, rfl⟩
      · contradiction
      · exact ⟨x, member, named, same.symm⟩
    · rintro ⟨x, member, rfl, rfl⟩
      obtain ⟨t, kept⟩ := describes.initializes.declared describes.names_nodup member
      obtain ⟨s, symbol, same, -⟩ := shows.find?_of_kept kept
      exact ⟨s, symbol, same⟩
  · intro m reached name v holds
    obtain ⟨n, rfl⟩ := reached.exists_after
    obtain ⟨storage, kept⟩ := (mirrors n).1 name v holds
    obtain ⟨s, symbol, kind, type⟩ := shows.find?_of_kept kept
    refine ⟨s, symbol, ?_, type⟩
    rw [kind]
    cases storage <;> rfl
  · exact reached _ (Nat.le_refl _)
  · intro n early
    rw [reached n (Nat.le_of_lt early)]
    exact early
  · intro n later x member
    exact Machine.isSome_find?_after _ later (stored x member)
  · intro name s symbol constant a v holds b later
    obtain ⟨storage, kept, same⟩ := shows.kept_of_find? symbol (by rw [constant]; rfl)
    cases storage with
    | fixed => exact Machine.find?_after_of_count ((mirrors b).2 name _ kept) holds later
    | assignable =>
      rw [constant] at same
      contradiction

/-- The relay runs for ever. Its constant is stored by the third step and is never negated with
the variable. -/
theorem compiled_respects_relay :
    ∃ compiled reports,
      Compile.program Source.Program.relay [] = .ok ⟨some compiled, reports⟩ ∧
        Respects compiled .relay ∧ compiled.entry = 6 ∧
        (((Machine.start compiled).after 13).store.find? "x").map Value.toBool = some false ∧
        ∀ n ≥ 3, ((Machine.start compiled).after n).store.find? "c" = some (.boolean true) := by
  have complete : Source.Program.relay.Complete := by
    simp [Source.Program.relay, Source.Program.Complete, Source.Definition.Complete,
      Source.Expr.Complete, Source.Block.Complete, Source.Action.AllComplete,
      Source.Action.Complete]
  have respects := compiled_respects complete (show Compile.program .relay [] = _ from rfl)
  refine ⟨_, _, rfl, respects, rfl, by decide +kernel, ?_⟩
  exact respects.fixed "c" _ rfl rfl 3 _ rfl

end Statecraft
