import Statecraft.Proofs.Typing
import Statecraft.Proofs.Agreement
import Statecraft.Proofs.Compilation

/-! The compiler accepts the well-formed programs and no others. What makes a program
well formed is said of its definitions as a whole: how many lists of states there are,
which names are declared, what the initial values and the live actions refer to. The
compiler decides it in one pass over the definitions and one over the when-blocks. -/
namespace Statecraft.Source

open Compile (whenBlocks)

def Definition.names : Definition → List String
  | .states list => list.states.map fun s => s.name.text
  | .declaration x => [x.name.text]
  | .whenBlock _ => []

def Program.stateLists (p : Program) : List StateList :=
  p.filterMap fun
    | .states list => some list
    | _ => none

/-- Every initial value has a type by what is declared before it. The environment grows
with each declaration. -/
inductive Initializes : Environment → List Declaration → Environment → Prop where
  | nil {env : Environment} : Initializes env [] env
  | cons {env after : Environment} {x : Declaration} {rest : List Declaration} {t : Ty}
      (typed : HasType env x.value t)
      (later : Initializes (env.add x.name.text x.storage t) rest after) :
      Initializes env (x :: rest) after

/-- The program is well formed, with the states of the list and the constants and
variables of the environment. -/
structure Program.Describes (program : Program) (list : StateList) (env : Environment) : Prop where
  only : program.stateLists = [list]
  several : 2 ≤ list.states.length
  distinct : (program.flatMap Definition.names).Nodup
  initializes : Initializes .empty program.declarations env
  declared : ∀ b ∈ whenBlocks program, b.state.text ∈ (Definition.states list).names
  single : ((whenBlocks program).map fun b => b.state.text).Nodup
  live : ∀ b ∈ whenBlocks program, b.body.WellFormed env (Definition.states list).names

/-- There is a list of states and an environment for which the program is well formed. -/
def Program.WellFormed (program : Program) : Prop := ∃ list env, program.Describes list env

variable {lists : List StateList} {names : List String} {env after : Environment}

/-- Definitions that nothing is wrong with after the lists of states, the names and the
environment of those before. -/
structure Admits (lists : List StateList) (names : List String) (env : Environment)
    (program : Program) (after : Environment) : Prop where
  once : (lists ++ program.stateLists).length ≤ 1
  several : ∀ list ∈ program.stateLists, 2 ≤ list.states.length
  distinct : (names ++ program.flatMap Definition.names).Nodup
  initializes : Initializes env program.declarations after

theorem admits_states {list : StateList} {rest : Program} :
    Admits lists names env (.states list :: rest) after ↔
      lists = [] ∧ 2 ≤ list.states.length ∧
        Admits [list] (names ++ (Definition.states list).names) env rest after := by
  constructor
  · rintro ⟨once, several, distinct, initializes⟩
    have single : lists.length + ((Program.stateLists rest).length + 1) ≤ 1 := by
      simpa [Program.stateLists] using once
    obtain rfl : lists = [] := List.eq_nil_of_length_eq_zero (by omega)
    obtain ⟨here, later⟩ := List.forall_mem_cons.mp several
    exact ⟨rfl, here, by simpa using single, later, by simpa using distinct, initializes⟩
  · rintro ⟨rfl, here, once, several, distinct, initializes⟩
    exact ⟨once, List.forall_mem_cons.mpr ⟨here, several⟩, by simpa using distinct, initializes⟩

theorem admits_declaration {x : Declaration} {rest : Program} :
    Admits lists names env (.declaration x :: rest) after ↔
      ∃ t, HasType env x.value t ∧
        Admits lists (names ++ [x.name.text]) (env.add x.name.text x.storage t) rest after := by
  constructor
  · rintro ⟨once, several, distinct, initializes⟩
    cases initializes with
    | cons typed later =>
      exact ⟨_, typed, once, several, by simpa [Definition.names] using distinct, later⟩
  · rintro ⟨t, typed, once, several, distinct, later⟩
    exact ⟨once, several, by simpa [Definition.names] using distinct, .cons typed later⟩

theorem admits_whenBlock {b : WhenBlock} {rest : Program} :
    Admits lists names env (.whenBlock b :: rest) after ↔ Admits lists names env rest after :=
  ⟨fun ⟨once, several, distinct, initializes⟩ => ⟨once, several, distinct, initializes⟩,
    fun ⟨once, several, distinct, initializes⟩ => ⟨once, several, distinct, initializes⟩⟩

end Statecraft.Source

namespace Statecraft

open Source (Environment HasType Definition StateList StateEntry Declaration Admits)

variable {env : Environment}

namespace Symbols

variable {symbols next : Symbols} {s : Symbol}

theorem find?_useAll_isSome (symbols : Symbols) (names : List String) (other : String) :
    ((symbols.useAll names).find? other).isSome = (symbols.find? other).isSome := by
  induction names generalizing symbols with
  | nil => rfl
  | cons name rest ih =>
    rw [useAll, List.foldl_cons]
    exact (ih (symbols.use name)).trans (by rw [find?_use, Option.isSome_map])

theorem Shows.useAll (shows : symbols.Shows env) (names : List String) :
    (symbols.useAll names).Shows env := by
  induction names generalizing symbols with
  | nil => exact shows
  | cons name rest ih =>
    refine ih ?_
    intro other
    rw [← shows other]
    simp only [Compile.valueSymbol?, find?_use]
    cases symbols.find? other with
    | none => rfl
    | some s =>
      by_cases marked : s.name = name <;> by_cases kind : s.kind = .state <;>
        simp [Option.filter, marked, kind]

theorem define_free (free : symbols.find? s.name = none) : ∃ next, symbols.define s = .ok next := by
  simp [define, free]

theorem free_of_define (defined : symbols.define s = .ok next) : symbols.find? s.name = none := by
  simp only [define] at defined
  split at defined
  · contradiction
  · assumption

theorem find?_define (defined : symbols.define s = .ok next) (other : String) :
    next.find? other =
      if other = s.name then some { s with used := false } else symbols.find? other := by
  have free := free_of_define defined
  simp only [define, free, Except.ok.injEq] at defined
  subst defined
  simp only [find?] at free ⊢
  rw [List.find?_append]
  by_cases same : other = s.name
  · subst same
    simp [free]
  · have apart : s.name ≠ other := fun h => same h.symm
    simp [same, apart]

theorem Shows.define_state (shows : symbols.Shows env) (kind : s.kind = .state)
    (defined : symbols.define s = .ok next) : next.Shows env := by
  intro other
  rw [← shows other]
  simp only [Compile.valueSymbol?, find?_define defined]
  by_cases same : other = s.name
  · simp [same, free_of_define defined, kind]
  · simp [same]

theorem Shows.define_value (shows : symbols.Shows env) {storage : Source.Storage}
    (kind : s.kind = storage.kind) (defined : symbols.define s = .ok next) :
    next.Shows (env.add s.name storage s.type) := by
  have valued : storage.kind ≠ .state := by cases storage <;> simp [Source.Storage.kind]
  intro other
  have before := shows other
  simp only [Compile.valueSymbol?] at before
  simp only [Compile.valueSymbol?, find?_define defined, Environment.add]
  by_cases same : other = s.name
  · simp [same, Option.filter, valued, kind]
  · simpa only [same, if_false] using before

end Symbols

theorem Graph.Builder.hasState_withState {b : Builder} {s : State} {name : String}
    (stated : (b.withState s).hasState name = true) : b.hasState name = true ∨ name = s.name := by
  simp only [withState, addState] at stated
  split at stated
  · exact .inl stated
  · split at stated
    · exact .inl stated
    · simp only [hasState, Except.toOption, Option.getD_some, List.any_append, List.any_cons,
        List.any_nil, Bool.or_false, Bool.or_eq_true, decide_eq_true_eq] at stated ⊢
      exact stated.imp_right Eq.symm

namespace Compile

namespace Declared

variable {d : Declared} {lists : List StateList} {names : List String}

/-- What is known after the lists of states and the names, if nothing was wrong. -/
structure Tracks (d : Declared) (lists : List StateList) (names : List String)
    (env : Environment) : Prop where
  quiet : Quiet d.reports
  listed : d.list.toList = lists
  distinct : names.Nodup
  taken : ∀ name, (d.symbols.find? name).isSome = true ↔ name ∈ names
  shows : d.symbols.Shows env
  valid : env.Valid
  states : ∀ name, d.graph.hasState name = true → name ∈ names
  unlisted : lists = [] → d.graph = .empty

theorem empty_tracks : Tracks {} [] [] .empty where
  quiet := quiet_nil
  listed := rfl
  distinct := .nil
  taken name := by simp [Symbols.empty, Symbols.find?]
  shows name := rfl
  valid := by simp [Environment.Valid, Environment.empty]
  states name := by simp [Graph.Builder.empty, Graph.Builder.hasState]
  unlisted _ := rfl

theorem Tracks.nodup_iff (tracks : d.Tracks lists names env) {name : String} :
    (names ++ [name]).Nodup ↔ name ∉ names := by
  simp [List.nodup_append, tracks.distinct, imp_not_comm]

theorem Tracks.begin (tracks : d.Tracks [] names env) (list : StateList) :
    Tracks { d with list := some list } [list] names env :=
  ⟨tracks.quiet, rfl, tracks.distinct, tracks.taken, tracks.shows, tracks.valid, tracks.states,
    by simp⟩

theorem addStates_fresh {keyword : Selection} {s : StateEntry} {list : StateList}
    (tracks : d.Tracks [list] names env) (fresh : s.name.text ∉ names) (rest : List StateEntry) :
    ∃ next, addStates keyword (s :: rest) [] d = addStates keyword rest [] next ∧
      next.Tracks [list] (names ++ [s.name.text]) env := by
  have unstated : d.graph.hasState s.name.text = false :=
    Bool.eq_false_iff.mpr fun stated => fresh (tracks.states _ stated)
  have free : d.symbols.find? s.name.text = none :=
    Option.not_isSome_iff_eq_none.mp fun taken => fresh ((tracks.taken _).mp taken)
  obtain ⟨symbols, defined⟩ := Symbols.define_free
    (s := ⟨s.name.text, .state, .invalid, s.name.span, false⟩) free
  simp only [addStates, unstated, defined, Bool.false_eq_true, if_false]
  refine ⟨_, rfl, tracks.quiet, tracks.listed, tracks.nodup_iff.mpr fresh, ?_,
    tracks.shows.define_state rfl defined, tracks.valid, ?_, by simp⟩
  · intro name
    rw [Symbols.find?_define defined]
    by_cases same : name = s.name.text
    · simp [same]
    · simpa [same] using tracks.taken name
  · intro name stated
    rcases Graph.Builder.hasState_withState stated with before | same
    · exact List.mem_append_left _ (tracks.states name before)
    · simp [same]

theorem addStates_taken {keyword : Selection} {s : StateEntry} (tracks : d.Tracks lists names env)
    (taken : s.name.text ∈ names) (rest : List StateEntry) :
    ¬Quiet (addStates keyword (s :: rest) [] d).reports := by
  intro quiet
  have found := (tracks.taken _).mpr taken
  simp only [addStates] at quiet
  split at quiet
  · have kept := quiet.of_prefix (addStates_reports keyword rest _ _)
    simp [report, Report.isError, Report.severity, ReportKind.severity] at kept
  · split at quiet
    · have kept := quiet.of_prefix (addStates_reports keyword rest _ _)
      simp [report, Report.isError, Report.severity, ReportKind.severity] at kept
    · rename_i symbols defined
      rw [Symbols.free_of_define defined] at found
      contradiction

/-- The states of a list are added without an error if and only if their names are new. -/
theorem addStates_quiet_iff {keyword : Selection} {entries : List StateEntry} {list : StateList}
    (tracks : d.Tracks [list] names env) :
    Quiet (addStates keyword entries [] d).reports ↔
      (names ++ entries.map fun s => s.name.text).Nodup := by
  induction entries generalizing d names with
  | nil => simp [addStates, tracks.quiet, tracks.distinct]
  | cons s rest ih =>
    rw [List.map_cons, List.append_cons]
    by_cases taken : s.name.text ∈ names
    · refine iff_of_false (addStates_taken tracks taken rest) fun distinct => ?_
      exact tracks.nodup_iff.mp (List.nodup_append.mp distinct).1 taken
    · obtain ⟨next, same, tracks'⟩ := addStates_fresh tracks taken rest
      rw [same, ih tracks']

theorem addStates_tracks {keyword : Selection} {entries : List StateEntry} {list : StateList}
    (tracks : d.Tracks [list] names env)
    (quiet : Quiet (addStates keyword entries [] d).reports) :
    (addStates keyword entries [] d).Tracks [list]
      (names ++ entries.map fun s => s.name.text) env := by
  induction entries generalizing d names with
  | nil => simpa [addStates] using tracks
  | cons s rest ih =>
    by_cases taken : s.name.text ∈ names
    · exact absurd quiet (addStates_taken tracks taken rest)
    · obtain ⟨next, same, tracks'⟩ := addStates_fresh tracks taken rest
      rw [same] at quiet ⊢
      simpa using ih tracks' quiet

theorem addStates_length {list : StateList} (empty : d.graph = .empty)
    (quiet : Quiet (addStates list.keyword list.states [] { d with list := some list }).reports) :
    (addStates list.keyword list.states [] { d with list := some list }).graph.states.length =
      list.states.length := by
  have names := (addStates_graph (by rw [empty]; rfl) quiet).1
  simpa [empty, Graph.Builder.empty] using congrArg List.length names

theorem states_eq {list : StateList} (unlisted : d.list = none)
    (several : 2 ≤
      (addStates list.keyword list.states [] { d with list := some list }).graph.states.length) :
    d.states list = addStates list.keyword list.states [] { d with list := some list } := by
  have enough := Nat.not_lt.mpr several
  simp [states, unlisted, enough]

/-- A second list and a list with too few states are reported. -/
theorem states_quiet {list : StateList} (quiet : Quiet (d.states list).reports) :
    d.list = none ∧ 2 ≤ (d.states list).graph.states.length ∧
      d.states list = addStates list.keyword list.states [] { d with list := some list } := by
  cases listed : d.list with
  | some other =>
    simp [states, listed, report, Report.isError, Report.severity, ReportKind.severity] at quiet
  | none =>
    simp only [states, listed, Option.isSome_none, Bool.false_eq_true, if_false] at quiet ⊢
    split at quiet
    · simp [report, Report.isError, Report.severity, ReportKind.severity] at quiet
    · rename_i enough
      simp only [enough, if_false]
      exact ⟨trivial, Nat.not_lt.mp enough, trivial⟩

theorem Tracks.list_eq_none (tracks : d.Tracks [] names env) : d.list = none :=
  Option.toList_eq_nil_iff.mp tracks.listed

/-- Without an error a list of states is the only one and has two of them, with new names. -/
theorem states_quiet_iff (tracks : d.Tracks lists names env) (list : StateList) :
    Quiet (d.states list).reports ↔
      lists = [] ∧ 2 ≤ list.states.length ∧ (names ++ (Definition.states list).names).Nodup := by
  constructor
  · intro quiet
    obtain ⟨unlisted, several, same⟩ := states_quiet quiet
    obtain rfl : lists = [] := by rw [← tracks.listed, unlisted, Option.toList_none]
    rw [same] at quiet several
    rw [addStates_length (tracks.unlisted rfl) quiet] at several
    exact ⟨rfl, several, (addStates_quiet_iff (tracks.begin list)).mp quiet⟩
  · rintro ⟨rfl, several, distinct⟩
    have quiet : Quiet (addStates list.keyword list.states [] { d with list := some list }).reports :=
      (addStates_quiet_iff (tracks.begin list)).mpr distinct
    rw [← addStates_length (tracks.unlisted rfl) quiet] at several
    rwa [states_eq tracks.list_eq_none several]

theorem states_tracks (tracks : d.Tracks [] names env) {list : StateList}
    (quiet : Quiet (d.states list).reports) :
    (d.states list).Tracks [list] (names ++ (Definition.states list).names) env := by
  obtain ⟨-, -, same⟩ := states_quiet quiet
  rw [same] at quiet ⊢
  exact addStates_tracks (tracks.begin list) quiet

/-- Without an error a declaration has a new name and a value with a type. -/
theorem declaration_quiet_iff (tracks : d.Tracks lists names env) {x : Declaration}
    (complete : x.value.Complete) :
    Quiet (d.declaration x).reports ↔
      (names ++ [x.name.text]).Nodup ∧ ∃ t, HasType env x.value t := by
  have free : (d.symbols.useAll x.value.reads).find? x.name.text = none ↔
      (names ++ [x.name.text]).Nodup := by
    rw [tracks.nodup_iff, ← tracks.taken, ← Symbols.find?_useAll_isSome,
      Option.not_isSome_iff_eq_none]
  constructor
  · intro quiet
    simp only [declaration] at quiet
    split at quiet
    · simp [report, Report.isError, Report.severity, ReportKind.severity] at quiet
    · rename_i symbols defined
      have inside := (quiet_append.mp quiet).2
      exact ⟨free.mp (Symbols.free_of_define defined), _,
        hasType_of_quiet tracks.shows tracks.valid complete inside⟩
  · rintro ⟨distinct, t, typed⟩
    obtain ⟨-, -, inside⟩ := expr_hasType tracks.shows tracks.valid typed
    simp only [declaration, Symbols.define, free.mpr distinct]
    exact quiet_append.mpr ⟨tracks.quiet, inside⟩

theorem declaration_tracks (tracks : d.Tracks lists names env) {x : Declaration} {t : Ty}
    (distinct : (names ++ [x.name.text]).Nodup) (typed : HasType env x.value t)
    (quiet : Quiet (d.declaration x).reports) :
    (d.declaration x).Tracks lists (names ++ [x.name.text]) (env.add x.name.text x.storage t) := by
  obtain ⟨type, inside, -⟩ := expr_hasType tracks.shows tracks.valid typed
  simp only [declaration, type] at quiet ⊢
  split at quiet
  · simp [report, Report.isError, Report.severity, ReportKind.severity] at quiet
  · rename_i symbols defined
    refine ⟨quiet, tracks.listed, distinct, ?_,
      (tracks.shows.useAll _).define_value (by cases x.storage <;> rfl) defined, ?_, ?_,
      tracks.unlisted⟩
    · intro name
      rw [Symbols.find?_define defined]
      by_cases same : name = x.name.text
      · simp [same]
      · simpa [same, Symbols.find?_useAll_isSome] using tracks.taken name
    · intro name storage t' kept
      simp only [Environment.add] at kept
      split at kept
      · cases kept
        exact inside
      · exact tracks.valid name storage t' kept
    · intro name stated
      exact List.mem_append_left _ (tracks.states name stated)

/-- Definitions about which nothing is reported are admitted. -/
theorem foldl_admits (xs : List Definition) (tracks : d.Tracks lists names env)
    (complete : ∀ x ∈ xs, x.Complete) (quiet : Quiet (xs.foldl add d).reports) :
    ∃ after, Admits lists names env xs after := by
  induction xs generalizing d lists names env with
  | nil =>
    have once : lists.length ≤ 1 := by
      rw [← tracks.listed]
      exact Option.length_toList_le
    exact ⟨env, by simpa [Source.Program.stateLists] using once,
      by simp [Source.Program.stateLists], by simpa using tracks.distinct, .nil⟩
  | cons x rest ih =>
    have later : ∀ y ∈ rest, y.Complete :=
      fun y member => complete y (List.mem_cons_of_mem _ member)
    -- nothing is reported up to here either, so `Tracks` is known again for the rest
    have here : Quiet (d.add x).reports := quiet.of_prefix (foldl_reports rest (d.add x))
    cases x with
    | states list =>
      obtain ⟨rfl, several, -⟩ := (states_quiet_iff tracks list).mp here
      obtain ⟨after, admits⟩ := ih (states_tracks tracks here) later quiet
      exact ⟨after, Source.admits_states.mpr ⟨rfl, several, admits⟩⟩
    | declaration x =>
      have first : x.value.Complete := complete _ List.mem_cons_self
      obtain ⟨distinct, t, typed⟩ := (declaration_quiet_iff tracks first).mp here
      obtain ⟨after, admits⟩ := ih (declaration_tracks tracks distinct typed here) later quiet
      exact ⟨after, Source.admits_declaration.mpr ⟨t, typed, admits⟩⟩
    | whenBlock b =>
      obtain ⟨after, admits⟩ := ih tracks later quiet
      exact ⟨after, Source.admits_whenBlock.mpr admits⟩

/-- Nothing is reported about definitions that are admitted. -/
theorem foldl_tracks (xs : List Definition) {after : Environment}
    (tracks : d.Tracks lists names env) (complete : ∀ x ∈ xs, x.Complete)
    (admits : Admits lists names env xs after) :
    (xs.foldl add d).Tracks (lists ++ Source.Program.stateLists xs)
      (names ++ xs.flatMap Definition.names) after := by
  induction xs generalizing d lists names env with
  | nil =>
    cases admits.initializes
    simpa [Source.Program.stateLists] using tracks
  | cons x rest ih =>
    have later : ∀ y ∈ rest, y.Complete :=
      fun y member => complete y (List.mem_cons_of_mem _ member)
    cases x with
    | states list =>
      obtain ⟨rfl, several, admits'⟩ := Source.admits_states.mp admits
      -- the names up to here are the front of all names, which do not repeat
      have distinct := (List.nodup_append.mp admits'.distinct).1
      have here := (states_quiet_iff tracks list).mpr ⟨rfl, several, distinct⟩
      have tracks' := ih (states_tracks tracks here) later admits'
      rwa [List.append_assoc] at tracks'
    | declaration x =>
      have first : x.value.Complete := complete _ List.mem_cons_self
      obtain ⟨t, typed, admits'⟩ := Source.admits_declaration.mp admits
      have distinct := (List.nodup_append.mp admits'.distinct).1
      have here := (declaration_quiet_iff tracks first).mpr ⟨distinct, t, typed⟩
      have tracks' := ih (declaration_tracks tracks distinct typed here) later admits'
      rwa [List.append_assoc] at tracks'
    | whenBlock b => exact ih tracks later (Source.admits_whenBlock.mp admits)

end Declared

open Source (WhenBlock)

namespace Sections

variable {scope : Scope} {s : Sections}

theorem add_quiet_iff (shows : scope.symbols.Shows env) (valid : env.Valid) {b : WhenBlock}
    (complete : b.body.Complete) :
    Quiet (add scope s b).reports ↔
      Quiet s.reports ∧ b.state.text ∈ scope.states ∧ b.state.text ∉ s.labels ∧
        b.body.WellFormed env scope.states := by
  constructor
  · intro quiet
    obtain ⟨same, declared, first⟩ := add_quiet quiet
    rw [same, compile, quiet_append, block_quiet_iff shows valid b.body complete] at quiet
    exact ⟨quiet.1, declared, first, quiet.2⟩
  · rintro ⟨before, declared, first, formed⟩
    have inside := (block_quiet_iff shows valid b.body complete s.counter).mpr formed
    simp only [add, declared, first, not_true_eq_false, if_false]
    exact quiet_append.mpr ⟨before, inside⟩

/-- The sections are compiled without an error if and only if the when-blocks are well
formed and for different states. -/
theorem foldl_quiet_iff (shows : scope.symbols.Shows env) (valid : env.Valid)
    (blocks : List WhenBlock) (complete : ∀ b ∈ blocks, b.body.Complete) :
    Quiet (blocks.foldl (add scope) s).reports ↔
      Quiet s.reports ∧
        (∀ b ∈ blocks, b.state.text ∈ scope.states ∧ b.body.WellFormed env scope.states) ∧
        (blocks.map fun b => b.state.text).Nodup ∧ ∀ b ∈ blocks, b.state.text ∉ s.labels := by
  induction blocks generalizing s with
  | nil => simp
  | cons b rest ih =>
    obtain ⟨first, later⟩ := List.forall_mem_cons.mp complete
    have step := add_quiet_iff shows valid first (s := s)
    simp only [List.foldl_cons, List.forall_mem_cons, List.map_cons, List.nodup_cons]
    constructor
    · intro quiet
      have here : Quiet (add scope s b).reports := quiet.of_prefix (foldl_reports scope rest _)
      obtain ⟨before, declared, new, formed⟩ := step.mp here
      rw [(add_quiet here).1] at quiet
      obtain ⟨-, others, distinct, apart⟩ := (ih later).mp quiet
      refine ⟨before, ⟨⟨declared, formed⟩, others⟩, ⟨?_, distinct⟩, new, ?_⟩
      · intro member
        obtain ⟨other, there, same⟩ := List.mem_map.mp member
        exact apart other there (same ▸ List.mem_cons_self)
      · intro other there labelled
        exact apart other there (List.mem_cons_of_mem _ labelled)
    · rintro ⟨before, ⟨⟨declared, formed⟩, others⟩, ⟨single, distinct⟩, new, apart⟩
      have here := step.mpr ⟨before, declared, new, formed⟩
      refine (ih later).mpr ⟨here, others, distinct, ?_⟩
      intro other there
      rw [(add_quiet here).1, compile, List.mem_cons, not_or]
      exact ⟨fun same => single (List.mem_map.mpr ⟨other, there, same⟩), apart other there⟩

end Sections

variable {program : Source.Program} {list : StateList}

theorem ofProgram_tracks (complete : program.Complete)
    (admits : Admits [] [] .empty program env) :
    (Declared.ofProgram program).Tracks program.stateLists (program.flatMap Definition.names)
      env :=
  Declared.foldl_tracks program Declared.empty_tracks complete admits

theorem scope_states (quiet : Quiet (Declared.ofProgram program).reports)
    (listed : (Declared.ofProgram program).list = some list)
    (only : program.stateLists = [list]) :
    (scopeOf program).states = (Definition.states list).names := by
  obtain ⟨other, member, names⟩ :=
    (Declared.foldl_states program rfl rfl quiet listed).names
  have known : other ∈ program.stateLists := List.mem_filterMap.mpr ⟨_, member, rfl⟩
  rw [only, List.mem_singleton] at known
  rw [scopeOf]
  exact known ▸ names

theorem whenBlocks_complete (complete : program.Complete) :
    ∀ b ∈ whenBlocks program, b.body.Complete := by
  intro b member
  obtain ⟨x, there, same⟩ := List.mem_filterMap.mp member
  cases x with
  | whenBlock b =>
    cases same
    exact complete _ there
  | states | declaration => contradiction

/-- The compiler has nothing to report as an error if and only if the program is well
formed. -/
theorem sections_quiet_iff (complete : program.Complete) :
    (Declared.ofProgram program).list = some list ∧ Quiet (sectionsOf program []).reports ↔
      ∃ env, program.Describes list env := by
  have blocks := whenBlocks_complete complete
  constructor
  · rintro ⟨listed, quiet⟩
    have declared := (preamble_quiet quiet).2
    obtain ⟨env, admits⟩ := Declared.foldl_admits program Declared.empty_tracks complete declared
    have tracks := ofProgram_tracks complete admits
    have only : program.stateLists = [list] := by rw [← tracks.listed, listed, Option.toList_some]
    rw [sectionsOf, Sections.foldl_quiet_iff tracks.shows tracks.valid _ blocks,
      scope_states declared listed only] at quiet
    obtain ⟨-, formed, single, -⟩ := quiet
    exact ⟨env, only, admits.several list (by simp [only]), admits.distinct, admits.initializes,
      fun b member => (formed b member).1, single, fun b member => (formed b member).2⟩
  · rintro ⟨env, only, several, distinct, initializes, declared, single, live⟩
    have tracks := ofProgram_tracks complete
      ⟨by simp [only], by simpa [only] using several, distinct, initializes⟩
    have listed : (Declared.ofProgram program).list = some list :=
      Option.toList_eq_singleton_iff.mp (tracks.listed.trans only)
    refine ⟨listed, ?_⟩
    rw [sectionsOf, Sections.foldl_quiet_iff tracks.shows tracks.valid _ blocks,
      scope_states tracks.quiet listed only]
    exact ⟨tracks.quiet, fun b member => ⟨declared b member, live b member⟩, single,
      fun _ _ => List.not_mem_nil⟩

end Compile

/-- The compiler accepts a program if and only if it is well formed. -/
theorem compiles_iff_wellFormed {program : Source.Program} (complete : program.Complete)
    (named : ∀ d ∈ program, d.Named) :
    ∃ compiled, Compile.program program [] = .ok compiled ∧
      (compiled.program.isSome = true ↔ program.WellFormed) := by
  obtain ⟨compiled, result, -⟩ := Compile.program_compiles fun _ : Quiet [] => named
  refine ⟨compiled, result, ?_⟩
  constructor
  · intro accepted
    obtain ⟨p, present⟩ := Option.isSome_iff_exists.mp accepted
    obtain ⟨list, -, -, listed, -, quiet, -⟩ :=
      Compile.accepted_parts (result.trans (by rw [← present]))
    exact ⟨list, (Compile.sections_quiet_iff complete).mp ⟨listed, quiet⟩⟩
  · rintro ⟨list, described⟩
    obtain ⟨listed, quiet⟩ := (Compile.sections_quiet_iff complete).mpr described
    obtain ⟨p, graph, finished⟩ := Compile.finish_quiet named listed quiet
    simp only [Compile.program, listed, finished, Except.ok.injEq] at result
    rw [← result, Option.isSome_some]

/-- The negation is well formed, and two of it are not since they have two lists of states. -/
theorem compiles_iff_wellFormed_negation :
    Source.Program.negation.WellFormed ∧
      ¬Source.Program.WellFormed (.negation ++ .negation) := by
  have named : ∀ d ∈ Source.Program.negation, d.Named := by
    intro d member
    simp only [Source.Program.negation, List.mem_cons, List.not_mem_nil, or_false] at member
    rcases member with rfl | rfl | rfl <;> simp [Definition.Named, Plain]
  constructor
  · obtain ⟨compiled, result, accepted⟩ :=
      compiles_iff_wellFormed Source.Program.negation_complete named
    have present : ((Compile.program .negation []).toOption.bind
        Compile.Compiled.program).isSome = true := by decide +kernel
    rw [result] at present
    exact accepted.mp present
  · have complete : Source.Program.Complete (.negation ++ .negation) :=
      fun d member => Source.Program.negation_complete d (by simpa using member)
    obtain ⟨compiled, result, accepted⟩ :=
      compiles_iff_wellFormed complete fun d member => named d (by simpa using member)
    have absent : ((Compile.program (.negation ++ .negation) []).toOption.bind
        Compile.Compiled.program).isSome = false := by decide +kernel
    rw [result] at absent
    rw [← accepted]
    exact Bool.eq_false_iff.mp absent

end Statecraft
