import Statecraft.Compile.Program
import Statecraft.Proofs.Body

/-! What the definitions outside of when-blocks amount to when nothing is wrong with
them. Their code stores the initial values in source order and leaves every variable
and constant with a value of its type; the graph has the states of the only list, in
order and without moves. -/
namespace Statecraft

def Symbols.typeOf? (symbols : Symbols) (name : String) : Option Ty :=
  (Compile.valueSymbol? symbols name).map Symbol.type

theorem Symbols.typed_iff {symbols : Symbols} :
    symbols.Typed ↔ ∀ name t, symbols.typeOf? name = some t → t.isValid = true := by
  simp only [Symbols.Typed, Symbols.typeOf?, Option.map_eq_some_iff]
  exact ⟨fun typed name t ⟨s, found, same⟩ => same ▸ typed name s found,
    fun typed name s found => typed name s.type ⟨s, found, rfl⟩⟩

theorem Store.fits_iff {store : Store} {symbols : Symbols} :
    store.Fits symbols ↔ ∀ name t, symbols.typeOf? name = some t →
      ∃ v, store.find? name = some v ∧ v.type = t := by
  simp only [Store.Fits, Symbols.typeOf?, Option.map_eq_some_iff]
  exact ⟨fun fits name t ⟨s, found, same⟩ => same ▸ fits name s found,
    fun fits name s found => fits name s.type ⟨s, found, rfl⟩⟩

namespace Symbols

variable {symbols : Symbols}

theorem find?_use (symbols : Symbols) (name other : String) :
    (symbols.use name).find? other =
      (symbols.find? other).map fun s => if s.name = name then { s with used := true } else s := by
  have names : (fun s : Symbol => decide (s.name = other)) ∘
      (fun s => if s.name = name then { s with used := true } else s) =
      fun s => decide (s.name = other) := by
    funext s
    simp only [Function.comp]
    split <;> rfl
  simp only [find?, use, List.find?_map, names]

theorem typeOf?_use (symbols : Symbols) (name other : String) :
    (symbols.use name).typeOf? other = symbols.typeOf? other := by
  simp only [typeOf?, Compile.valueSymbol?, find?_use]
  cases symbols.find? other with
  | none => rfl
  | some s =>
    by_cases marked : s.name = name <;> by_cases kind : s.kind = .state <;>
      simp [Option.filter, marked, kind]

theorem typeOf?_useAll (symbols : Symbols) (names : List String) (other : String) :
    (symbols.useAll names).typeOf? other = symbols.typeOf? other := by
  induction names generalizing symbols with
  | nil => rfl
  | cons name rest ih => exact (ih (symbols.use name)).trans (typeOf?_use symbols name other)

/-- A new name has its own type, and the others keep theirs. -/
theorem typeOf?_define {next : Symbols} {s : Symbol} (defined : symbols.define s = .ok next)
    (other : String) :
    next.typeOf? other =
      if other = s.name then (if s.kind = .state then none else some s.type)
      else symbols.typeOf? other := by
  simp only [define] at defined
  split at defined
  · contradiction
  · rename_i free
    cases defined
    simp only [typeOf?, Compile.valueSymbol?, find?, List.find?_append] at free ⊢
    by_cases same : other = s.name
    · subst same
      by_cases kind : s.kind = .state
      · simp [free, kind]
      · simp only [free, kind]
        simp [Option.filter, kind]
    · have apart : s.name ≠ other := fun h => same h.symm
      simp [same, apart]

/-- The name of a state has no value before or after it is declared. -/
theorem typeOf?_define_state {next : Symbols} {s : Symbol} (kind : s.kind = .state)
    (defined : symbols.define s = .ok next) (other : String) :
    next.typeOf? other = symbols.typeOf? other := by
  rw [typeOf?_define defined]
  split
  · rename_i same
    subst same
    simp only [define] at defined
    split at defined
    · contradiction
    · rename_i free
      simp [typeOf?, Compile.valueSymbol?, free]
  · rfl

end Symbols

namespace Compile.Declared

open Source (Definition StateList StateEntry Declaration)

variable {d : Declared} {p : Program} {store : Store}

theorem addStates_typeOf? (keyword : Selection) (entries : List StateEntry)
    (repeated : List String) (d : Declared) (name : String) :
    (addStates keyword entries repeated d).symbols.typeOf? name = d.symbols.typeOf? name := by
  induction entries generalizing repeated d with
  | nil => rfl
  | cons s rest ih =>
    simp only [addStates]
    split
    · split <;> exact ih _ _
    · split
      · exact ih _ _
      · rename_i symbols defined
        exact (ih _ _).trans (Symbols.typeOf?_define_state rfl defined name)

theorem addStates_code (keyword : Selection) (entries : List StateEntry) (repeated : List String)
    (d : Declared) : (addStates keyword entries repeated d).code = d.code := by
  induction entries generalizing repeated d with
  | nil => rfl
  | cons s rest ih =>
    simp only [addStates]
    split
    · split <;> exact ih _ _
    · split <;> exact ih _ _

theorem addStates_reports (keyword : Selection) (entries : List StateEntry)
    (repeated : List String) (d : Declared) :
    d.reports <+: (addStates keyword entries repeated d).reports := by
  induction entries generalizing repeated d with
  | nil => exact List.prefix_refl _
  | cons s rest ih =>
    simp only [addStates]
    split
    · split
      · exact ih _ _
      · refine List.IsPrefix.trans ?_ (ih _ _)
        exact List.prefix_append _ _
    · split <;> refine List.IsPrefix.trans ?_ (ih _ _)
      · exact List.prefix_append _ _
      · exact List.prefix_refl _

theorem states_typeOf? (d : Declared) (list : StateList) (name : String) :
    (d.states list).symbols.typeOf? name = d.symbols.typeOf? name := by
  simp only [states]
  split
  · rfl
  · split <;> exact addStates_typeOf? _ _ _ _ _

theorem states_code (d : Declared) (list : StateList) : (d.states list).code = d.code := by
  simp only [states]
  split
  · rfl
  · split <;> exact addStates_code _ _ _ _

/-- Nothing that was reported is forgotten. -/
theorem add_reports (d : Declared) (x : Definition) : d.reports <+: (d.add x).reports := by
  cases x with
  | states list =>
    simp only [add, states]
    split
    · exact List.prefix_append _ _
    · have grown := addStates_reports list.keyword list.states [] { d with list := some list }
      split
      · exact grown.trans (List.prefix_append _ _)
      · exact grown
  | declaration x =>
    simp only [add, declaration]
    split <;> exact List.prefix_append _ _
  | whenBlock b => exact List.prefix_refl _

theorem foldl_reports (xs : List Definition) (d : Declared) :
    d.reports <+: (xs.foldl add d).reports := by
  induction xs generalizing d with
  | nil => exact List.prefix_refl _
  | cons x rest ih => exact (add_reports d x).trans (ih (d.add x))

def declarationCode (d : Declared) (x : Declaration) : List Instruction :=
  .location x.span :: (expr d.symbols x.value).code ++ [.store x.name.text]

/-- Without an error a declaration has an initial value with a type, its code is added
and its name gets that type. -/
theorem declaration_quiet {x : Declaration} (typed : d.symbols.Typed)
    (complete : x.value.Complete) (quiet : Quiet (d.declaration x).reports) :
    (expr d.symbols x.value).type.isValid = true ∧
      (d.declaration x).code = d.code ++ d.declarationCode x ∧
      ∀ name, (d.declaration x).symbols.typeOf? name =
        if name = x.name.text then some (expr d.symbols x.value).type
        else d.symbols.typeOf? name := by
  simp only [declaration] at quiet ⊢
  split at quiet
  · simp [report, Report.isError, Report.severity, ReportKind.severity] at quiet
  · rename_i symbols defined
    refine ⟨expr_valid typed complete (quiet_append.mp quiet).2, by simp [declarationCode], ?_⟩
    intro name
    rw [Symbols.typeOf?_define defined, Symbols.typeOf?_useAll]
    cases x.storage <;> simp

theorem declaration_typed {x : Declaration} (typed : d.symbols.Typed)
    (complete : x.value.Complete) (quiet : Quiet (d.declaration x).reports) :
    (d.declaration x).symbols.Typed := by
  obtain ⟨valid, -, typeOf⟩ := declaration_quiet typed complete quiet
  rw [Symbols.typed_iff] at typed ⊢
  intro name t found
  rw [typeOf] at found
  split at found
  · cases found
    exact valid
  · exact typed name t found

theorem states_typed (typed : d.symbols.Typed) (list : StateList) :
    (d.states list).symbols.Typed := by
  rw [Symbols.typed_iff] at typed ⊢
  simpa only [states_typeOf? d list] using typed

/-- The code of a declaration stores its initial value, and the new name is stored
with a value of its type. -/
theorem declaration_leads {x : Declaration} (typed : d.symbols.Typed) (fits : store.Fits d.symbols)
    (complete : x.value.Complete) (quiet : Quiet (d.declaration x).reports) :
    ∃ v, x.value.value? store = some v ∧
      (store.insert x.name.text v).Fits (d.declaration x).symbols ∧
      ∀ (p : Program) ip state, p.Segment ip (d.declarationCode x) →
        ∃ n, p.Leads ⟨ip, [], store, state⟩ n [.stored x.name.text v]
          ⟨ip + (d.declarationCode x).length, [], store.insert x.name.text v, state⟩ := by
  obtain ⟨valid, -, typeOf⟩ := declaration_quiet typed complete quiet
  obtain ⟨v, value, type⟩ := expr_value fits valid
  refine ⟨v, value, ?_, ?_⟩
  · rw [Store.fits_iff] at fits ⊢
    intro name t found
    rw [typeOf] at found
    rw [Store.find?_insert]
    split at found
    · rename_i same
      cases found
      exact ⟨v, if_pos same, type⟩
    · rename_i apart
      rw [if_neg apart]
      exact fits name t found
  · intro p ip state segment
    have leads := expr_leads fits valid value segment.tail.left [] state
    have whole := ((Program.leads_location segment.head).trans leads).trans
      (Program.leads_store segment.tail.right.head)
    have stop : ip + (d.declarationCode x).length =
        ip + 1 + (expr d.symbols x.value).code.length + 1 := by
      simp only [declarationCode, List.length_cons, List.length_append, List.length_nil]
      omega
    rw [stop]
    exact ⟨_, whole⟩

/-- The code of all declarations stores the initial values in source order. -/
theorem foldl_leads (xs : List Definition) (typed : d.symbols.Typed)
    (fits : store.Fits d.symbols) (complete : ∀ x ∈ xs, x.Complete)
    (quiet : Quiet (xs.foldl add d).reports) :
    ∃ code effects last, (xs.foldl add d).code = d.code ++ code ∧
      Declaration.storeAll store (Source.Program.declarations xs) = some (effects, last) ∧
      (xs.foldl add d).symbols.Typed ∧ last.Fits (xs.foldl add d).symbols ∧
      ∀ (p : Program) ip state, p.Segment ip code →
        ∃ n, p.Leads ⟨ip, [], store, state⟩ n effects ⟨ip + code.length, [], last, state⟩ := by
  induction xs generalizing d store with
  | nil =>
    exact ⟨[], [], store, by simp, rfl, typed, fits, fun p ip state _ => ⟨0, .refl _ _⟩⟩
  | cons x rest ih =>
    have later : ∀ y ∈ rest, y.Complete :=
      fun y member => complete y (List.mem_cons_of_mem _ member)
    have here : Quiet (d.add x).reports := quiet.of_prefix (foldl_reports rest (d.add x))
    cases x with
    | states list =>
      have typed := states_typed typed list
      have fits : store.Fits (d.states list).symbols := by
        rw [Store.fits_iff] at fits ⊢
        simpa only [states_typeOf? d list] using fits
      obtain ⟨code, effects, last, grown, stored, typed', fits', leads⟩ := ih typed fits later quiet
      rw [states_code] at grown
      exact ⟨code, effects, last, grown, stored, typed', fits', leads⟩
    | whenBlock b => exact ih typed fits later quiet
    | declaration x =>
      have first := complete _ List.mem_cons_self
      obtain ⟨v, value, fits, leads⟩ := declaration_leads typed fits first here
      obtain ⟨code, effects, last, grown, stored, typed', fits', leads'⟩ :=
        ih (declaration_typed typed first here) fits later quiet
      refine ⟨d.declarationCode x ++ code, .stored x.name.text v :: effects, last, ?_, ?_, typed',
        fits', ?_⟩
      · rw [List.foldl_cons, ← List.append_assoc, ← (declaration_quiet typed first here).2.1]
        exact grown
      · simp only [Source.Program.declarations] at stored ⊢
        simp only [List.filterMap_cons, Declaration.storeAll, value, stored, Option.map_some]
      · intro p ip state segment
        obtain ⟨n, here⟩ := leads p ip state segment.left
        obtain ⟨m, there⟩ := leads' p _ state segment.right
        rw [List.length_append, ← Nat.add_assoc]
        exact ⟨_, here.trans there⟩

/-- Without an error every state of the list is added, in order. -/
theorem addStates_graph {keyword : Selection} {entries : List StateEntry}
    (fresh : d.graph.consumed = false)
    (quiet : Quiet (addStates keyword entries [] d).reports) :
    (addStates keyword entries [] d).graph.states.map State.name =
        d.graph.states.map State.name ++ entries.map (fun s => s.name.text) ∧
      (addStates keyword entries [] d).graph.moves = d.graph.moves ∧
      (addStates keyword entries [] d).graph.consumed = false := by
  induction entries generalizing d with
  | nil => simp [addStates, fresh]
  | cons s rest ih =>
    simp only [addStates] at quiet ⊢
    split at quiet
    · -- A repeated name is reported when it is met first.
      have kept := quiet.of_prefix (addStates_reports keyword rest _ _)
      simp [report, Report.isError, Report.severity, ReportKind.severity] at kept
    · rename_i new
      have new : d.graph.hasState s.name.text = false := by simpa using new
      split at quiet
      · have kept := quiet.of_prefix (addStates_reports keyword rest _ _)
        simp [report, Report.isError, Report.severity, ReportKind.severity] at kept
      · rename_i symbols defined
        simp only [new, Bool.false_eq_true, if_false]
        obtain ⟨names, moves, consumed⟩ := ih (by simp [Graph.Builder.withState,
          Graph.Builder.addState, fresh, new, Except.toOption]) quiet
        refine ⟨?_, ?_, consumed⟩
        · rw [names]
          simp [Graph.Builder.withState, Graph.Builder.addState, fresh, new, Except.toOption]
        · rw [moves]
          simp [Graph.Builder.withState, Graph.Builder.addState, fresh, new, Except.toOption]

theorem addStates_list (keyword : Selection) (entries : List StateEntry) (repeated : List String)
    (d : Declared) : (addStates keyword entries repeated d).list = d.list := by
  induction entries generalizing repeated d with
  | nil => rfl
  | cons s rest ih =>
    simp only [addStates]
    split
    · split <;> exact ih _ _
    · split <;> exact ih _ _

/-- Once there is a list of states, no definition without an error changes it or
the graph. -/
theorem foldl_listed (xs : List Definition) {list : StateList} (listed : d.list = some list)
    (quiet : Quiet (xs.foldl add d).reports) :
    (xs.foldl add d).graph = d.graph ∧ (xs.foldl add d).list = some list := by
  induction xs generalizing d with
  | nil => exact ⟨rfl, listed⟩
  | cons x rest ih =>
    have here : Quiet (d.add x).reports := quiet.of_prefix (foldl_reports rest (d.add x))
    cases x with
    | states other =>
      simp [add, states, listed, report, Report.isError, Report.severity, ReportKind.severity]
        at here
    | whenBlock b => exact ih listed quiet
    | declaration x =>
      have same : (d.declaration x).graph = d.graph ∧ (d.declaration x).list = some list := by
        simp only [declaration]
        split <;> exact ⟨rfl, listed⟩
      obtain ⟨graph, list'⟩ := ih same.2 quiet
      exact ⟨graph.trans same.1, list'⟩

/-- The states of the graph are those of the only list. The first one is the
initial state, and there are no moves yet. -/
structure Listed (d : Declared) (xs : List Definition) : Prop where
  names : ∃ list, .states list ∈ xs ∧
    d.graph.states.map State.name = list.states.map fun s => s.name.text
  initial : (d.graph.states.map State.name).head? = Source.Program.initialState? xs
  several : 2 ≤ d.graph.states.length
  moves : d.graph.moves = []
  fresh : d.graph.consumed = false

theorem foldl_states (xs : List Definition) {list : StateList} (unlisted : d.list = none)
    (empty : d.graph = .empty) (quiet : Quiet (xs.foldl add d).reports)
    (listed : (xs.foldl add d).list = some list) : (xs.foldl add d).Listed xs := by
  induction xs generalizing d with
  | nil => simp [unlisted] at listed
  | cons x rest ih =>
    have here : Quiet (d.add x).reports := quiet.of_prefix (foldl_reports rest (d.add x))
    cases x with
    | whenBlock b =>
      obtain ⟨⟨other, member, names⟩, initial, several, moves, fresh⟩ :=
        ih unlisted empty quiet listed
      exact ⟨⟨other, List.mem_cons_of_mem _ member, names⟩, initial, several, moves, fresh⟩
    | declaration x =>
      have same : (d.declaration x).graph = .empty ∧ (d.declaration x).list = none := by
        simp only [declaration]
        split <;> exact ⟨empty, unlisted⟩
      obtain ⟨⟨other, member, names⟩, initial, several, moves, fresh⟩ :=
        ih same.2 same.1 quiet listed
      exact ⟨⟨other, List.mem_cons_of_mem _ member, names⟩, initial, several, moves, fresh⟩
    | states other =>
      simp only [add, states, unlisted, Option.isSome_none, Bool.false_eq_true, if_false] at here
      split at here
      · simp [report, Report.isError, Report.severity, ReportKind.severity] at here
      · rename_i several
        have added : d.add (.states other) =
            addStates other.keyword other.states [] { d with list := some other } := by
          simp [add, states, unlisted, several]
        obtain ⟨names, moves, consumed⟩ :=
          addStates_graph (by simp [empty, Graph.Builder.empty]) here
        have same := (foldl_listed rest (by rw [added, addStates_list]) quiet).1
        rw [added] at same
        refine ⟨⟨other, List.mem_cons_self, ?_⟩, ?_, ?_, ?_, ?_⟩ <;>
          rw [List.foldl_cons, added, same]
        · rw [names]
          simp only [empty, Graph.Builder.empty, List.map_nil, List.nil_append]
        · rw [names]
          simp only [empty, Graph.Builder.empty, List.map_nil, List.nil_append]
          cases entries : other.states with
          | nil => simp [entries, addStates, empty, Graph.Builder.empty] at several
          | cons s more => simp [Source.Program.initialState?, entries]
        · omega
        · rw [moves]
          simp only [empty, Graph.Builder.empty]
        · exact consumed

/-- Where there are no names, nothing has to be stored. -/
theorem empty_typed : Symbols.empty.Typed ∧ Store.empty.Fits .empty := by
  have none (name : String) : valueSymbol? .empty name = none := rfl
  exact ⟨fun name s found => by simp [none] at found, fun name s found => by simp [none] at found⟩

end Compile.Declared
end Statecraft
