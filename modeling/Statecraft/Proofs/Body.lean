import Statecraft.Compile.Action
import Statecraft.Proofs.Expression

/-! The code of the body of a when-block does what executing the body does: it makes
the same stores and moves and ends in the same way. Dropped actions make no
difference, since control never gets past the transition before them. -/
namespace Statecraft

theorem Store.find?_insert (store : Store) (name other : String) (v : Value) :
    (store.insert name v).find? other = if other = name then some v else store.find? other := by
  obtain ⟨entries⟩ := store
  simp only [Store.insert, Store.find?]
  induction entries with
  | nil =>
    by_cases same : other = name <;> simp [Store.put, List.lookup_cons, same, beq_false_of_ne]
  | cons entry rest ih =>
    obtain ⟨key, value⟩ := entry
    by_cases here : key = name
    · by_cases same : other = name <;>
        simp [Store.put, List.lookup_cons, here, same, beq_false_of_ne]
    · by_cases there : other = key
      · subst there
        simp [Store.put, here]
      · simp only [Store.put, here, if_false, List.lookup_cons, beq_false_of_ne there, ih]

theorem Store.Fits.insert {store : Store} {symbols : Symbols} {name : String} {v : Value}
    (fits : store.Fits symbols)
    (typed : ∀ s, Compile.valueSymbol? symbols name = some s → v.type = s.type) :
    (store.insert name v).Fits symbols := by
  intro other s found
  rw [Store.find?_insert]
  by_cases same : other = name
  · subst same
    exact ⟨v, if_pos rfl, typed s found⟩
  · rw [if_neg same]
    exact fits other s found

namespace Compile

open Source (Action Block Expr Execution Ending)

/-- What the code of a when-block relies on. -/
structure Scope.Holds (scope : Scope) (p : Program) (graph : Graph) : Prop where
  walks : p.graph = some graph
  typed : scope.symbols.Typed
  states : ∀ name ∈ scope.states, ∃ s, graph.find? name = some s
  sections : ∀ name ∈ scope.withBlock, ∃ i : Nat, p.code[i]? = some (.label name)

/-- Actions compiled without an error stand in the program, and the graph has their
moves to declared states. -/
structure ActionCode.Placed (c : ActionCode) (p : Program) (scope : Scope) (graph : Graph)
    (ip : Nat) (state : String) : Prop where
  segment : p.Segment ip c.code
  quiet : Quiet c.reports
  moves : ∀ target ∈ c.targets, target ∈ scope.states → graph.canMove state target = true

/-- From the situation on, control gets to the when-block of the target or the
program stops there for want of one. -/
def Arrives (p : Program) (scope : Scope) (s : Situation) (effects : List Effect) (store : Store)
    (target : String) : Prop :=
  (target ∈ scope.withBlock ∧ ∃ (n i : Nat), p.code[i]? = some (.label target) ∧
      p.Leads s n effects ⟨i, [], store, target⟩) ∨
    (target ∉ scope.withBlock ∧ ∃ n, p.Exits s n effects .finalStateReached store target)

/-- From the situation on, the program does what the execution does; if that
finishes, it goes on at `stop`. -/
def Carries (p : Program) (scope : Scope) (s : Situation) (stop : Nat) (x : Execution) : Prop :=
  x.store.Fits scope.symbols ∧
    match x.ending with
    | .finished => ∃ n, p.Leads s n x.effects ⟨stop, [], x.store, s.state⟩
    | .moved target => target ∈ scope.states ∧ Arrives p scope s x.effects x.store target
    | .failed => ∃ n, p.Exits s n x.effects .assertionFailed x.store s.state
    | .undefined => False

variable {p : Program} {scope : Scope} {graph : Graph} {store : Store} {s t : Situation}
  {state : String} {ip n : Nat} {first second : List Effect}

theorem Arrives.after {target : String} (here : p.Leads s n first t)
    (there : Arrives p scope t second store target) :
    Arrives p scope s (first ++ second) store target := by
  rcases there with ⟨member, m, i, label, leads⟩ | ⟨apart, m, exits⟩
  · exact .inl ⟨member, _, i, label, here.trans leads⟩
  · exact .inr ⟨apart, _, here.exits exits⟩

theorem Carries.after {stop : Nat} {x : Execution} (here : p.Leads s n first t)
    (same : t.state = s.state) (there : Carries p scope t stop x) :
    Carries p scope s stop { x with effects := first ++ x.effects } := by
  obtain ⟨effects, last, ending⟩ := x
  obtain ⟨fits, there⟩ := there
  refine ⟨fits, ?_⟩
  cases ending with
  | finished =>
    obtain ⟨m, leads⟩ := there
    exact ⟨_, here.trans (same ▸ leads)⟩
  | moved target => exact ⟨there.1, there.2.after here⟩
  | failed =>
    obtain ⟨m, exits⟩ := there
    exact ⟨_, here.exits (same ▸ exits)⟩
  | undefined => exact there.elim

/-- It does not matter where code ends that control never gets past. -/
theorem Carries.unfinished {stop other : Nat} {x : Execution} (ends : x.ending ≠ .finished)
    (carries : Carries p scope s stop x) : Carries p scope s other x := by
  obtain ⟨effects, last, ending⟩ := x
  cases ending with
  | finished => exact absurd rfl ends
  | moved | failed | undefined => exact carries

/-- Code that gets to its end may go on from there. -/
theorem Carries.leaving {stop other : Nat} {x : Execution}
    (leaves : ∀ store, p.Leads ⟨stop, [], store, s.state⟩ n [] ⟨other, [], store, s.state⟩)
    (carries : Carries p scope s stop x) : Carries p scope s other x := by
  obtain ⟨effects, last, ending⟩ := x
  cases ending with
  | finished =>
    obtain ⟨fits, m, leads⟩ := carries
    have further := leads.trans (leaves last)
    rw [List.append_nil] at further
    exact ⟨fits, _, further⟩
  | moved | failed | undefined => exact carries.unfinished nofun

@[simp] theorem mismatch_isError (e : Expr) (expected actual : Ty) :
    (mismatch e expected actual).isError = true := rfl

theorem condition_code (symbols : Symbols) (e : Expr) :
    (condition symbols e).code = (expr symbols e).code := by
  simp only [condition]
  split <;> rfl

/-- A condition without an error is a truth value. -/
theorem condition_boolean (typed : scope.symbols.Typed) {test : Expr} (complete : test.Complete)
    (quiet : Quiet (condition scope.symbols test).reports) :
    (expr scope.symbols test).type = .boolean := by
  simp only [condition] at quiet
  split at quiet
  · simp at quiet
  · rename_i right
    have valid := expr_valid typed complete quiet
    simpa [valid] using right

/-- The code of a condition pushes its truth value. -/
theorem condition_leads (holds : scope.Holds p graph) (fits : store.Fits scope.symbols)
    {test : Expr} (complete : test.Complete)
    (quiet : Quiet (condition scope.symbols test).reports)
    (segment : p.Segment ip (condition scope.symbols test).code) (state : String) :
    ∃ b, test.value? store = some (.boolean b) ∧
      p.Leads ⟨ip, [], store, state⟩ (condition scope.symbols test).code.length []
        ⟨ip + (condition scope.symbols test).code.length, [.boolean b], store, state⟩ := by
  have boolean := condition_boolean holds.typed complete quiet
  rw [condition_code] at segment ⊢
  have valid : (expr scope.symbols test).type.isValid = true := by rw [boolean]; rfl
  obtain ⟨v, value, type⟩ := expr_value fits valid
  have leads := expr_leads fits valid value segment [] state
  rw [boolean] at type
  cases v with
  | boolean b => exact ⟨b, value, leads⟩
  | none | number | string => contradiction

theorem transition_carries (holds : scope.Holds p graph) (fits : store.Fits scope.symbols)
    {counter : Nat} {a : Action} {target : Source.Name}
    (placed : (transition scope counter a target).Placed p scope graph ip state) :
    Carries p scope ⟨ip, [], store, state⟩ (ip + (transition scope counter a target).code.length)
      ⟨[.moved target.text], store, .moved target.text⟩ := by
  have member : target.text ∈ scope.states := by
    have quiet := placed.quiet
    simp only [transition] at quiet
    refine Decidable.byContradiction fun apart => ?_
    simp [apart, Report.isError, Report.severity, ReportKind.severity] at quiet
  obtain ⟨found, there⟩ := holds.states _ member
  have segment := placed.segment
  simp only [transition, List.cons_append, List.nil_append] at segment
  have located : p.Leads ⟨ip, [], store, state⟩ 1 [] ⟨ip + 1, [], store, state⟩ :=
    Program.leads_location segment.head
  have moves : graph.canMove state target.text = true :=
    placed.moves _ (by simp [transition]) member
  have leads := located.trans
    (Program.leads_transition holds.walks segment.tail.head there moves)
  have further := segment.tail.tail
  refine ⟨fits, member, ?_⟩
  by_cases block : target.text ∈ scope.withBlock
  · obtain ⟨i, label⟩ := holds.sections _ block
    simp only [block, if_true] at further
    exact .inl ⟨block, _, i, label, leads.trans (Program.leads_jump further.head label)⟩
  · simp only [block, if_false] at further
    exact .inr ⟨block, _, leads.exits (Program.exits_exit further.head)⟩

/-- What is known of a name that is assigned to without an error. -/
theorem assigned_quiet {symbols : Symbols} {name : Source.Name}
    (quiet : Quiet (assigned symbols name).2) :
    ∃ s, valueSymbol? symbols name.text = some s ∧ (assigned symbols name).1 = s.type := by
  simp only [assigned] at quiet ⊢
  cases found : valueSymbol? symbols name.text with
  | none => simp [found] at quiet
  | some s =>
    simp only [found] at quiet
    by_cases can : s.kind.canAssign
    · exact ⟨s, rfl, by simp [can]⟩
    · simp [can, Report.isError, Report.severity, ReportKind.severity] at quiet

theorem assignment_carries (holds : scope.Holds p graph) (fits : store.Fits scope.symbols)
    {counter : Nat} {a : Action} {name : Source.Name} {value : Expr} (complete : value.Complete)
    (placed : (assignment scope counter a name value).Placed p scope graph ip state) :
    Carries p scope ⟨ip, [], store, state⟩
      (ip + (assignment scope counter a name value).code.length)
      ((Action.assignment name value).execute store) := by
  obtain ⟨segment, quiet, -⟩ := placed
  simp only [assignment, quiet_append] at quiet
  obtain ⟨⟨problems, reports⟩, wrong⟩ := quiet
  obtain ⟨s, found, expected⟩ := assigned_quiet problems
  have valid := expr_valid holds.typed complete reports
  simp only [assignment, List.cons_append] at segment
  obtain ⟨v, evaluates, type⟩ := expr_value fits valid
  have leads := expr_leads fits valid evaluates segment.tail.left [] state
  have same : (expr scope.symbols value).type = s.type := by
    rw [expected] at wrong
    refine Decidable.byContradiction fun differ => ?_
    simp [valid, holds.typed _ _ found, Ty.assignableTo, differ] at wrong
  have whole := ((Program.leads_location segment.head).trans leads).trans
    (Program.leads_store segment.tail.right.head)
  have stop : ip + (assignment scope counter a name value).code.length =
      ip + 1 + (expr scope.symbols value).code.length + 1 := by
    simp only [assignment, List.length_cons, List.length_append, List.length_nil]
    omega
  rw [stop]
  simp only [Action.execute, evaluates]
  refine ⟨fits.insert fun s' found' => ?_, _, whole⟩
  rw [found] at found'
  cases found'
  rw [type, same]

theorem assertion_carries (holds : scope.Holds p graph) (fits : store.Fits scope.symbols)
    {counter : Nat} {a : Action} {keyword : Selection} {test : Expr} (complete : test.Complete)
    (placed : (assertion scope counter a test).Placed p scope graph ip state) :
    Carries p scope ⟨ip, [], store, state⟩ (ip + (assertion scope counter a test).code.length)
      ((Action.assertion keyword test).execute store) := by
  obtain ⟨segment, quiet, -⟩ := placed
  simp only [assertion, List.cons_append] at segment quiet
  obtain ⟨b, evaluates, leads⟩ := condition_leads holds fits complete quiet
    segment.tail.left state
  have tested := (Program.leads_location segment.head).trans leads
  have rest := segment.tail.right
  simp only [Action.execute, evaluates]
  cases b with
  | true =>
    have passed := (tested.trans (Program.leads_jumpIfNot_true rest.head)).trans
      ((Program.leads_jump rest.tail.head rest.tail.tail.tail.tail.head).trans
        (Program.leads_label rest.tail.tail.tail.tail.head))
    have stop : ip + (assertion scope counter a test).code.length =
        ip + 1 + (condition scope.symbols test).code.length + 1 + 1 + 1 + 1 + 1 := by
      simp only [assertion, List.length_cons, List.length_append, List.length_nil]
      omega
    rw [stop]
    exact ⟨fits, _, passed⟩
  | false =>
    have failed := tested.trans (Program.leads_jumpIfNot_false rest.head rest.tail.tail.head)
    exact ⟨fits, _, failed.exits ((Program.leads_label rest.tail.tail.head).exits
      (Program.exits_exit rest.tail.tail.tail.head))⟩

/-- Both branches end at the same place, the first one by a jump over the second. -/
theorem conditional_carries (holds : scope.Holds p graph) (fits : store.Fits scope.symbols)
    {counter : Nat} {keyword : Selection} {test : Expr} {body otherwise : ActionCode}
    {x y : Execution} (complete : test.Complete)
    (placed : (conditional scope counter keyword test body otherwise).Placed p scope graph ip state)
    (chosen : ∀ j, body.Placed p scope graph j state →
      Carries p scope ⟨j, [], store, state⟩ (j + body.code.length) x)
    (skipped : ∀ j, otherwise.Placed p scope graph j state →
      Carries p scope ⟨j, [], store, state⟩ (j + otherwise.code.length) y) :
    ∃ b, test.value? store = some (.boolean b) ∧
      Carries p scope ⟨ip, [], store, state⟩
        (ip + (conditional scope counter keyword test body otherwise).code.length)
        (if b then x else y) := by
  obtain ⟨segment, quiet, moves⟩ := placed
  simp only [conditional, List.cons_append, List.append_assoc, List.nil_append] at segment
  simp only [conditional, quiet_append] at quiet
  simp only [conditional, List.mem_append, or_imp, forall_and] at moves
  obtain ⟨b, evaluates, leads⟩ := condition_leads holds fits complete quiet.1.1
    segment.tail.left state
  have tested := (Program.leads_location segment.head).trans leads
  have branch := segment.tail.right
  have inner := branch.tail
  have jump := inner.right
  have other := jump.tail.tail
  have last := other.right
  have stop : ip + (conditional scope counter keyword test body otherwise).code.length =
      ip + 1 + (condition scope.symbols test).code.length + 1 + body.code.length + 1 + 1 +
        otherwise.code.length + 1 := by
    simp only [conditional, List.length_cons, List.length_append, List.length_nil]
    omega
  rw [stop]
  refine ⟨b, evaluates, ?_⟩
  cases b with
  | true =>
    have entered := tested.trans (Program.leads_jumpIfNot_true branch.head)
    have carried := (chosen _ ⟨inner.left, quiet.1.2, moves.1⟩).after entered rfl
    exact carried.leaving fun store =>
      (Program.leads_jump jump.head last.head).trans (Program.leads_label last.head)
  | false =>
    have entered := (tested.trans (Program.leads_jumpIfNot_false branch.head jump.tail.head)).trans
      (Program.leads_label jump.tail.head)
    have carried := (skipped _ ⟨other.left, quiet.2, moves.2⟩).after entered rfl
    exact carried.leaving fun store => Program.leads_label last.head

theorem andThen_finished {x : Execution} {next : Store → Execution} (ends : x.ending = .finished) :
    x.andThen next = { next x.store with effects := x.effects ++ (next x.store).effects } := by
  simp only [Execution.andThen, ends]

theorem andThen_left {x : Execution} {next : Store → Execution} (ends : x.ending ≠ .finished) :
    x.andThen next = x := by
  simp only [Execution.andThen]

mutual

/-- Control does not get past an action that ends in a transition. -/
theorem action_terminator (a : Action) (counter : Nat) (store : Store)
    (terminated : (action scope counter a).terminator ≠ none) :
    (a.execute store).ending ≠ .finished := by
  cases a with
  | transition keyword target => simp [Action.execute]
  | assignment name value => exact absurd rfl terminated
  | conditional keyword test body otherwise => exact absurd rfl terminated
  | assertion keyword test => exact absurd rfl terminated
  | nested body =>
    rw [Action.execute]
    exact block_terminator body counter store (by simpa only [action] using terminated)

theorem block_terminator (b : Block) (counter : Nat) (store : Store)
    (terminated : (block scope counter b).terminator ≠ none) :
    (b.execute store).ending ≠ .finished := by
  obtain ⟨_, body, _⟩ := b
  rw [Block.execute]
  exact actions_terminator body counter store (by simpa only [block] using terminated)

theorem actions_terminator (as : List Action) (counter : Nat) (store : Store)
    (terminated : (actions scope counter as).terminator ≠ none) :
    (Action.executeAll store as).ending ≠ .finished := by
  cases as with
  | nil => exact absurd rfl terminated
  | cons a rest =>
    rw [Action.executeAll]
    by_cases ends : (a.execute store).ending = .finished
    · rw [andThen_finished ends]
      refine actions_terminator rest (action scope counter a).counter _ ?_
      cases none : (action scope counter a).terminator with
      | none => simpa only [actions, none, ActionCode.append] using terminated
      | some target => exact absurd ends (action_terminator a counter store (by simp [none]))
    · rwa [andThen_left ends]

end

/-- Actions after one that control cannot get past are dropped. -/
theorem actions_terminated {a : Action} {counter : Nat} {target : Source.Name}
    (terminator : (action scope counter a).terminator = some target) (rest : List Action) :
    ∃ more, actions scope counter (a :: rest) =
      { action scope counter a with reports := (action scope counter a).reports ++ more } := by
  simp only [actions, terminator]
  split
  · exact ⟨[], by rw [List.append_nil, ← terminator]⟩
  · exact ⟨_, rfl⟩

mutual

/-- The code of an action does what the action does. -/
theorem action_carries (holds : scope.Holds p graph) (a : Action) (counter : Nat) {store : Store}
    (fits : store.Fits scope.symbols) (complete : a.Complete) {ip : Nat}
    (placed : (action scope counter a).Placed p scope graph ip state) :
    Carries p scope ⟨ip, [], store, state⟩ (ip + (action scope counter a).code.length)
      (a.execute store) := by
  cases a with
  | transition keyword target =>
    rw [action] at placed ⊢
    exact transition_carries holds fits placed
  | assignment name value =>
    rw [action] at placed ⊢
    exact assignment_carries holds fits complete placed
  | assertion keyword test =>
    rw [action] at placed ⊢
    exact assertion_carries holds fits complete placed
  | nested body =>
    rw [action] at placed ⊢
    exact block_carries holds body counter fits complete placed
  | conditional keyword test body otherwise =>
    cases otherwise with
    | some other =>
      simp only [Action.Complete] at complete
      obtain ⟨test', body', rest⟩ := complete
      simp only [action] at placed ⊢
      obtain ⟨b, evaluates, carries⟩ := conditional_carries holds fits test' placed
        (fun j placed => block_carries holds body _ fits body' placed)
        (fun j placed => block_carries holds other _ fits rest placed)
      rw [Action.execute, evaluates]
      cases b <;> exact carries
    | none =>
      simp only [Action.Complete] at complete
      obtain ⟨test', body', -⟩ := complete
      simp only [action] at placed ⊢
      have idle (j : Nat) : Carries p scope ⟨j, [], store, state⟩ j (.idle store .finished) :=
        ⟨fits, _, .refl _ _⟩
      obtain ⟨b, evaluates, carries⟩ := conditional_carries holds fits test' placed
        (fun j placed => block_carries holds body _ fits body' placed) (fun j _ => idle j)
      rw [Action.execute, evaluates]
      cases b <;> exact carries

theorem block_carries (holds : scope.Holds p graph) (b : Block) (counter : Nat) {store : Store}
    (fits : store.Fits scope.symbols) (complete : b.Complete) {ip : Nat}
    (placed : (block scope counter b).Placed p scope graph ip state) :
    Carries p scope ⟨ip, [], store, state⟩ (ip + (block scope counter b).code.length)
      (b.execute store) := by
  obtain ⟨_, body, _⟩ := b
  rw [block] at placed ⊢
  rw [Block.execute]
  exact actions_carries holds body counter fits complete placed

theorem actions_carries (holds : scope.Holds p graph) (as : List Action) (counter : Nat)
    {store : Store} (fits : store.Fits scope.symbols) (complete : Action.AllComplete as) {ip : Nat}
    (placed : (actions scope counter as).Placed p scope graph ip state) :
    Carries p scope ⟨ip, [], store, state⟩ (ip + (actions scope counter as).code.length)
      (Action.executeAll store as) := by
  cases as with
  | nil => exact ⟨fits, _, .refl _ _⟩
  | cons a rest =>
    rw [Action.executeAll]
    obtain ⟨here, there⟩ := complete
    cases terminator : (action scope counter a).terminator with
    | some target =>
      obtain ⟨more, same⟩ := actions_terminated terminator rest
      rw [same] at placed ⊢
      obtain ⟨segment, quiet, moves⟩ := placed
      have ends : (a.execute store).ending ≠ .finished :=
        action_terminator a counter store (by rw [terminator]; nofun)
      rw [andThen_left ends]
      exact action_carries holds a counter fits here ⟨segment, (quiet_append.mp quiet).1, moves⟩
    | none =>
      obtain ⟨segment, quiet, moves⟩ := placed
      simp only [actions, terminator, ActionCode.append] at segment quiet moves ⊢
      simp only [List.mem_append, or_imp, forall_and] at moves
      have carries := action_carries holds a counter fits here
        ⟨segment.left, (quiet_append.mp quiet).1, moves.1⟩
      by_cases ends : (a.execute store).ending = .finished
      · have fits' := carries.1
        obtain ⟨n, leads⟩ : ∃ n, p.Leads ⟨ip, [], store, state⟩ n (a.execute store).effects
            ⟨ip + (action scope counter a).code.length, [], (a.execute store).store, state⟩ := by
          simpa only [Carries, ends] using carries.2
        have further := actions_carries holds rest (action scope counter a).counter fits' there
          ⟨segment.right, (quiet_append.mp quiet).2, moves.2⟩
        rw [andThen_finished ends, List.length_append, ← Nat.add_assoc]
        exact further.after leads rfl
      · rw [andThen_left ends]
        exact carries.unfinished ends

end

end Compile
end Statecraft
