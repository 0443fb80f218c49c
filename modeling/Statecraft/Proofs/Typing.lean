import Statecraft.Compile.Program
import Statecraft.Proofs.Body

/-! Which expressions have a type and which actions are well formed, said without the
compiler. Compiling reports no error about an expression or an action if and only if it
is one of these. -/
namespace Statecraft.Source

abbrev Environment := String → Option (Storage × Ty)

namespace Environment

def empty : Environment := fun _ => none

def add (env : Environment) (name : String) (storage : Storage) (t : Ty) : Environment :=
  fun other => if other = name then some (storage, t) else env other

def Valid (env : Environment) : Prop := ∀ name storage t, env name = some (storage, t) → t.isValid

end Environment

/-- The expression has the type by the tables of the operators. -/
inductive HasType (env : Environment) : Expr → Ty → Prop where
  | number {value : Float} {span : Selection} : HasType env (.number value span) .number
  | boolean {value : Bool} {span : Selection} : HasType env (.boolean value span) .boolean
  | string {value : String} {span : Selection} : HasType env (.string value span) .string
  | ref {name : Name} {storage : Storage} {t : Ty} (found : env name.text = some (storage, t)) :
      HasType env (.ref name) t
  | unary {op : UnaryOp} {opSpan : Selection} {operand : Expr} {t : Ty} {meaning : UnaryMeaning}
      (inner : HasType env operand t) (defined : op.meaning? t = some meaning) :
      HasType env (.unary op opSpan operand) meaning.result
  | binary {op : BinaryOp} {opSpan : Selection} {left right : Expr} {l r : Ty}
      {meaning : BinaryMeaning} (first : HasType env left l) (second : HasType env right r)
      (defined : op.meaning? l r = some meaning) :
      HasType env (.binary op opSpan left right) meaning.result

mutual

/-- Control does not get past the action. It is a transition or a bare block with such
an action, which is then the last live one of the block. -/
def Action.leaves : Action → Bool
  | .transition .. => true
  | .nested body => body.leaves
  | .assignment .. | .conditional .. | .assertion .. => false

def Block.leaves : Block → Bool
  | .braces _ actions _ => Action.someLeaves actions

def Action.someLeaves : List Action → Bool
  | [] => false
  | a :: rest => a.leaves || Action.someLeaves rest

end

/-- The live actions among those of a block: all up to the first that leaves it. -/
def Action.live : List Action → List Action
  | [] => []
  | a :: rest => if a.leaves then [a] else a :: Action.live rest

mutual

/-- The action and the live actions inside of it are well formed. -/
inductive Action.WellFormed (env : Environment) (states : List String) : Action → Prop where
  | transition {keyword : Selection} {target : Name} (declared : target.text ∈ states) :
      Action.WellFormed env states (.transition keyword target)
  | assignment {name : Name} {value : Expr} {t : Ty}
      (assignable : env name.text = some (.assignable, t)) (typed : HasType env value t) :
      Action.WellFormed env states (.assignment name value)
  | conditional {keyword : Selection} {test : Expr} {body : Block} {otherwise : Option Block}
      (boolean : HasType env test .boolean) (first : Block.WellFormed env states body)
      (second : ∀ other ∈ otherwise, Block.WellFormed env states other) :
      Action.WellFormed env states (.conditional keyword test body otherwise)
  | assertion {keyword : Selection} {test : Expr} (boolean : HasType env test .boolean) :
      Action.WellFormed env states (.assertion keyword test)
  | nested {body : Block} (inner : Block.WellFormed env states body) :
      Action.WellFormed env states (.nested body)

inductive Block.WellFormed (env : Environment) (states : List String) : Block → Prop where
  | braces {opening closing : Selection} {actions : List Action}
      (live : ∀ a ∈ Action.live actions, Action.WellFormed env states a) :
      Block.WellFormed env states (.braces opening actions closing)

end

def Storage.kind : Storage → SymbolKind
  | fixed => .constant
  | assignable => .mutable

end Statecraft.Source

namespace Statecraft

open Source (Environment HasType Expr Action Block Storage)

/-- The table has the constants and variables of the environment. -/
def Symbols.Shows (symbols : Symbols) (env : Environment) : Prop :=
  ∀ name, (Compile.valueSymbol? symbols name).map (fun s => (s.kind, s.type)) =
    (env name).map fun v => (v.1.kind, v.2)

variable {symbols : Symbols} {env : Environment}

namespace Symbols.Shows

theorem found (shows : symbols.Shows env) {name : String} {storage : Storage} {t : Ty}
    (kept : env name = some (storage, t)) :
    ∃ s, Compile.valueSymbol? symbols name = some s ∧ s.kind = storage.kind ∧ s.type = t := by
  have same := shows name
  rw [kept, Option.map_some, Option.map_eq_some_iff] at same
  obtain ⟨s, found, both⟩ := same
  simp only [Prod.mk.injEq] at both
  exact ⟨s, found, both⟩

theorem kept (shows : symbols.Shows env) {name : String} {s : Symbol}
    (found : Compile.valueSymbol? symbols name = some s) :
    ∃ storage, env name = some (storage, s.type) ∧ s.kind = storage.kind := by
  have same := (shows name).symm
  rw [found, Option.map_some, Option.map_eq_some_iff] at same
  obtain ⟨⟨storage, t⟩, kept, both⟩ := same
  simp only [Prod.mk.injEq] at both
  obtain ⟨kind, rfl⟩ := both
  exact ⟨storage, kept, kind.symm⟩

theorem typed (shows : symbols.Shows env) (valid : env.Valid) : symbols.Typed := by
  intro name s found
  obtain ⟨storage, kept, -⟩ := shows.kept found
  exact valid name storage s.type kept

end Symbols.Shows

namespace Compile

/-- Nothing is wrong with an expression that has a type. -/
theorem expr_hasType (shows : symbols.Shows env) (valid : env.Valid) {e : Expr} {t : Ty}
    (typed : HasType env e t) :
    (expr symbols e).type = t ∧ t.isValid = true ∧ Quiet (expr symbols e).reports := by
  induction typed with
  | number | boolean | string => exact ⟨rfl, rfl, quiet_nil⟩
  | ref kept =>
    obtain ⟨s, found, -, type⟩ := shows.found kept
    simp only [expr, found]
    exact ⟨type, valid _ _ _ kept, quiet_nil⟩
  | unary inner defined ih =>
    obtain ⟨type, inside, quiet⟩ := ih
    simp only [expr, type, inside, defined, Bool.not_true, Bool.false_eq_true, if_false]
    exact ⟨trivial, UnaryOp.result_valid defined, quiet⟩
  | binary first second defined ihl ihr =>
    obtain ⟨left, validl, quietl⟩ := ihl
    obtain ⟨right, validr, quietr⟩ := ihr
    simp only [expr, left, right, validl, validr, defined, Bool.not_true, Bool.or_self,
      Bool.false_eq_true, if_false]
    exact ⟨trivial, BinaryOp.result_valid defined, quiet_append.mpr ⟨quietl, quietr⟩⟩

theorem hasType_of_valid (shows : symbols.Shows env) {e : Expr}
    (valid : (expr symbols e).type.isValid = true) : HasType env e (expr symbols e).type := by
  induction e with
  | number => exact .number
  | boolean => exact .boolean
  | string => exact .string
  | ref name =>
    cases found : valueSymbol? symbols name.text with
    | none => simp [expr, found, Ty.isValid] at valid
    | some s =>
      obtain ⟨storage, kept, -⟩ := shows.kept found
      simp only [expr, found]
      exact .ref kept
  | unary op opSpan operand ih =>
    obtain ⟨inside, meaning, defined, type, -⟩ := expr_unary valid
    rw [type]
    exact .unary (ih inside) defined
  | binary op opSpan left right ihl ihr =>
    obtain ⟨validl, validr, meaning, defined, type, -⟩ := expr_binary valid
    rw [type]
    exact .binary (ihl validl) (ihr validr) defined
  | invalid => simp [expr, Ty.isValid] at valid

/-- A complete expression about which nothing is reported has the type it gets. -/
theorem hasType_of_quiet (shows : symbols.Shows env) (valid : env.Valid) {e : Expr}
    (complete : e.Complete) (quiet : Quiet (expr symbols e).reports) :
    HasType env e (expr symbols e).type :=
  hasType_of_valid shows (expr_valid (shows.typed valid) complete quiet)

theorem condition_quiet_iff (shows : symbols.Shows env) (valid : env.Valid) {test : Expr}
    (complete : test.Complete) :
    Quiet (condition symbols test).reports ↔ HasType env test .boolean := by
  constructor
  · intro quiet
    simp only [condition] at quiet
    split at quiet
    · simp at quiet
    · rename_i right
      have typed := hasType_of_quiet shows valid complete quiet
      have inside := (expr_hasType shows valid typed).2.1
      have boolean : (expr symbols test).type = .boolean := by simpa [inside] using right
      rwa [boolean] at typed
  · intro typed
    obtain ⟨boolean, -, quiet⟩ := expr_hasType shows valid typed
    simpa [condition, boolean] using quiet

variable {scope : Scope}

theorem transition_quiet_iff {counter : Nat} {a : Action} {target : Source.Name} :
    Quiet (transition scope counter a target).reports ↔ target.text ∈ scope.states := by
  simp only [transition]
  by_cases declared : target.text ∈ scope.states
  · simp [declared]
  · simp [declared, Report.isError, Report.severity, ReportKind.severity]

/-- Only a variable can be assigned to. -/
theorem assigned_quiet_iff (shows : symbols.Shows env) {name : Source.Name} {t : Ty} :
    (assigned symbols name).1 = t ∧ Quiet (assigned symbols name).2 ↔
      env name.text = some (.assignable, t) := by
  constructor
  · rintro ⟨rfl, quiet⟩
    simp only [assigned] at quiet ⊢
    cases found : valueSymbol? symbols name.text with
    | none => simp [found] at quiet
    | some s =>
      obtain ⟨storage, kept, kind⟩ := shows.kept found
      cases storage with
      | fixed =>
        simp [found, kind, Storage.kind, SymbolKind.canAssign, Report.isError, Report.severity,
          ReportKind.severity] at quiet
      | assignable => simpa [kind, Storage.kind, SymbolKind.canAssign] using kept
  · intro kept
    obtain ⟨s, found, kind, type⟩ := shows.found kept
    simp [assigned, found, kind, Storage.kind, SymbolKind.canAssign, type]

theorem assignment_quiet_iff (shows : scope.symbols.Shows env) (valid : env.Valid) {counter : Nat}
    {a : Action} {name : Source.Name} {value : Expr} (complete : value.Complete) :
    Quiet (assignment scope counter a name value).reports ↔
      ∃ t, env name.text = some (.assignable, t) ∧ HasType env value t := by
  simp only [assignment, quiet_append]
  constructor
  · rintro ⟨⟨target, quiet⟩, right⟩
    have kept := (assigned_quiet_iff shows).mp ⟨rfl, target⟩
    have typed := hasType_of_quiet shows valid complete quiet
    have inside := (expr_hasType shows valid typed).2.1
    have expected := valid _ _ _ kept
    -- both types are valid, so only equal ones leave nothing to report
    have same : (expr scope.symbols value).type = (assigned scope.symbols name).1 := by
      refine Decidable.byContradiction fun apart => ?_
      simp [inside, expected, Ty.assignableTo, apart] at right
    exact ⟨_, kept, same ▸ typed⟩
  · rintro ⟨t, kept, typed⟩
    obtain ⟨expected, target⟩ := (assigned_quiet_iff shows).mpr kept
    obtain ⟨type, inside, quiet⟩ := expr_hasType shows valid typed
    refine ⟨⟨target, quiet⟩, ?_⟩
    simp [expected, type, inside, Ty.assignableTo]

mutual

/-- Control gets past an action unless it leaves its block. -/
theorem action_leaves (a : Action) (counter : Nat) :
    (action scope counter a).terminator.isSome = a.leaves := by
  cases a with
  | transition | assignment | conditional | assertion => rfl
  | nested body =>
    rw [action, Action.leaves]
    exact block_leaves body counter

theorem block_leaves (b : Block) (counter : Nat) :
    (block scope counter b).terminator.isSome = b.leaves := by
  obtain ⟨_, body, _⟩ := b
  rw [block, Block.leaves]
  exact actions_leave body counter

theorem actions_leave (as : List Action) (counter : Nat) :
    (actions scope counter as).terminator.isSome = Action.someLeaves as := by
  cases as with
  | nil => rfl
  | cons a rest =>
    have first := action_leaves a counter
    have others := actions_leave rest (action scope counter a).counter
    rw [actions, Action.someLeaves]
    cases stops : (action scope counter a).terminator with
    | none =>
      simp only [stops, Option.isSome_none] at first
      simpa only [← first, Bool.false_or, ActionCode.append] using others
    | some target =>
      simp only [stops, Option.isSome_some] at first
      rw [← first, Bool.true_or]
      dsimp only
      split <;> simp [stops]

end

/-- Only the actions that leave no way past them hide those after them. -/
theorem actions_cons_quiet_iff (a : Action) (rest : List Action) (counter : Nat) :
    Quiet (actions scope counter (a :: rest)).reports ↔
      Quiet (action scope counter a).reports ∧
        (a.leaves = false → Quiet (actions scope (action scope counter a).counter rest).reports) := by
  rw [actions, ← action_leaves a counter]
  cases stops : (action scope counter a).terminator with
  | none => simp [ActionCode.append]
  | some target =>
    dsimp only
    split
    · simp
    · simp [unreachable, Report.isError, Report.severity, ReportKind.severity]

mutual

/-- No error is reported about an action if and only if it is well formed. -/
theorem action_quiet_iff (shows : scope.symbols.Shows env) (valid : env.Valid) (a : Action)
    (complete : a.Complete) (counter : Nat) :
    Quiet (action scope counter a).reports ↔ a.WellFormed env scope.states := by
  cases a with
  | transition keyword target =>
    rw [action, transition_quiet_iff]
    exact ⟨.transition, fun | .transition declared => declared⟩
  | assignment name value =>
    rw [action, assignment_quiet_iff shows valid complete]
    exact ⟨fun ⟨_, kept, typed⟩ => .assignment kept typed,
      fun | .assignment kept typed => ⟨_, kept, typed⟩⟩
  | assertion keyword test =>
    rw [action, assertion, condition_quiet_iff shows valid complete]
    exact ⟨.assertion, fun | .assertion boolean => boolean⟩
  | nested body =>
    rw [action, block_quiet_iff shows valid body complete]
    exact ⟨.nested, fun | .nested inner => inner⟩
  | conditional keyword test body otherwise =>
    cases otherwise with
    | none =>
      simp only [Action.Complete, and_true] at complete
      obtain ⟨tests, first⟩ := complete
      simp only [action, conditional, quiet_append, condition_quiet_iff shows valid tests,
        block_quiet_iff shows valid body first]
      constructor
      · rintro ⟨⟨boolean, inner⟩, -⟩
        exact .conditional boolean inner nofun
      · intro formed
        cases formed with
        | conditional boolean inner => exact ⟨⟨boolean, inner⟩, quiet_nil⟩
    | some other =>
      simp only [Action.Complete] at complete
      obtain ⟨tests, first, second⟩ := complete
      simp only [action, conditional, quiet_append, condition_quiet_iff shows valid tests,
        block_quiet_iff shows valid body first, block_quiet_iff shows valid other second]
      constructor
      · rintro ⟨⟨boolean, inner⟩, outer⟩
        refine .conditional boolean inner ?_
        rintro _ ⟨⟩
        exact outer
      · intro formed
        cases formed with
        | conditional boolean inner outer => exact ⟨⟨boolean, inner⟩, outer other rfl⟩

theorem block_quiet_iff (shows : scope.symbols.Shows env) (valid : env.Valid) (b : Block)
    (complete : b.Complete) (counter : Nat) :
    Quiet (block scope counter b).reports ↔ b.WellFormed env scope.states := by
  obtain ⟨_, body, _⟩ := b
  rw [block, actions_quiet_iff shows valid body complete]
  exact ⟨.braces, fun | .braces live => live⟩

theorem actions_quiet_iff (shows : scope.symbols.Shows env) (valid : env.Valid) (as : List Action)
    (complete : Action.AllComplete as) (counter : Nat) :
    Quiet (actions scope counter as).reports ↔
      ∀ a ∈ Action.live as, a.WellFormed env scope.states := by
  cases as with
  | nil => simp [actions, ActionCode.none, Action.live]
  | cons a rest =>
    rw [actions_cons_quiet_iff, action_quiet_iff shows valid a complete.1,
      actions_quiet_iff shows valid rest complete.2, Action.live]
    cases a.leaves with
    | true => simp
    | false => simp

end

end Compile
end Statecraft
