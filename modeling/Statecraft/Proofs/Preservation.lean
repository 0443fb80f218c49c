import Statecraft.Proofs.WellFormed

/-! What a well-formed program stores. A value that is stored has the type its name is declared
with. The initial values come first, one for every declaration, and from then on values are
stored under variables only, so a constant is stored once. -/
namespace Statecraft

open Source (Environment HasType Storage)

namespace Effect

def target? : Effect → Option String
  | stored name _ => some name
  | located _ | moved _ => none

def update (store : Store) : Effect → Store
  | stored name v => store.insert name v
  | located _ | moved _ => store

/-- A value that is stored has the type its name is declared with. -/
def Typed (env : Environment) : Effect → Prop
  | stored name v => ∃ storage, env name = some (storage, v.type)
  | located _ | moved _ => True

/-- A value that is stored is that of a variable and has its type. -/
def Assigns (env : Environment) : Effect → Prop
  | stored name v => env name = some (.assignable, v.type)
  | located _ | moved _ => True

theorem Assigns.typed {env : Environment} {e : Effect} (assigns : e.Assigns env) : e.Typed env := by
  cases e with
  | stored name v => exact ⟨.assignable, assigns⟩
  | located | moved => trivial

end Effect

/-- Every stored value has the type its name is declared with. -/
def Store.Obeys (store : Store) (env : Environment) : Prop :=
  ∀ name v, store.find? name = some v → ∃ storage, env name = some (storage, v.type)

namespace Store.Obeys

variable {store : Store} {env : Environment}

theorem empty (env : Environment) : Store.empty.Obeys env := by
  intro name v found
  contradiction

theorem update (obeys : store.Obeys env) {e : Effect} (typed : e.Typed env) :
    (e.update store).Obeys env := by
  cases e with
  | located | moved => exact obeys
  | stored name w =>
    intro other v found
    rw [Effect.update, find?_insert] at found
    split at found
    · rename_i same
      cases found
      exact same ▸ typed
    · exact obeys other v found

theorem foldl (obeys : store.Obeys env) {effects : List Effect}
    (typed : ∀ e ∈ effects, e.Typed env) : (effects.foldl Effect.update store).Obeys env := by
  induction effects generalizing store with
  | nil => exact obeys
  | cons e rest ih =>
    obtain ⟨here, later⟩ := List.forall_mem_cons.mp typed
    exact ih (obeys.update here) later

/-- A name is declared before its value is stored, whatever was declared by that name. -/
theorem declare (obeys : store.Obeys env) (name : String) (storage : Storage) (v : Value) :
    (store.insert name v).Obeys (env.add name storage v.type) := by
  intro other w found
  rw [find?_insert] at found
  rw [Environment.add]
  split at found
  · rename_i same
    cases found
    exact ⟨storage, if_pos same⟩
  · rename_i apart
    rw [if_neg apart]
    exact obeys other w found

end Store.Obeys

namespace Source

open Compile (whenBlocks)

variable {env after : Environment} {store last : Store} {states : List String}

/-- An expression with a type has no value of another one. -/
theorem HasType.value_type {e : Expr} {t : Ty} {v : Value} (typed : HasType env e t)
    (obeys : store.Obeys env) (value : e.value? store = some v) : v.type = t := by
  induction typed generalizing v with
  | number | boolean | string =>
    cases value
    rfl
  | ref kept =>
    obtain ⟨storage, found⟩ := obeys _ v value
    rw [kept] at found
    cases found
    rfl
  | unary inner defined ih =>
    simp only [Expr.value?] at value
    split at value
    · contradiction
    · rename_i w operand
      rw [← ih operand] at defined
      rw [defined] at value
      cases value
      exact UnaryOp.apply_type defined
  | binary first second defined ihl ihr =>
    simp only [Expr.value?] at value
    split at value
    · rename_i l r left right
      rw [← ihl left, ← ihr right] at defined
      rw [defined] at value
      cases value
      exact BinaryOp.apply_type defined
    · contradiction

/-- What was stored are values of variables, and all values have their types. -/
structure Execution.Obeys (x : Execution) (env : Environment) : Prop where
  assigns : ∀ e ∈ x.effects, e.Assigns env
  store : x.store.Obeys env

theorem Execution.Obeys.idle (obeys : store.Obeys env) (ending : Ending) :
    (Execution.idle store ending).Obeys env :=
  ⟨fun _ member => absurd member List.not_mem_nil, obeys⟩

/-- Control does not get past what leaves its block. -/
theorem Action.unfinished {a : Action} (leaves : a.leaves = true) (store : Store) :
    (a.execute store).ending ≠ .finished := by
  have scope : Compile.Scope := ⟨.empty, [], []⟩
  have terminates : (Compile.action scope 0 a).terminator.isSome = true :=
    (Compile.action_leaves a 0).trans leaves
  exact Compile.action_terminator a 0 store (Option.isSome_iff_ne_none.mp terminates)

mutual

/-- Executing a well-formed action keeps to the declarations. -/
theorem Action.execute_obeys {store : Store} (a : Action) (formed : a.WellFormed env states)
    (obeys : store.Obeys env) : (a.execute store).Obeys env := by
  cases formed with
  | transition declared => exact ⟨by simp [Action.execute, Effect.Assigns], obeys⟩
  | @assignment name value t assignable typed =>
    rw [Action.execute]
    split
    · rename_i v evaluates
      obtain rfl : v.type = t := typed.value_type obeys evaluates
      exact ⟨by simpa [Effect.Assigns] using assignable,
        obeys.update (e := .stored name.text v) ⟨.assignable, assignable⟩⟩
    · exact .idle obeys _
  | @conditional keyword test body otherwise boolean first second =>
    have chosen := Block.execute_obeys body first obeys
    cases otherwise with
    | some other =>
      have skipped := Block.execute_obeys other (second other rfl) obeys
      rw [Action.execute]
      split
      · exact chosen
      · exact skipped
      · exact .idle obeys _
    | none =>
      rw [Action.execute]
      split
      · exact chosen
      · exact .idle obeys _
      · exact .idle obeys _
  | assertion boolean =>
    rw [Action.execute]
    split <;> exact .idle obeys _
  | @nested body inner => exact Block.execute_obeys body inner obeys

theorem Block.execute_obeys {store : Store} (b : Block) (formed : b.WellFormed env states)
    (obeys : store.Obeys env) : (b.execute store).Obeys env := by
  cases formed with
  | @braces opening closing actions live => exact Action.executeAll_obeys actions live obeys

theorem Action.executeAll_obeys {store : Store} (as : List Action)
    (formed : ∀ a ∈ Action.live as, a.WellFormed env states) (obeys : store.Obeys env) :
    (Action.executeAll store as).Obeys env := by
  cases as with
  | nil => exact .idle obeys _
  | cons a rest =>
    rw [Action.live] at formed
    rw [Action.executeAll]
    by_cases leaves : a.leaves = true
    · -- The rest may be ill formed, but control does not get there.
      rw [if_pos leaves] at formed
      rw [Compile.andThen_left (a.unfinished leaves store)]
      exact Action.execute_obeys a (formed a List.mem_cons_self) obeys
    · rw [if_neg leaves, List.forall_mem_cons] at formed
      have here := Action.execute_obeys a formed.1 obeys
      by_cases ends : (a.execute store).ending = .finished
      · have there := Action.executeAll_obeys rest formed.2 here.store
        rw [Compile.andThen_finished ends]
        refine ⟨fun e member => ?_, there.store⟩
        rcases List.mem_append.mp member with early | late
        · exact here.assigns e early
        · exact there.assigns e late
      · rw [Compile.andThen_left ends]
        exact here

end

namespace Initializes

variable {xs : List Declaration} {name : String}

theorem keeps (initializes : Initializes env xs after)
    (apart : name ∉ xs.map fun x => x.name.text) : after name = env name := by
  induction initializes with
  | nil => rfl
  | cons typed later ih =>
    rw [List.map_cons, List.mem_cons, not_or] at apart
    rw [ih apart.2, Environment.add, if_neg apart.1]

theorem declared (initializes : Initializes env xs after)
    (distinct : (xs.map fun x => x.name.text).Nodup) {x : Declaration} (member : x ∈ xs) :
    ∃ t, after x.name.text = some (x.storage, t) := by
  induction initializes with
  | nil => contradiction
  | cons typed later ih =>
    rw [List.map_cons, List.nodup_cons] at distinct
    rcases List.mem_cons.mp member with rfl | there
    · exact ⟨_, (later.keeps distinct.1).trans (if_pos rfl)⟩
    · exact ih distinct.2 there

theorem of_kept {storage : Storage} {t : Ty} (initializes : Initializes env xs after)
    (kept : after name = some (storage, t)) :
    env name = some (storage, t) ∨ ∃ x ∈ xs, x.name.text = name ∧ x.storage = storage := by
  induction initializes with
  | nil => exact .inl kept
  | cons typed later ih =>
    rcases ih kept with before | ⟨x, member, found⟩
    · rw [Environment.add] at before
      split at before
      · rename_i same
        cases before
        exact .inr ⟨_, List.mem_cons_self, same.symm, rfl⟩
      · exact .inl before
    · exact .inr ⟨x, List.mem_cons_of_mem _ member, found⟩

/-- Initial values have the types that the names keep, since no name is declared again. -/
theorem storeAll_obeys {effects : List Effect} (initializes : Initializes env xs after)
    (distinct : (xs.map fun x => x.name.text).Nodup) (obeys : store.Obeys env)
    (stored : Declaration.storeAll store xs = some (effects, last)) :
    last.Obeys after ∧ (∀ e ∈ effects, e.Typed after) ∧
      effects.filterMap Effect.target? = xs.map fun x => x.name.text := by
  induction initializes generalizing store effects with
  | nil =>
    cases stored
    exact ⟨obeys, by simp, rfl⟩
  | @cons env after x rest t typed later ih =>
    rw [List.map_cons, List.nodup_cons] at distinct
    rw [Declaration.storeAll] at stored
    split at stored
    · contradiction
    · rename_i v evaluates
      obtain rfl : v.type = t := typed.value_type obeys evaluates
      obtain ⟨⟨more, values⟩, storedRest, same⟩ := Option.map_eq_some_iff.mp stored
      cases same
      obtain ⟨final, typedRest, names⟩ := ih distinct.2 (obeys.declare _ _ _) storedRest
      refine ⟨final, List.forall_mem_cons.mpr ⟨?_, typedRest⟩, ?_⟩
      · -- No later declaration has this name, so it keeps the type it gets here.
        exact ⟨x.storage, (later.keeps distinct.1).trans (if_pos rfl)⟩
      · rw [List.filterMap_cons, List.map_cons, names]
        rfl

end Initializes

namespace Program

variable {program : Program} {list : StateList} {r next : Progress}

theorem declarations_sublist (program : Program) :
    (program.declarations.map fun x => x.name.text).Sublist
      (program.flatMap Definition.names) := by
  induction program with
  | nil => exact .slnil
  | cons d rest ih =>
    cases d with
    | declaration x => exact ih.cons_cons _
    | states list => exact ih.trans (List.sublist_append_right _ _)
    | whenBlock b => exact ih

theorem Describes.names_nodup (describes : program.Describes list env) :
    (program.declarations.map fun x => x.name.text).Nodup :=
  describes.distinct.sublist program.declarations_sublist

/-- The initial values are stored in the order of the declarations, and what is stored later are
values of variables. -/
structure Keeps (program : Program) (env : Environment) (r : Progress) : Prop where
  store : r.store.Obeys env
  effects : ∃ initial later, r.effects = initial ++ later ∧ (∀ e ∈ initial, e.Typed env) ∧
    initial.filterMap Effect.target? = (program.declarations.map fun x => x.name.text) ∧
    ∀ e ∈ later, e.Assigns env

theorem start?_keeps (describes : program.Describes list env) (started : program.start? = some r) :
    program.Keeps env r := by
  rw [start?] at started
  split at started
  · rename_i effects store state stored initial
    cases started
    obtain ⟨obeys, typed, names⟩ :=
      describes.initializes.storeAll_obeys describes.names_nodup (.empty _) stored
    exact ⟨obeys, effects, [], (List.append_nil _).symm, typed, names, by simp⟩
  · contradiction

theorem round?_keeps (describes : program.Describes list env) (keeps : program.Keeps env r)
    (stepped : program.round? r = some next) : program.Keeps env next := by
  rw [round?] at stepped
  split at stepped
  · cases stepped
    exact keeps
  · split at stepped
    · cases stepped
      exact ⟨keeps.store, keeps.effects⟩
    · rename_i body found
      obtain ⟨b, member, -, rfl, -⟩ := body?_some found
      have inside := b.body.execute_obeys (describes.live b member) keeps.store
      obtain ⟨initial, later, parts, typed, names, assigns⟩ := keeps.effects
      have grown : ∃ initial later,
          r.effects ++ (b.body.execute r.store).effects = initial ++ later ∧
            (∀ e ∈ initial, e.Typed env) ∧
            initial.filterMap Effect.target? = (program.declarations.map fun x => x.name.text) ∧
            ∀ e ∈ later, e.Assigns env := by
        refine ⟨initial, later ++ (b.body.execute r.store).effects, ?_, typed, names, ?_⟩
        · rw [parts, List.append_assoc]
        · intro e member
          rcases List.mem_append.mp member with early | late
          · exact assigns e early
          · exact inside.assigns e late
      -- However the body ends, its effects and its store are those of the next round.
      dsimp only at stepped
      split at stepped
      · cases stepped
        exact ⟨inside.store, grown⟩
      · cases stepped
        exact ⟨inside.store, grown⟩
      · cases stepped
        exact ⟨inside.store, grown⟩
      · contradiction

theorem run?_keeps (describes : program.Describes list env) {k : Nat}
    (ran : program.run? k = some r) : program.Keeps env r := by
  induction k generalizing r with
  | zero => exact start?_keeps describes ran
  | succ k ih =>
    obtain ⟨before, earlier, stepped⟩ := Option.bind_eq_some_iff.mp ran
    exact round?_keeps describes (ih earlier) stepped

theorem Keeps.typed (keeps : program.Keeps env r) : ∀ e ∈ r.effects, e.Typed env := by
  obtain ⟨initial, later, parts, typed, -, assigns⟩ := keeps.effects
  intro e member
  rw [parts, List.mem_append] at member
  rcases member with early | late
  · exact typed e early
  · exact (assigns e late).typed

/-- A constant is stored by its declaration and by nothing else. -/
theorem Keeps.stored_once (keeps : program.Keeps env r) (describes : program.Describes list env)
    {name : String} {t : Ty} (constant : env name = some (.fixed, t)) :
    (r.effects.filterMap Effect.target?).count name ≤ 1 := by
  obtain ⟨initial, later, parts, -, names, assigns⟩ := keeps.effects
  have never : name ∉ later.filterMap Effect.target? := by
    intro stored
    obtain ⟨e, member, target⟩ := List.mem_filterMap.mp stored
    cases e with
    | stored other v =>
      cases target
      have assigned : env name = some (.assignable, v.type) := assigns _ member
      simp [constant] at assigned
    | located | moved => contradiction
  rw [parts, List.filterMap_append, names, List.count_append, List.count_eq_zero.mpr never]
  exact List.nodup_iff_count.mp describes.names_nodup name

end Program
end Source
end Statecraft
