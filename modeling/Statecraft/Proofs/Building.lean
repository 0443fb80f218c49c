import Mathlib.Data.List.Nodup
import Statecraft.Graph

/-! Building state graphs. A builder is asked for states, for moves between them and for the
graph, in any order. A refused request leaves no trace, and what is refused depends on what was
granted before. The graph has the states and the moves that were granted; once it is built,
everything else is refused. -/
namespace Statecraft.Graph

/-- Where names do not repeat, the index of a state is its place. -/
theorem index?_of_getElem? {g : Graph} {place : Nat} {s : State} (distinct : g.names.Nodup)
    (here : g.states[place]? = some s) : g.index? s.name = some place := by
  obtain ⟨inside, rfl⟩ := List.getElem?_eq_some_iff.mp here
  refine List.findIdx?_eq_some_iff_getElem.mpr ⟨inside, by simp, fun earlier before same => ?_⟩
  have within : earlier < g.states.length := Nat.lt_trans before inside
  have named : g.names[earlier]? = g.names[place]? := by
    simpa [names, List.getElem?_eq_getElem inside, List.getElem?_eq_getElem within] using same
  exact Nat.ne_of_lt before ((List.getElem?_inj (by simpa [names] using within) distinct).mp named)

theorem mem_targets {g : Graph} {source target : String} :
    target ∈ g.targets source ↔ target ∈ g.names ∧ g.canMove source target = true := by
  simp [targets, canMove]

namespace Builder

/-- What can be asked of a builder. -/
inductive Request where
  | state (s : State)
  | move (source target : String)
  | build
deriving DecidableEq

abbrev Answer := Except GraphError (Option Graph)

/-- What a granted request yields, and the builder behind it. -/
def grant (b : Builder) : Request → Except GraphError (Option Graph × Builder)
  | .state s => (b.addState s).map (none, ·)
  | .move source target => (b.addMove source target).map (none, ·)
  | .build => b.build.map fun (graph, next) => (some graph, next)

/-- The answer to a request and the builder that is left with whoever asked. -/
def ask (b : Builder) (request : Request) : Answer × Builder :=
  match b.grant request with
  | .ok (built, next) => (.ok built, next)
  | .error e => (.error e, b)

abbrev History := List (Request × Answer)

def history : Builder → List Request → History
  | _, [] => []
  | b, request :: rest => (request, (b.ask request).1) :: history (b.ask request).2 rest

def after (b : Builder) (requests : List Request) : Builder :=
  requests.foldl (fun b request => (b.ask request).2) b

namespace History

/-- The states that were granted, in their order. -/
def added (h : History) : List State :=
  h.filterMap fun
    | (.state s, .ok _) => some s
    | _ => none

def names (h : History) : List String := h.added.map State.name

def Moved (h : History) (source target : String) : Prop := (.move source target, .ok none) ∈ h

def Built (h : History) (g : Graph) : Prop := (.build, .ok (some g)) ∈ h

instance (h : History) (source target : String) : Decidable (h.Moved source target) :=
  inferInstanceAs (Decidable (_ ∈ _))

instance (h : History) (g : Graph) : Decidable (h.Built g) := inferInstanceAs (Decidable (_ ∈ _))

/-- What is refused behind a history, and why. Once a graph is built that is everything. -/
inductive Refused (h : History) : Request → GraphError → Prop where
  | consumed {g : Graph} {request : Request} (built : h.Built g) : Refused h request .consumed
  | duplicateState {s : State} (unbuilt : ∀ g, ¬h.Built g) (taken : s.name ∈ h.names) :
      Refused h (.state s) (.duplicateState s.name)
  | unknownSource {source target : String} (unbuilt : ∀ g, ¬h.Built g)
      (unknown : source ∉ h.names) : Refused h (.move source target) (.unknownState source)
  | unknownTarget {source target : String} (unbuilt : ∀ g, ¬h.Built g) (known : source ∈ h.names)
      (unknown : target ∉ h.names) : Refused h (.move source target) (.unknownState target)
  | noStates (unbuilt : ∀ g, ¬h.Built g) (none : h.added = []) : Refused h .build .noStates

structure Describes (h : History) (g : Graph) : Prop where
  states : g.states = h.added
  distinct : g.names.Nodup
  initial : h.added.head? = some g.initial
  index : ∀ (place : Nat) (s : State), g.states[place]? = some s → g.index? s.name = some place
  canMove : ∀ source target, g.canMove source target = true ↔ h.Moved source target
  targets : ∀ source, (g.targets source).Nodup ∧ (g.targets source).Sublist g.names ∧
    ∀ target, target ∈ g.targets source ↔ h.Moved source target

variable {h next : History} {request : Request} {e : GraphError} {g : Graph}
  {source target : String}

theorem Describes.congr (describes : Describes h g) (added : next.added = h.added)
    (moved : ∀ source target, next.Moved source target ↔ h.Moved source target) :
    Describes next g where
  states := describes.states.trans added.symm
  distinct := describes.distinct
  initial := added ▸ describes.initial
  index := describes.index
  canMove source target := (describes.canMove source target).trans (moved source target).symm
  targets source := by simpa only [moved] using describes.targets source

/-- A refusal adds no state, no move and no graph to what was granted. -/
@[simp] theorem added_refused : added (h ++ [(request, .error e)]) = h.added := by
  simp [added]

@[simp] theorem names_refused : names (h ++ [(request, .error e)]) = h.names :=
  congrArg (List.map State.name) added_refused

@[simp] theorem moved_refused : Moved (h ++ [(request, .error e)]) source target ↔
    h.Moved source target := by
  simp [Moved]

@[simp] theorem built_refused : Built (h ++ [(request, .error e)]) g ↔ h.Built g := by
  simp [Built]

@[simp] theorem added_state (s : State) : added (h ++ [(.state s, .ok none)]) = h.added ++ [s] := by
  simp [added]

@[simp] theorem moved_state (s : State) : Moved (h ++ [(.state s, .ok none)]) source target ↔
    h.Moved source target := by
  simp [Moved]

@[simp] theorem built_state (s : State) : Built (h ++ [(.state s, .ok none)]) g ↔ h.Built g := by
  simp [Built]

@[simp] theorem added_move (a z : String) : added (h ++ [(.move a z, .ok none)]) = h.added := by
  simp [added]

@[simp] theorem moved_move (a z : String) : Moved (h ++ [(.move a z, .ok none)]) source target ↔
    h.Moved source target ∨ source = a ∧ target = z := by
  simp [Moved]

@[simp] theorem built_move (a z : String) : Built (h ++ [(.move a z, .ok none)]) g ↔ h.Built g := by
  simp [Built]

@[simp] theorem added_build (made : Graph) :
    added (h ++ [(.build, .ok (some made))]) = h.added := by
  simp [added]

@[simp] theorem moved_build (made : Graph) :
    Moved (h ++ [(.build, .ok (some made))]) source target ↔ h.Moved source target := by
  simp [Moved]

@[simp] theorem built_build (made : Graph) : Built (h ++ [(.build, .ok (some made))]) g ↔
    h.Built g ∨ g = made := by
  simp [Built]

end History

variable {b next : Builder} {request : Request} {e : GraphError} {g : Graph}

theorem ask_of_refused (refused : (b.ask request).1 = .error e) : (b.ask request).2 = b := by
  simp only [ask] at *
  split at refused
  · contradiction
  · rfl

theorem ask_of_consumed (consumed : b.consumed = true) (request : Request) :
    b.ask request = (.error .consumed, b) := by
  cases request <;> simp [ask, grant, addState, addMove, build, consumed, Except.map]

variable {h : History} {s : State} {source target : String}

theorem ask_state (waiting : b.consumed = false) : b.ask (.state s) =
    if b.hasState s.name then (.error (.duplicateState s.name), b)
    else (.ok none, { b with states := b.states ++ [s] }) := by
  by_cases taken : b.hasState s.name = true <;>
    simp [ask, grant, addState, waiting, taken, Except.map]

theorem ask_move (waiting : b.consumed = false) : b.ask (.move source target) =
    if !b.hasState source then (.error (.unknownState source), b)
    else if !b.hasState target then (.error (.unknownState target), b)
    else (.ok none, { b with moves := b.moves.insert (source, target) }) := by
  by_cases known : b.hasState source = true <;> by_cases aim : b.hasState target = true <;>
    simp [ask, grant, addMove, waiting, known, aim, Except.map]

theorem ask_build (waiting : b.consumed = false) : b.ask .build =
    match b.states with
    | [] => (.error .noStates, b)
    | initial :: others => (.ok (some ⟨initial, others, b.moves⟩), ⟨[], [], true⟩) := by
  simp only [ask, grant, build, waiting, Bool.false_eq_true, if_false]
  cases b.states <;> rfl

/-- What a builder holds of what happened to it. Before a graph is built that is all that was
granted, and afterwards nothing but that a graph was built. -/
structure Reflects (b : Builder) (h : History) : Prop where
  distinct : h.names.Nodup
  known : ∀ source target, h.Moved source target → source ∈ h.names ∧ target ∈ h.names
  waiting : b.consumed = false → (∀ g, ¬h.Built g) ∧ b.states = h.added ∧
    ∀ source target, (source, target) ∈ b.moves ↔ h.Moved source target
  spent : b.consumed = true → ∃ g, h.Built g
  described : ∀ g, h.Built g → h.Describes g

namespace Reflects

theorem empty : Reflects empty [] :=
  ⟨List.nodup_nil, by simp [History.Moved],
    fun _ => ⟨by simp [History.Built], rfl, by simp [Builder.empty, History.Moved]⟩, nofun,
    by simp [History.Built]⟩

theorem hasState_iff (reflects : Reflects b h) (waiting : b.consumed = false) (name : String) :
    b.hasState name = true ↔ name ∈ h.names := by
  simp [hasState, (reflects.waiting waiting).2.1, History.names]

theorem unbuilt (reflects : Reflects b h) (waiting : b.consumed = false) (g : Graph) :
    ¬h.Built g := (reflects.waiting waiting).1 g

/-- What is refused, and why, was settled by what was granted before. -/
theorem refused_iff (reflects : Reflects b h) :
    (b.ask request).1 = .error e ↔ h.Refused request e := by
  cases consumed : b.consumed with
  | true =>
    obtain ⟨g, built⟩ := reflects.spent consumed
    rw [ask_of_consumed consumed]
    constructor
    · rintro ⟨⟩
      exact .consumed built
    · intro refused
      cases refused with
      | consumed => rfl
      | duplicateState unbuilt | unknownSource unbuilt | unknownTarget unbuilt | noStates unbuilt =>
        exact absurd built (unbuilt g)
  | false =>
    have unbuilt := reflects.unbuilt consumed
    have named := reflects.hasState_iff consumed
    constructor
    · intro refused
      cases request with
      | state s =>
        rw [ask_state consumed] at refused
        split at refused <;> cases refused
        rename_i taken
        exact .duplicateState unbuilt ((named _).mp taken)
      | move source target =>
        simp only [ask_move consumed, Bool.not_eq_true', ← Bool.not_eq_true, named] at refused
        split at refused
        · cases refused
          exact .unknownSource unbuilt ‹_›
        · rename_i known
          split at refused <;> cases refused
          exact .unknownTarget unbuilt (not_not.mp known) ‹_›
      | build =>
        rw [ask_build consumed] at refused
        split at refused <;> cases refused
        rename_i none
        exact .noStates unbuilt ((reflects.waiting consumed).2.1.symm.trans none)
    · intro refused
      cases refused with
      | consumed built => exact absurd built (unbuilt _)
      | duplicateState _ taken => rw [ask_state consumed, if_pos ((named _).mpr taken)]
      | unknownSource _ unknown => simp [ask_move consumed, ← named] at unknown ⊢; simp [unknown]
      | unknownTarget _ known unknown =>
        simp [ask_move consumed, ← named] at known unknown ⊢; simp [known, unknown]
      | noStates _ none => rw [ask_build consumed, (reflects.waiting consumed).2.1, none]

/-- Freezing what the builder holds gives the graph of what was granted. -/
theorem describes (reflects : Reflects b h) {initial : State} {others : List State}
    {moves : List (String × String)} (states : h.added = initial :: others)
    (moved : ∀ source target, (source, target) ∈ moves ↔ h.Moved source target) :
    h.Describes ⟨initial, others, moves⟩ := by
  have names : names ⟨initial, others, moves⟩ = h.names :=
    congrArg (List.map State.name) states.symm
  have can (source target : String) : canMove ⟨initial, others, moves⟩ source target = true ↔
      h.Moved source target := by
    simp [canMove, moved]
  constructor
  case states => exact states.symm
  case distinct => exact names ▸ reflects.distinct
  case initial => rw [states, List.head?_cons]
  case index => exact fun place s here => index?_of_getElem? (names ▸ reflects.distinct) here
  case canMove => exact can
  case targets =>
    intro source
    refine ⟨List.Nodup.filter _ (names ▸ reflects.distinct), List.filter_sublist, fun target => ?_⟩
    rw [mem_targets, can, names]
    exact and_iff_right_of_imp fun moved => (reflects.known source target moved).2

/-- A refused request changes neither the builder nor what it holds. -/
theorem refused (reflects : Reflects b h) : Reflects b (h ++ [(request, .error e)]) where
  distinct := by simpa using reflects.distinct
  known := by simpa using reflects.known
  waiting := by simpa using reflects.waiting
  spent := by simpa using reflects.spent
  described g built := (reflects.described g (History.built_refused.mp built)).congr
    History.added_refused fun _ _ => History.moved_refused

theorem state (reflects : Reflects b h) (waiting : b.consumed = false) (free : s.name ∉ h.names) :
    Reflects { b with states := b.states ++ [s] } (h ++ [(.state s, .ok none)]) := by
  obtain ⟨unbuilt, states, moves⟩ := reflects.waiting waiting
  have names : History.names (h ++ [(.state s, .ok none)]) = h.names ++ [s.name] := by
    simp [History.names]
  constructor
  case distinct =>
    rw [names]
    exact reflects.distinct.append (List.nodup_singleton _) (by simpa using free)
  case known =>
    intro source target moved
    have known := reflects.known source target ((History.moved_state s).mp moved)
    simp [names, known]
  case waiting => exact fun _ => ⟨by simpa using unbuilt, by simp [states], by simpa using moves⟩
  case spent => simp [waiting]
  case described => exact fun g built => absurd ((History.built_state s).mp built) (unbuilt g)

theorem move (reflects : Reflects b h) (waiting : b.consumed = false) (known : source ∈ h.names)
    (aim : target ∈ h.names) : Reflects { b with moves := b.moves.insert (source, target) }
      (h ++ [(.move source target, .ok none)]) := by
  obtain ⟨unbuilt, states, moves⟩ := reflects.waiting waiting
  have names : History.names (h ++ [(.move source target, .ok none)]) = h.names := by
    simp [History.names]
  constructor
  case distinct => exact names ▸ reflects.distinct
  case known =>
    intro a z moved
    rw [names]
    rcases (History.moved_move _ _).mp moved with before | ⟨rfl, rfl⟩
    · exact reflects.known a z before
    · exact ⟨known, aim⟩
  case waiting =>
    refine fun _ => ⟨by simpa using unbuilt, by simp [states], fun a z => ?_⟩
    simp [List.mem_insert_iff, moves, or_comm]
  case spent => simp [waiting]
  case described => exact fun g built => absurd ((History.built_move _ _).mp built) (unbuilt g)

theorem build (reflects : Reflects b h) (waiting : b.consumed = false) {initial : State}
    {others : List State} (states : b.states = initial :: others) :
    Reflects ⟨[], [], true⟩ (h ++ [(.build, .ok (some ⟨initial, others, b.moves⟩))]) := by
  obtain ⟨unbuilt, same, moves⟩ := reflects.waiting waiting
  constructor
  case distinct => simpa [History.names] using reflects.distinct
  case known => simpa [History.names] using reflects.known
  case waiting => nofun
  case spent => exact fun _ => ⟨_, (History.built_build _).mpr (.inr rfl)⟩
  case described =>
    intro g built
    obtain rfl := ((History.built_build _).mp built).resolve_left (unbuilt g)
    exact (reflects.describes (states ▸ same.symm) moves).congr (History.added_build _)
      fun _ _ => History.moved_build _

/-- Whatever is asked, the builder reflects what has happened to it. -/
theorem ask (reflects : Reflects b h) (request : Request) :
    Reflects (b.ask request).2 (h ++ [(request, (b.ask request).1)]) := by
  cases answer : (b.ask request).1 with
  | error e => exact (ask_of_refused answer).symm ▸ reflects.refused
  | ok built =>
    cases waiting : b.consumed with
    | true => simp [ask_of_consumed waiting] at answer
    | false =>
      have named := reflects.hasState_iff waiting
      cases request with
      | state s =>
        rw [ask_state waiting] at answer ⊢
        split at answer <;> cases answer
        rename_i free
        exact if_neg free ▸ reflects.state waiting (free ∘ (named _).mpr)
      | move source target =>
        simp only [ask_move waiting, Bool.not_eq_true', ← Bool.not_eq_true, named] at answer ⊢
        split at answer
        · cases answer
        · rename_i known
          split at answer <;> cases answer
          rename_i aim
          rw [if_neg known, if_neg aim]
          exact reflects.move waiting (not_not.mp known) (not_not.mp aim)
      | build =>
        rw [ask_build waiting] at answer ⊢
        split at answer <;> cases answer
        rename_i states
        simpa only [states] using reflects.build waiting states

/-- Whatever is asked in a row, the builder reflects what has happened to it. -/
theorem after (reflects : Reflects b h) (requests : List Request) :
    Reflects (b.after requests) (h ++ b.history requests) := by
  induction requests generalizing b h with
  | nil => simpa [history, Builder.after] using reflects
  | cons request rest ih => simpa [history, Builder.after] using ih (reflects.ask request)

end Reflects

theorem reflects_after (requests : List Request) :
    Reflects (empty.after requests) (empty.history requests) :=
  Reflects.empty.after requests

end Builder
end Statecraft.Graph
