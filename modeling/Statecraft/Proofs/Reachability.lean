import Statecraft.Proofs.Run
import Statecraft.Proofs.Search

/-! Where a machine can get on its state graph. The search finds the initial state and, with a
state, whatever one move leads to. A machine follows recorded moves only, so it is always in a
state that was found, however often it is stepped, faults or is reset. -/
namespace Statecraft

namespace Reach

variable {r : Reach} {next : Nat → List Nat} {queue : List Nat}

/-- The list has the nodes with a mark. -/
def Listed (r : Reach) : Prop := ∀ x, r.contains x = true ↔ x ∈ r.latest

theorem mark_listed (xs : List Nat) (listed : r.Listed) : (mark xs r).1.Listed := by
  induction xs generalizing r with
  | nil => exact listed
  | cons x rest ih =>
    obtain ⟨marks, latest⟩ := r
    by_cases free : marks[x]? = some false
    · simp only [mark, free, if_true]
      apply ih
      intro y
      rw [contains_set latest (Array.getElem?_eq_some_iff.mp free).1, List.mem_cons, listed y]
    · simp only [mark, free, if_false]
      exact ih listed

theorem search_listed (fuel : Nat) (listed : r.Listed) : (search next fuel r queue).Listed := by
  induction fuel generalizing r queue with
  | zero => exact listed
  | succ fuel ih =>
    cases queue with
    | nil => exact listed
    | cons x queue => exact ih (mark_listed (next x) listed)

theorem none_listed (count : Nat) : (none count).Listed := by
  intro x
  simp only [contains, none, Array.getElem?_replicate, List.not_mem_nil, iff_false]
  split <;> simp

theorem mem_order_ofFirst (next : Nat → List Nat) (count x : Nat) :
    x ∈ (ofFirst next count).order ↔ (ofFirst next count).contains x = true := by
  have listed : (ofFirst next count).Listed :=
    search_listed count (mark_listed [0] (none_listed count))
  rw [listed x, order, List.mem_reverse]

end Reach

namespace Graph

variable {g : Graph} {source target name : String}

theorem mem_reachable_iff :
    name ∈ g.reachable ↔ ∃ place, g.reach.contains place = true ∧ g.names[place]? = some name := by
  simp only [reachable, reach, names, List.mem_filterMap, Reach.mem_order_ofFirst,
    List.getElem?_map]

theorem initial_reachable (g : Graph) : g.initial.name ∈ g.reachable :=
  mem_reachable_iff.mpr ⟨0, (Reach.ofFirst_closed _ _).1 (Nat.succ_pos _), rfl⟩

theorem index?_of_mem (known : name ∈ g.names) :
    ∃ place, g.index? name = some place ∧ g.names[place]? = some name := by
  obtain ⟨s, member, named⟩ := List.mem_map.mp known
  obtain ⟨place, found⟩ : ∃ place, g.index? name = some place := by
    rw [← Option.isSome_iff_exists, index?, List.findIdx?_isSome, List.any_eq_true]
    exact ⟨s, member, decide_eq_true named⟩
  obtain ⟨inside, here, -⟩ := List.findIdx?_eq_some_iff_getElem.mp found
  refine ⟨place, found, ?_⟩
  rw [names, List.getElem?_map, List.getElem?_eq_getElem inside, Option.map_some,
    of_decide_eq_true here]

theorem reachable_of_move (here : source ∈ g.reachable) (moves : g.canMove source target = true)
    (known : target ∈ g.names) : target ∈ g.reachable := by
  obtain ⟨place, found, named⟩ := mem_reachable_iff.mp here
  obtain ⟨next, index, there⟩ := index?_of_mem known
  rw [names, List.getElem?_map, Option.map_eq_some_iff] at named
  obtain ⟨s, standing, rfl⟩ := named
  have aimed : target ∈ g.targets s.name := by
    rw [canMove, decide_eq_true_iff] at moves
    simp only [targets, List.mem_filter, decide_eq_true_iff, List.mem_map]
    exact ⟨known, _, ⟨moves, rfl⟩, rfl⟩
  have follows : next ∈ g.nextPlaces place := by
    simp only [nextPlaces, standing, List.mem_filterMap]
    exact ⟨target, aimed, index⟩
  have inside : next < g.states.length := by
    simpa [names] using (List.getElem?_eq_some_iff.mp there).1
  exact mem_reachable_iff.mpr ⟨next, (Reach.ofFirst_closed _ _).2 place next found follows inside,
    there⟩

theorem place_unique (distinct : g.names.Nodup) {x y : Nat} (here : g.names[x]? = some name)
    (there : g.names[y]? = some name) : x = y :=
  (List.getElem?_inj (List.getElem?_eq_some_iff.mp here).1 distinct).mp (here.trans there.symm)

/-- Where names do not repeat, a name is found if its place is. -/
theorem mem_reachable_of_place (distinct : g.names.Nodup) {place : Nat}
    (here : g.names[place]? = some name) :
    name ∈ g.reachable ↔ g.reach.contains place = true := by
  rw [mem_reachable_iff]
  constructor
  · rintro ⟨other, found, there⟩
    rwa [place_unique distinct here there]
  · exact fun found => ⟨place, found, here⟩

/-- Where names do not repeat, no state is found and not found. -/
theorem not_reachable_of_unreachable (distinct : g.names.Nodup) (missed : name ∈ g.unreachable) :
    name ∉ g.reachable := by
  intro found
  simp only [unreachable, List.mem_map, List.mem_filter, Prod.exists, exists_and_right,
    exists_eq_right, List.mem_zipIdx_iff_getElem?] at missed
  obtain ⟨place, here, unmarked⟩ := missed
  simp [(mem_reachable_of_place distinct here).mp found] at unmarked

end Graph

namespace Machine

variable {m next : Machine} {x : Instruction} {p : Program} {graph : Graph}

/-- One machine stands on the graph where the other does, or one recorded move further. -/
def Follows (m next : Machine) : Prop :=
  next.walker = m.walker ∨ ∃ w target, m.walker = some w ∧
    next.walker = some { w with current := target } ∧ target ∈ w.graph.states ∧
    w.graph.canMove w.current.name target.name = true

theorem moveTo_follows {state : String} (moved : m.moveTo state = .ok next) :
    m.Follows next ∧ next.store = m.store := by
  simp only [moveTo, Graph.Walker.moveTo] at moved
  split at moved
  · contradiction
  · rename_i w walker
    cases found : w.graph.find? state with
    | none => simp [found] at moved
    | some target =>
      have named : target.name = state := by simpa using List.find?_some found
      simp only [found] at moved
      by_cases moves : w.graph.canMove w.current.name state = true
      · simp only [moves, if_true, Except.ok.injEq] at moved
        subst moved
        exact ⟨.inr ⟨w, target, walker, rfl, List.mem_of_find?_eq_some found, named ▸ moves⟩, rfl⟩
      · simp [moves] at moved

theorem jumpTo_keeps {label : String} (jumped : m.jumpTo label = .ok next) :
    next.store = m.store ∧ next.walker = m.walker := by
  simp only [jumpTo] at jumped
  split at jumped <;> cases jumped
  exact ⟨rfl, rfl⟩

/-- An instruction stores the operand on top, makes a move, or leaves both the values and the
walker alone. -/
theorem execute_cases (executed : m.execute x = .ok next) :
    (∃ name v rest, x = .store name ∧ m.stack = v :: rest ∧
      next.store = m.store.insert name v ∧ next.walker = m.walker) ∨
    (∃ state, x = .transition state ∧ m.moveTo state = .ok next) ∨
    (∀ name, x ≠ .store name) ∧ next.store = m.store ∧ next.walker = m.walker := by
  cases x with
  | store name =>
    simp only [execute] at executed
    split at executed
    · contradiction
    · rename_i v rest operands
      cases executed
      exact .inl ⟨name, v, rest, rfl, operands, rfl, rfl⟩
  | transition state => exact .inr (.inl ⟨state, rfl, executed⟩)
  | push | label | location | exit =>
    cases executed
    exact .inr (.inr ⟨by simp, rfl, rfl⟩)
  | load name =>
    simp only [execute] at executed
    split at executed <;> cases executed
    exact .inr (.inr ⟨by simp, rfl, rfl⟩)
  | unary op operand =>
    simp only [execute, applyUnary] at executed
    split at executed
    · contradiction
    · split at executed <;> cases executed
      exact .inr (.inr ⟨by simp, rfl, rfl⟩)
  | binary op left right =>
    simp only [execute, applyBinary] at executed
    split at executed
    · contradiction
    · split at executed
      · contradiction
      · split at executed <;> cases executed
        exact .inr (.inr ⟨by simp, rfl, rfl⟩)
  | jump label => exact .inr (.inr ⟨by simp, jumpTo_keeps executed⟩)
  | jumpIfNot label =>
    simp only [execute] at executed
    split at executed
    · contradiction
    · split at executed
      · cases executed
        exact .inr (.inr ⟨by simp, rfl, rfl⟩)
      · have kept := jumpTo_keeps executed
        exact .inr (.inr ⟨by simp, kept⟩)

theorem execute_follows (executed : m.execute x = .ok next) : m.Follows next := by
  obtain ⟨-, -, -, -, -, -, stays⟩ | ⟨state, -, moved⟩ | ⟨-, -, stays⟩ := execute_cases executed
  · exact .inl stays
  · exact (moveTo_follows moved).1
  · exact .inl stays

/-- A step keeps the program and follows a recorded move if it leaves its state. -/
theorem stepped_follows (m : Machine) : m.stepped.program = m.program ∧ m.Follows m.stepped := by
  cases stopped : m.stopped with
  | true => exact (stepped_of_stopped stopped).symm ▸ ⟨rfl, .inl rfl⟩
  | false =>
    cases current : m.program.code[m.ip]? with
    | none => exact (stepped_of_end stopped current).symm ▸ ⟨rfl, .inl rfl⟩
    | some x =>
      cases executed : m.execute x with
      | error failure =>
        obtain ⟨rest, -, stepped⟩ := stepped_of_error stopped current executed
        exact stepped.symm ▸ ⟨rfl, .inl rfl⟩
      | ok next =>
        have follows := execute_follows executed
        rw [stepped_of_ok stopped current executed]
        exact ⟨(execute_frame executed).1, follows⟩

/-- What stepping and resetting make of a new machine. -/
inductive Reached (p : Program) : Machine → Prop where
  | start : Reached p (.start p)
  | step {m : Machine} (before : Reached p m) : Reached p m.stepped
  | reset {m : Machine} (before : Reached p m) : Reached p m.reset

namespace Reached

theorem program (reached : Reached p m) : m.program = p := by
  induction reached with
  | start => rfl
  | @step m _ ih => exact (stepped_follows m).1.trans ih
  | reset _ ih => exact ih

theorem after (p : Program) (n : Nat) : Reached p ((Machine.start p).after n) := by
  induction n with
  | zero => exact .start
  | succ n ih => exact after_add (.start p) n 1 ▸ .step ih

theorem exists_after (reached : Reached p m) : ∃ n, m = (Machine.start p).after n := by
  induction reached with
  | start => exact ⟨0, rfl⟩
  | step _ ih =>
    obtain ⟨n, rfl⟩ := ih
    exact ⟨n + 1, (after_add (.start p) n 1).symm⟩
  | reset before _ => exact ⟨0, congrArg Machine.start before.program⟩

theorem walker (walks : p.graph = some graph) (reached : Reached p m) :
    ∃ w, m.walker = some w ∧ w.graph = graph ∧ w.current.name ∈ graph.reachable := by
  have begins : ∃ w, (Machine.start p).walker = some w ∧ w.graph = graph ∧
      w.current.name ∈ graph.reachable :=
    ⟨.start graph, by simp [Machine.start, walks], rfl, graph.initial_reachable⟩
  induction reached with
  | start => exact begins
  | @step m _ ih =>
    obtain ⟨w, here, rfl, found⟩ := ih
    rcases (stepped_follows m).2 with same | ⟨w', target, here', there, known, moves⟩
    · exact ⟨w, same.trans here, rfl, found⟩
    · obtain rfl := Option.some.inj (here.symm.trans here')
      exact ⟨_, there, rfl, Graph.reachable_of_move found moves (List.mem_map_of_mem known)⟩
  | reset before _ =>
    rw [Machine.reset, before.program]
    exact begins

theorem state_reachable (walks : p.graph = some graph) (reached : Reached p m) :
    m.state ∈ graph.reachable := by
  obtain ⟨w, here, -, found⟩ := reached.walker walks
  simpa [state, here] using found

end Reached
end Machine
end Statecraft
