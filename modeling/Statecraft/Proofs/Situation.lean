import Statecraft.Proofs.Run
import Statecraft.Proofs.Layout

/-! Running code from one situation to another. A situation is what decides how a
machine goes on: the index of the next instruction, the operands, the values and the
state. Every step on the way is steady: it does not fault, and a statement starts
with an empty stack. -/
namespace Statecraft
namespace Machine

/-- The next step executes something without a fault, and a statement starts with an
empty stack. -/
structure Steady (m : Machine) : Prop where
  running : m.stopped = false
  sound : m.stepped.fault = none
  clear : m.atStatement = true → m.stack = []

/-- A number of steady steps with the stores and moves they make. -/
structure Runs (m : Machine) (n : Nat) (changes : List Effect) (last : Machine) : Prop where
  reached : m.after n = last
  changed : m.changes n = changes
  steady : ∀ k < n, (m.after k).Steady

namespace Runs

variable {m middle last : Machine} {a b : Nat} {first second : List Effect}

theorem refl (m : Machine) : m.Runs 0 [] m := ⟨rfl, rfl, fun _ bound => absurd bound (by omega)⟩

theorem trans (here : m.Runs a first middle) (there : middle.Runs b second last) :
    m.Runs (a + b) (first ++ second) last := by
  refine ⟨?_, ?_, ?_⟩
  · rw [after_add, here.reached, there.reached]
  · rw [changes_add, here.reached, here.changed, there.changed]
  · intro k bound
    rcases Nat.lt_or_ge k a with early | late
    · exact here.steady k early
    · obtain ⟨c, rfl⟩ := Nat.exists_eq_add_of_le late
      rw [after_add, here.reached]
      exact there.steady c (by omega)

theorem single (steady : m.Steady) :
    m.Runs 1 (m.effects.filter Effect.isChange) m.stepped := by
  refine ⟨rfl, by simp [changes, trace], ?_⟩
  intro k bound
  obtain rfl : k = 0 := by omega
  exact steady

end Runs
end Machine

/-- What decides how a machine goes on with its program. -/
structure Situation where
  ip : Nat
  stack : List Value
  store : Store
  state : String

/-- The machine runs the program and is in the situation. -/
structure Machine.Shows (m : Machine) (p : Program) (s : Situation) : Prop where
  program : m.program = p
  ip : m.ip = s.ip
  stack : m.stack = s.stack
  store : m.store = s.store
  running : m.stopped = false
  walker : ∃ w, m.walker = some w ∧ p.graph = some w.graph ∧ w.current.name = s.state

theorem Machine.Shows.state {m : Machine} {p : Program} {s : Situation} (shows : m.Shows p s) :
    m.state = s.state := by
  obtain ⟨w, walker, -, current⟩ := shows.walker
  simp [Machine.state, walker, current]

namespace Program

variable {p : Program} {s t u : Situation} {a b : Nat} {first second : List Effect}

/-- Every machine in the first situation gets to the second one by steady steps. -/
def Leads (p : Program) (s : Situation) (n : Nat) (changes : List Effect) (t : Situation) : Prop :=
  ∀ m : Machine, m.Shows p s → ∃ last, m.Runs n changes last ∧ last.Shows p t

/-- The machine exited for the reason, with the given values and state. -/
structure Exited (m : Machine) (reason : ExitReason) (store : Store) (state : String) : Prop where
  exit : m.exit = some reason
  sound : m.fault = none
  store : m.store = store
  state : m.state = state

def Exits (p : Program) (s : Situation) (n : Nat) (changes : List Effect) (reason : ExitReason)
    (store : Store) (state : String) : Prop :=
  ∀ m : Machine, m.Shows p s → ∃ last, m.Runs n changes last ∧ Exited last reason store state

theorem Leads.refl (p : Program) (s : Situation) : p.Leads s 0 [] s :=
  fun m shows => ⟨m, .refl m, shows⟩

theorem Leads.trans (here : p.Leads s a first t) (there : p.Leads t b second u) :
    p.Leads s (a + b) (first ++ second) u := by
  intro m shows
  obtain ⟨middle, runs, shows⟩ := here m shows
  obtain ⟨last, more, shows⟩ := there middle shows
  exact ⟨last, runs.trans more, shows⟩

theorem Leads.exits {reason : ExitReason} {store : Store} {state : String}
    (here : p.Leads s a first t) (there : p.Exits t b second reason store state) :
    p.Exits s (a + b) (first ++ second) reason store state := by
  intro m shows
  obtain ⟨middle, runs, shows⟩ := here m shows
  obtain ⟨last, more, exited⟩ := there middle shows
  exact ⟨last, runs.trans more, exited⟩

/-- One instruction that can be executed is a steady step. -/
theorem steady_of_execute {m next : Machine} {i : Instruction} (shows : m.Shows p s)
    (current : p.code[s.ip]? = some i) (clear : i.isLocation = true → s.stack = [])
    (executed : m.execute i = .ok next) :
    m.Runs 1 ((m.effectsOf i).filter Effect.isChange) { next with steps := m.steps + 1 } := by
  have here : m.program.code[m.ip]? = some i := by rw [shows.program, shows.ip, current]
  have stepped := Machine.stepped_of_ok shows.running here executed
  have sound : m.stepped.fault = none := by
    rw [stepped, (Machine.execute_frame executed).2]
    exact (Machine.stopped_eq_false.mp shows.running).2
  have steady : m.Steady := by
    refine ⟨shows.running, sound, fun atStatement => ?_⟩
    rw [shows.stack]
    exact clear (by simpa [Machine.atStatement, here] using atStatement)
  have effects : m.effects = m.effectsOf i := by
    simp [Machine.effects, shows.running, sound, here]
  simpa only [effects, stepped] using Machine.Runs.single steady

theorem Leads.of_execute {i : Instruction} (current : p.code[s.ip]? = some i)
    (clear : i.isLocation = true → s.stack = [])
    (executes : ∀ m : Machine, m.Shows p s →
      (m.effectsOf i).filter Effect.isChange = first ∧
        ∃ next, m.execute i = .ok next ∧ next.Shows p t) : p.Leads s 1 first t := by
  intro m shows
  obtain ⟨rfl, next, executed, there⟩ := executes m shows
  exact ⟨_, steady_of_execute shows current clear executed,
    ⟨there.program, there.ip, there.stack, there.store, there.running, there.walker⟩⟩

variable {ip : Nat} {stack : List Value} {store : Store} {state : String} {name : String}
  {value : Value}

theorem leads_push (current : p.code[ip]? = some (.push value)) :
    p.Leads ⟨ip, stack, store, state⟩ 1 [] ⟨ip + 1, value :: stack, store, state⟩ := by
  refine Leads.of_execute current nofun fun m shows => ⟨rfl, _, rfl, ?_⟩
  obtain ⟨rfl, rfl, rfl, rfl, running, walker⟩ := shows
  exact ⟨rfl, rfl, rfl, rfl, running, walker⟩

theorem leads_load (current : p.code[ip]? = some (.load name))
    (found : store.find? name = some value) :
    p.Leads ⟨ip, stack, store, state⟩ 1 [] ⟨ip + 1, value :: stack, store, state⟩ := by
  refine Leads.of_execute current nofun fun m shows => ⟨rfl, ?_⟩
  obtain ⟨rfl, rfl, rfl, rfl, running, walker⟩ := shows
  exact ⟨{ m.next with stack := value :: m.stack }, by simp only [Machine.execute, found],
    ⟨rfl, rfl, rfl, rfl, running, walker⟩⟩

theorem leads_store (current : p.code[ip]? = some (.store name)) :
    p.Leads ⟨ip, value :: stack, store, state⟩ 1 [.stored name value]
      ⟨ip + 1, stack, store.insert name value, state⟩ := by
  refine Leads.of_execute current nofun fun m shows => ?_
  obtain ⟨rfl, rfl, operands, rfl, running, walker⟩ := shows
  refine ⟨by simp [Machine.effectsOf, operands, Effect.isChange], ?_⟩
  exact ⟨{ m.next with stack := stack, store := m.store.insert name value },
    by simp only [Machine.execute, operands], ⟨rfl, rfl, rfl, rfl, running, walker⟩⟩

theorem leads_unary {op : UnaryOp} {meaning : UnaryMeaning}
    (current : p.code[ip]? = some (.unary op value.type))
    (defined : op.meaning? value.type = some meaning) :
    p.Leads ⟨ip, value :: stack, store, state⟩ 1 []
      ⟨ip + 1, meaning.apply value :: stack, store, state⟩ := by
  refine Leads.of_execute current nofun fun m shows => ⟨rfl, ?_⟩
  obtain ⟨rfl, rfl, operands, rfl, running, walker⟩ := shows
  exact ⟨{ m.next with stack := meaning.apply value :: stack },
    by simp only [Machine.execute, Machine.applyUnary, operands, Machine.popTyped, if_true,
      defined],
    ⟨rfl, rfl, rfl, rfl, running, walker⟩⟩

theorem leads_binary {op : BinaryOp} {left right : Value} {meaning : BinaryMeaning}
    (current : p.code[ip]? = some (.binary op left.type right.type))
    (defined : op.meaning? left.type right.type = some meaning) :
    p.Leads ⟨ip, right :: left :: stack, store, state⟩ 1 []
      ⟨ip + 1, meaning.apply left right :: stack, store, state⟩ := by
  refine Leads.of_execute current nofun fun m shows => ⟨rfl, ?_⟩
  obtain ⟨rfl, rfl, operands, rfl, running, walker⟩ := shows
  exact ⟨{ m.next with stack := meaning.apply left right :: stack },
    by simp only [Machine.execute, Machine.applyBinary, operands, Machine.popTyped, if_true,
      defined],
    ⟨rfl, rfl, rfl, rfl, running, walker⟩⟩

theorem leads_label (current : p.code[ip]? = some (.label name)) :
    p.Leads ⟨ip, stack, store, state⟩ 1 [] ⟨ip + 1, stack, store, state⟩ := by
  refine Leads.of_execute current nofun fun m shows => ⟨rfl, _, rfl, ?_⟩
  obtain ⟨rfl, rfl, rfl, rfl, running, walker⟩ := shows
  exact ⟨rfl, rfl, rfl, rfl, running, walker⟩

/-- A statement starts with an empty stack. -/
theorem leads_location {span : Selection} (current : p.code[ip]? = some (.location span)) :
    p.Leads ⟨ip, [], store, state⟩ 1 [] ⟨ip + 1, [], store, state⟩ := by
  refine Leads.of_execute current (fun _ => rfl) fun m shows => ⟨rfl, _, rfl, ?_⟩
  obtain ⟨rfl, rfl, operands, rfl, running, walker⟩ := shows
  exact ⟨rfl, rfl, operands, rfl, running, walker⟩

theorem leads_jump {target : Nat} (current : p.code[ip]? = some (.jump name))
    (there : p.code[target]? = some (.label name)) :
    p.Leads ⟨ip, stack, store, state⟩ 1 [] ⟨target, stack, store, state⟩ := by
  refine Leads.of_execute current nofun fun m shows => ⟨rfl, ?_⟩
  obtain ⟨rfl, rfl, rfl, rfl, running, walker⟩ := shows
  exact ⟨{ m with ip := target },
    by simp only [Machine.execute, Machine.jumpTo, resolve?_of_label there],
    ⟨rfl, rfl, rfl, rfl, running, walker⟩⟩

theorem leads_jumpIfNot_true (current : p.code[ip]? = some (.jumpIfNot name)) :
    p.Leads ⟨ip, .boolean true :: stack, store, state⟩ 1 [] ⟨ip + 1, stack, store, state⟩ := by
  refine Leads.of_execute current nofun fun m shows => ⟨rfl, ?_⟩
  obtain ⟨rfl, rfl, operands, rfl, running, walker⟩ := shows
  exact ⟨{ m.next with stack := stack },
    by simp [Machine.execute, operands, Machine.popTyped, Value.type, Value.toBool, Machine.next],
    ⟨rfl, rfl, rfl, rfl, running, walker⟩⟩

theorem leads_jumpIfNot_false {target : Nat} (current : p.code[ip]? = some (.jumpIfNot name))
    (there : p.code[target]? = some (.label name)) :
    p.Leads ⟨ip, .boolean false :: stack, store, state⟩ 1 [] ⟨target, stack, store, state⟩ := by
  refine Leads.of_execute current nofun fun m shows => ⟨rfl, ?_⟩
  obtain ⟨rfl, rfl, operands, rfl, running, walker⟩ := shows
  exact ⟨{ m with ip := target, stack := stack },
    by simp [Machine.execute, operands, Machine.popTyped, Value.type, Value.toBool, Machine.jumpTo,
      resolve?_of_label there],
    ⟨rfl, rfl, rfl, rfl, running, walker⟩⟩

/-- A recorded move to a state of the graph. -/
theorem leads_transition {graph : Graph} {target : State} (walked : p.graph = some graph)
    (current : p.code[ip]? = some (.transition name)) (found : graph.find? name = some target)
    (moves : graph.canMove state name = true) :
    p.Leads ⟨ip, stack, store, state⟩ 1 [.moved name] ⟨ip + 1, stack, store, name⟩ := by
  refine Leads.of_execute current nofun fun m shows => ⟨rfl, ?_⟩
  obtain ⟨rfl, rfl, rfl, rfl, running, w, walker, same, rfl⟩ := shows
  obtain rfl : w.graph = graph := Option.some.inj (same.symm.trans walked)
  have named : target.name = name := by simpa using List.find?_some found
  exact ⟨{ m.next with walker := some { w with current := target } },
    by simp only [Machine.execute, Machine.moveTo, walker, Graph.Walker.moveTo, found, moves,
      if_true],
    ⟨rfl, rfl, rfl, rfl, running, _, rfl, same, named⟩⟩

theorem exits_exit {reason : ExitReason} (current : p.code[ip]? = some (.exit reason)) :
    p.Exits ⟨ip, stack, store, state⟩ 1 [] reason store state := by
  intro m shows
  have executed : m.execute (.exit reason) = .ok { m with exit := some reason } := rfl
  exact ⟨_, steady_of_execute shows current nofun executed, rfl,
    (Machine.stopped_eq_false.mp shows.running).2, shows.store, shows.state⟩

end Program
end Statecraft
