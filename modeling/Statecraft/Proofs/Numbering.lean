import Statecraft.Proofs.CurrentSection
import Statecraft.Proofs.Session

/-! What observers hear is numbered by the steps that are counted. Every instruction that is
executed is heard of once, with its number. A machine that runs past the last instruction executes
nothing, but its exit is heard of as well, and repeats the number of the step before it. -/
namespace Statecraft

variable {σ : Type}

namespace Machine

/-- The machine exited because there is no instruction at its place. -/
def ranPast (m : Machine) : Bool := m.exit.isSome && (m.program.code[m.ip]?).isNone

/-- All that was heard of a machine since its start: the executed instructions, numbered from one
on, and then its exit, if no instruction was executed for it. -/
def Numbers (m : Machine) (heard : List StepEvent) : Prop :=
  ∃ executed, heard = executed ++ (if m.ranPast then [m.event m.ip none] else []) ∧
    executed.map StepEvent.step = List.range' 1 m.steps ∧
    ∀ event ∈ executed, event.instruction.isSome = true

variable {m next : Machine} {x : Instruction} {heard : List StepEvent}

/-- An instruction that exits stays where it is. -/
theorem execute_exit (executed : m.execute x = .ok next) :
    next.exit = m.exit ∨ next.ip = m.ip := by
  cases x with
  | push | load | store | unary | binary | label | location =>
    exact .inl (execute_state executed rfl).1
  | jump | jumpIfNot => exact .inl (execute_jump rfl executed).1.1
  | transition => exact .inl (moveTo_state executed).1
  | exit =>
    cases executed
    exact .inr rfl

theorem ranPast_of_going (going : m.exit = none) : m.ranPast = false := by
  simp [ranPast, going]

/-- The place of an instruction is not past the last one. -/
theorem ranPast_stepped (running : m.stopped = false) (current : m.program.code[m.ip]? = some x) :
    m.stepped.ranPast = false := by
  have going := (stopped_eq_false.mp running).1
  cases result : m.execute x with
  | error failure =>
    obtain ⟨rest, -, stepped⟩ := stepped_of_error running current result
    rw [stepped]
    exact ranPast_of_going going
  | ok next =>
    rw [stepped_of_ok running current result]
    simp only [ranPast, (execute_frame result).1]
    rcases execute_exit result with same | same
    · simp [same, going]
    · simp [same, current]

theorem start_numbers (p : Program) : (start p).Numbers [] := ⟨[], rfl, rfl, by simp⟩

/-- Each step adds what it tells to what was heard. -/
theorem Numbers.step (numbers : m.Numbers heard) :
    m.stepped.Numbers (heard ++ m.step.2.toList) := by
  cases stopped : m.stopped with
  | true => simpa [stepped, Machine.step, stopped] using numbers
  | false =>
    have going := (stopped_eq_false.mp stopped).1
    obtain ⟨executed, rfl, numbered, instructions⟩ := numbers
    simp only [ranPast_of_going going, Bool.false_eq_true, if_false, List.append_nil]
    cases current : m.program.code[m.ip]? with
    | none =>
      refine ⟨executed, ?_, ?_, instructions⟩
      · simp [stepped, Machine.step, stopped, current, ranPast, event, state]
      · simpa [stepped_of_end stopped current] using numbered
    | some x =>
      have inside := ranPast_stepped stopped current
      simp only [Numbers, inside, Bool.false_eq_true, if_false, List.append_nil]
      refine ⟨_, rfl, ?_⟩
      cases result : m.execute x with
      | error failure =>
        obtain ⟨rest, -, halted⟩ := stepped_of_error stopped current result
        rw [halted]
        simpa [Machine.step, stopped, current, result] using ⟨numbered, instructions⟩
      | ok next =>
        rw [stepped_of_ok stopped current result]
        simpa [Machine.step, stopped, current, result, event, numbered, List.range'_concat,
          Nat.add_comm, or_imp, forall_and] using instructions

theorem Numbers.length_eq (numbers : m.Numbers heard) :
    heard.length = m.steps + if m.ranPast then 1 else 0 := by
  obtain ⟨executed, rfl, numbered, -⟩ := numbers
  have counted : executed.length = m.steps := by simpa using congrArg List.length numbered
  rw [List.length_append, counted]
  split <;> rfl

theorem Numbers.executed_steps (numbers : m.Numbers heard) :
    (heard.filter (·.instruction.isSome)).map StepEvent.step = List.range' 1 m.steps := by
  obtain ⟨executed, rfl, numbered, instructions⟩ := numbers
  rw [List.filter_append, List.filter_eq_self.mpr instructions, List.map_append, numbered]
  split <;> simp [event]

/-- Every event shows its place, where all are of instructions. -/
theorem Numbers.step_eq (numbers : m.Numbers heard) (inside : m.ranPast = false) {k : Nat}
    {event : StepEvent} (found : heard[k]? = some event) : event.step = k + 1 := by
  obtain ⟨executed, rfl, numbered, -⟩ := numbers
  simp only [inside, Bool.false_eq_true, if_false, List.append_nil] at found
  have place := congrArg (·[k]?) numbered
  simp only [List.getElem?_map, found, Option.map_some] at place
  have shown := (List.getElem?_eq_some_iff.mp place.symm).2
  rw [← shown, List.getElem_range']
  omega

theorem Numbers.getLast (numbers : m.Numbers heard) (past : m.ranPast = true) :
    heard.getLast? = some (m.event m.ip none) := by
  obtain ⟨executed, rfl, -, -⟩ := numbers
  simp [past]

end Machine

def Observer.beside (observer : Observer σ) : Observer (σ × List StepEvent) := fun event memory =>
  let (seen, failure) := observer event memory.1
  ((seen, memory.2), failure)

def Observer.listener : Observer (σ × List StepEvent) := fun event memory =>
  ((memory.1, memory.2 ++ [event]), none)

/-- The same watchers, and behind them a listener, who hears of a step if none of them fails. -/
def Monitor.listening (monitor : Monitor σ) : Monitor (σ × List StepEvent) where
  log notice memory := (monitor.log notice memory.1, memory.2)
  observers := monitor.observers.map .beside ++ [.listener]

theorem Monitor.tell_listening {observers : List (Observer σ)} (event : StepEvent)
    (memory : σ × List StepEvent)
    (untroubled : ∀ observer ∈ observers, ∀ event memory, (observer event memory).2 = Option.none) :
    (tell event (observers.map .beside ++ [.listener]) memory).1.2 = memory.2 ++ [event] := by
  induction observers generalizing memory with
  | nil => rfl
  | cons observer rest ih =>
    obtain ⟨here, later⟩ := List.forall_mem_cons.mp untroubled
    simp only [List.map_cons, List.cons_append, tell, Observer.beside, here event memory.1]
    exact ih _ later

namespace Driven

variable {monitor : Monitor σ} {p : Program} {d : Driven (σ × List StepEvent)}

/-- A machine that runs the program, after any calls since it was new, and what a listener heard
of it since then or since the last reset. -/
inductive Overheard (monitor : Monitor σ) (p : Program) : Driven (σ × List StepEvent) → Prop where
  | start (memory : σ) : Overheard monitor p ⟨.start p, memory, []⟩
  | step {d : Driven (σ × List StepEvent)} (before : Overheard monitor p d) :
      Overheard monitor p (d.step monitor.listening).driven
  | statement {d : Driven (σ × List StepEvent)} {fuel : Nat} {r : Result (σ × List StepEvent)}
      (before : Overheard monitor p d) (returned : d.statement monitor.listening fuel = some r) :
      Overheard monitor p r.driven
  | run {d : Driven (σ × List StepEvent)} {bounds : Bounds} {fuel : Nat}
      {r : Result (σ × List StepEvent)} (before : Overheard monitor p d)
      (returned : d.run monitor.listening bounds fuel = some r) : Overheard monitor p r.driven
  | reset {d : Driven (σ × List StepEvent)} (before : Overheard monitor p d) :
      Overheard monitor p ⟨d.machine.reset, d.memory.1, []⟩

theorem step_listening (untroubled : monitor.Untroubled) (d : Driven (σ × List StepEvent)) :
    (d.step monitor.listening).driven.memory.2 = d.memory.2 ++ d.machine.step.2.toList := by
  have logged : (monitor.listening.logStep d.machine d.machine.step.1 d.memory).2 = d.memory.2 := by
    simp only [Monitor.logStep]
    split <;> rfl
  cases told : d.machine.step.2 with
  | none => simpa [step, told] using logged
  | some event =>
    simp only [step, told, Option.toList_some, ← logged]
    exact Monitor.tell_listening event _ untroubled

variable {P : Driven σ → Prop}

/-- What every step keeps is kept until the next statement. -/
theorem statement_keeps (keeps : ∀ d, P d → P (d.step monitor).driven) {d : Driven σ} {fuel : Nat}
    {r : Result σ} (holds : P d) (returned : d.statement monitor fuel = some r) : P r.driven := by
  induction fuel generalizing d with
  | zero => contradiction
  | succ fuel ih =>
    simp only [statement] at returned
    split at returned
    · cases returned
      exact keeps d holds
    · exact ih (keeps d holds) returned

/-- What every step keeps is kept by a run, whatever bounds it. -/
theorem runFrom_keeps (keeps : ∀ d, P d → P (d.step monitor).driven) {d : Driven σ}
    {bounds : Bounds} {fuel executed : Nat} {r : Result σ} (holds : P d)
    (returned : runFrom monitor bounds fuel executed d = some r) : P r.driven := by
  induction fuel generalizing d executed with
  | zero => contradiction
  | succ fuel ih =>
    simp only [runFrom] at returned
    split at returned
    · cases returned
      exact holds
    · split at returned
      · cases returned
        exact keeps d holds
      · exact ih (keeps d holds) returned

/-- The listener heard of the instructions that were executed, and of running past them. -/
theorem Overheard.numbers (untroubled : monitor.Untroubled) (overheard : Overheard monitor p d) :
    d.machine.Numbers d.memory.2 := by
  have keeps (d : Driven (σ × List StepEvent)) (numbers : d.machine.Numbers d.memory.2) :
      (d.step monitor.listening).driven.machine.Numbers
        (d.step monitor.listening).driven.memory.2 := by
    rw [step_machine, step_listening untroubled]
    exact numbers.step
  induction overheard with
  | start => exact Machine.start_numbers p
  | step _ ih => exact keeps _ ih
  | statement _ returned ih => exact statement_keeps keeps ih returned
  | run _ returned ih => exact runFrom_keeps keeps ih returned
  | reset _ _ => exact Machine.start_numbers _

end Driven

open Driven (Overheard)

variable {monitor : Monitor σ} {p : Program} {d : Driven (σ × List StepEvent)}

/-- The events that are heard of a run, none of whose observers fails, are numbered by their
places and as many as the steps that were counted, unless the machine ran past the last
instruction. Those of executed instructions always are, and if it did, the one after them shows
the number of the last step once more. -/
theorem heard_numbered_iff (untroubled : monitor.Untroubled) (overheard : Overheard monitor p d) :
    ((∀ k event, d.memory.2[k]? = some event → event.step = k + 1) ∧
        d.memory.2.length = d.machine.steps ↔ d.machine.ranPast = false) ∧
      (d.memory.2.filter (·.instruction.isSome)).map StepEvent.step =
        List.range' 1 d.machine.steps ∧
      (d.machine.ranPast = true → d.memory.2.length = d.machine.steps + 1 ∧
        ∃ event, d.memory.2.getLast? = some event ∧ event.instruction = none ∧
          event.step = d.machine.steps ∧ event.exit = d.machine.exit) := by
  have numbers := overheard.numbers untroubled
  have long := numbers.length_eq
  refine ⟨?_, numbers.executed_steps, fun past => ?_⟩
  · constructor
    · rintro ⟨-, many⟩
      rw [← Bool.not_eq_true]
      intro past
      rw [past, if_pos rfl] at long
      omega
    · intro inside
      constructor
      · exact fun k event found => numbers.step_eq inside found
      · simpa [inside] using long
  · refine ⟨?_, _, numbers.getLast past, rfl, rfl, rfl⟩
    simpa [past] using long

/-- Stores nothing and ends without an exit. -/
def Program.lone : Program where
  code := #[.push (.boolean true)]
  symbols := .empty
  graph := none
  labels_nodup := by decide
  targets_defined := nofun

/-- One instruction is executed, and two events are heard that both show its number. -/
theorem heard_numbered_iff_lone :
    ∃ d, Overheard (Monitor.none : Monitor Unit) .lone d ∧ d.machine.ranPast = true ∧
      d.machine.steps = 1 ∧ d.memory.2.map StepEvent.step = [1, 1] ∧
      ¬((∀ k event, d.memory.2[k]? = some event → event.step = k + 1) ∧
        d.memory.2.length = d.machine.steps) := by
  have ran : Driven.run (Monitor.none : Monitor Unit).listening (.steps none) 3
      ⟨.start .lone, (), []⟩ = some _ := rfl
  have overheard := Overheard.run (.start ()) ran
  obtain ⟨numbered, -, -⟩ :=
    heard_numbered_iff (fun _ member => absurd member List.not_mem_nil) overheard
  exact ⟨_, overheard, rfl, rfl, rfl, fun all => absurd (numbered.mp all) (by decide)⟩

end Statecraft
