import Statecraft.Debugger
import Statecraft.Proofs.Driving
import Statecraft.Proofs.Reachability

/-! Sessions with a machine. What calls of drivers and commands of the debugger leave behind
depends on the number of steps since the last reset alone, not on who took them. A machine that
exited or faulted answers every call in the same way until it is reset, and nobody is told. -/
namespace Statecraft

variable {σ : Type}

/-- A reset machine has forgotten how it was stepped. -/
theorem Driven.reset_machine {d : Driven σ} {p : Program} {taken : Nat}
    (reached : d.machine = (Machine.start p).after taken) : d.reset.machine = .start p := by
  refine congrArg Machine.start ?_
  rw [reached]
  exact (Machine.Reached.after p taken).program

/-- What can be asked of a machine that is driven. A limit of zero is no limit. -/
inductive Call where
  | step
  | statement
  | run (limit : Nat)
  | reset
deriving DecidableEq

namespace Call

def perform (monitor : Monitor σ) (fuel : Nat) (d : Driven σ) : Call → Option (Driven.Result σ)
  | step => some (d.step monitor)
  | statement => d.statement monitor fuel
  | run limit => d.run monitor (.upTo limit) fuel
  | reset => some ⟨d.reset, none⟩

/-- The steps since the last reset after a call, if there were `taken` before it. -/
def count (monitor : Monitor σ) (fuel : Nat) (d : Driven σ) (taken : Nat) : Call → Nat
  | step => taken + 1
  | statement => taken + d.countStatement monitor fuel
  | run limit => taken + Driven.countRun monitor (.upTo limit) fuel 0 d
  | reset => 0

/-- Carries out calls one after the other and counts the steps since the last reset. There is no
answer if one of the calls does not return. -/
def performAll (monitor : Monitor σ) (fuel : Nat) :
    List Call → Driven σ → (taken : Nat) → Option (Driven σ × Nat)
  | [], d, taken => some (d, taken)
  | call :: rest, d, taken =>
      match call.perform monitor fuel d with
      | none => none
      | some r => performAll monitor fuel rest r.driven (call.count monitor fuel d taken)

def answers (monitor : Monitor σ) (fuel : Nat) :
    List Call → Driven σ → Option (List (Driven.Result σ))
  | [], _ => some []
  | call :: rest, d =>
      match call.perform monitor fuel d with
      | none => none
      | some r => (answers monitor fuel rest r.driven).map (r :: ·)

variable {monitor : Monitor σ} {d last : Driven σ} {fuel taken total : Nat} {call : Call}
  {calls : List Call} {p : Program}

theorem perform_machine (call : Call) {r : Driven.Result σ}
    (reached : d.machine = (Machine.start p).after taken)
    (returned : call.perform monitor fuel d = some r) :
    r.driven.machine = (Machine.start p).after (call.count monitor fuel d taken) := by
  cases call with
  | step =>
    cases returned
    rw [count, Machine.after_add, ← reached, Driven.step_machine]
    rfl
  | statement => rw [count, Machine.after_add, ← reached, Driven.statement_machine returned]
  | run limit => rw [count, Machine.after_add, ← reached, Driven.runFrom_machine returned]
  | reset =>
    cases returned
    exact Driven.reset_machine reached

theorem performAll_machine (reached : d.machine = (Machine.start p).after taken)
    (returned : performAll monitor fuel calls d taken = some (last, total)) :
    last.machine = (Machine.start p).after total := by
  induction calls generalizing d taken with
  | nil =>
    cases returned
    exact reached
  | cons call rest ih =>
    simp only [performAll] at returned
    split at returned
    · contradiction
    · rename_i r performed
      exact ih (call.perform_machine reached performed) returned

/-- A machine that stopped answers every call but a reset with what it stopped with. -/
theorem perform_of_stopped (stopped : d.machine.stopped = true) (positive : 0 < fuel)
    (other : call ≠ .reset) :
    call.perform monitor fuel d = some ⟨d, d.machine.fault.map .fault⟩ := by
  cases call with
  | step => exact congrArg some (Driven.step_of_stopped monitor stopped)
  | statement => exact Driven.statement_of_stopped stopped positive
  | run limit => exact Driven.run_of_stopped stopped positive
  | reset => contradiction

theorem answers_of_stopped (stopped : d.machine.stopped = true) (positive : 0 < fuel)
    (others : .reset ∉ calls) :
    answers monitor fuel calls d =
      some (List.replicate calls.length ⟨d, d.machine.fault.map .fault⟩) := by
  induction calls with
  | nil => rfl
  | cons call rest ih =>
    have other : call ≠ .reset := fun same => others (same ▸ List.mem_cons_self)
    have later := ih fun member => others (List.mem_cons_of_mem _ member)
    simp only [answers, perform_of_stopped stopped positive other, later, Option.map_some,
      List.length_cons, List.replicate_succ]

end Call

namespace Debugger

/-- The steps since the last reset after a command, if there were `taken` before it. -/
def Command.count (monitor : Monitor σ) (fuel : Nat) (d : Driven σ) (taken : Nat) : Command → Nat
  | .step count => taken + d.countSteps monitor count
  | .next => taken + d.countStatement monitor fuel
  | .run limit => taken + Driven.countRun monitor (.upTo limit) fuel 0 d
  | .reset => 0
  | _ => taken

/-- Carries out commands up to one that ends the session, and counts the steps since the last
reset. There is no answer if one of the commands does not return. -/
def session (source : String) (monitor : Monitor σ) (fuel : Nat) :
    List Command → Driven σ → (taken : Nat) → Option (Driven σ × Nat)
  | [], d, taken => some (d, taken)
  | command :: rest, d, taken =>
      match execute source monitor fuel d command with
      | none => none
      | some answer =>
          let now := command.count monitor fuel d taken
          if answer.ends then some (answer.driven, now)
          else session source monitor fuel rest answer.driven now

variable {source : String} {monitor : Monitor σ} {d last : Driven σ} {fuel taken total : Nat}
  {command : Command} {commands : List Command} {p : Program}

theorem execute_machine {answer : Answer σ} (reached : d.machine = (Machine.start p).after taken)
    (answered : execute source monitor fuel d command = some answer) :
    answer.driven.machine = (Machine.start p).after (command.count monitor fuel d taken) := by
  cases command with
  | step n =>
    cases answered
    rw [Command.count, Machine.after_add, ← reached]
    exact Driven.steps_machine monitor n d
  | next =>
    obtain ⟨r, returned, rfl⟩ := Option.map_eq_some_iff.mp answered
    exact Call.statement.perform_machine reached returned
  | run limit =>
    obtain ⟨r, returned, rfl⟩ := Option.map_eq_some_iff.mp answered
    exact (Call.run limit).perform_machine reached returned
  | reset =>
    cases answered
    exact Driven.reset_machine reached
  | vars | state | whereAmI | list | help | quit | invalidCount | unknown =>
    cases answered
    exact reached

theorem session_machine (reached : d.machine = (Machine.start p).after taken)
    (ended : session source monitor fuel commands d taken = some (last, total)) :
    last.machine = (Machine.start p).after total := by
  induction commands generalizing d taken with
  | nil =>
    cases ended
    exact reached
  | cons command rest ih =>
    simp only [session] at ended
    split at ended
    · contradiction
    · rename_i answer answered
      have here := execute_machine reached answered
      split at ended
      · cases ended
        exact here
      · exact ih here ended

end Debugger

/-- Stores a truth value and its negation in turn, for ever. -/
def Program.blinking : Program where
  code := #[.location .first, .push (.boolean true), .store "lit", .label "blink", .location .first,
    .load "lit", .unary .not .boolean, .store "lit", .jump "blink"]
  symbols := .empty
  graph := none
  labels_nodup := by decide
  targets_defined := by decide

/-- Where a machine is after a session depends on the number of steps since the last reset alone:
calls of the drivers lead where as many single steps do, a run can be split at any number of
steps, and scripts of the debugger that take as many steps end in the same machine. -/
theorem driven_alike (p : Program) (monitor : Monitor σ) (fuel : Nat) (memory : σ) :
    (∀ calls d taken, Call.performAll monitor fuel calls ⟨.start p, memory⟩ 0 = some (d, taken) →
      d.machine = (Machine.start p).after taken) ∧
    (monitor.Untroubled → ∀ (d : Driven σ) (n m : Nat), 0 < n → 0 < m → n + m < fuel →
      ∃ first second, d.run monitor (.upTo n) fuel = some first ∧
        first.driven.run monitor (.upTo m) fuel = some second ∧
        d.run monitor (.upTo (n + m)) fuel = some second) ∧
    ∀ source commands commands' d d' taken,
      Debugger.session source monitor fuel commands ⟨.start p, memory⟩ 0 = some (d, taken) →
      Debugger.session source monitor fuel commands' ⟨.start p, memory⟩ 0 = some (d', taken) →
      d.machine = d'.machine ∧ d.machine = (Machine.start p).after taken := by
  refine ⟨fun calls d taken returned => Call.performAll_machine rfl returned, ?_, ?_⟩
  · intro untroubled d n m positive more enough
    exact Driven.runFrom_split untroubled positive more (Nat.zero_add n) enough (by omega) d
  · intro source commands commands' d d' taken ended ended'
    have here : d.machine = (Machine.start p).after taken := Debugger.session_machine rfl ended
    have there : d'.machine = (Machine.start p).after taken := Debugger.session_machine rfl ended'
    exact ⟨here.trans there.symm, here⟩

/-- A statement, a run that meets its limit, and what one reset leaves out. -/
theorem driven_alike_blinking :
    (∃ d, Call.performAll Monitor.none 20 [.run 5, .reset, .statement, .run 4, .statement, .step]
          ⟨.start .blinking, ()⟩ 0 = some (d, 11) ∧
        d.machine = (Machine.start .blinking).after 11) ∧
      (∃ first second,
        Driven.run Monitor.none (.upTo 5) 20 ⟨.start .blinking, ()⟩ = some first ∧
          first.driven.run Monitor.none (.upTo 7) 20 = some second ∧
          Driven.run Monitor.none (.upTo 12) 20 ⟨.start .blinking, ()⟩ = some second) ∧
      ∃ d d', Debugger.session "" Monitor.none 20 [.next, .vars, .run 4, .next, .step 1]
            ⟨.start .blinking, ()⟩ 0 = some (d, 11) ∧
        Debugger.session "" Monitor.none 20 [.step 7, .reset, .step 11, .quit, .next]
            ⟨.start .blinking, ()⟩ 0 = some (d', 11) ∧
        d.machine = d'.machine := by
  obtain ⟨calls, split, scripts⟩ := driven_alike .blinking (σ := Unit) .none 20 ()
  have called : (Call.performAll Monitor.none 20
      [.run 5, .reset, .statement, .run 4, .statement, .step] ⟨.start .blinking, ()⟩ 0).map
        Prod.snd = some 11 := by decide +kernel
  have told : (Debugger.session "" Monitor.none 20 [.next, .vars, .run 4, .next, .step 1]
      ⟨.start .blinking, ()⟩ 0).map Prod.snd = some 11 := by decide +kernel
  have told' : (Debugger.session "" Monitor.none 20 [.step 7, .reset, .step 11, .quit, .next]
      ⟨.start .blinking, ()⟩ 0).map Prod.snd = some 11 := by decide +kernel
  obtain ⟨⟨last, _⟩, returned, rfl⟩ := Option.map_eq_some_iff.mp called
  obtain ⟨⟨d, _⟩, ended, rfl⟩ := Option.map_eq_some_iff.mp told
  obtain ⟨⟨d', _⟩, ended', rfl⟩ := Option.map_eq_some_iff.mp told'
  have alike := scripts "" _ _ d d' _ ended ended'
  refine ⟨⟨last, returned, calls _ _ _ returned⟩, ?_, d, d', ended, ended', alike.1⟩
  exact split (fun _ member => absurd member List.not_mem_nil) _ 5 7 (by decide) (by decide)
    (by decide)

/-- A step that faults leaves the machine as it was before, except that it shows the fault and that
operands may be gone, and no observer hears of it. Once a step has exited or faulted, whatever is
asked for but a reset is answered with that exit or that fault and changes nothing, neither the
machine nor what anybody has seen. -/
theorem stopped_answers (monitor : Monitor σ) (d : Driven σ) :
    (∀ f, (d.step monitor).halt = some (.fault f) →
      (∃ rest, rest <:+ d.machine.stack ∧
        (d.step monitor).driven.machine = { d.machine with stack := rest, fault := some f }) ∧
      ∀ observers, d.step { monitor with observers } = d.step monitor) ∧
    ((d.step monitor).driven.machine.exit.isSome = true ∨
        (∃ f, (d.step monitor).halt = some (.fault f)) →
      ∀ fuel calls, 0 < fuel → Call.reset ∉ calls →
        Call.answers monitor fuel calls (d.step monitor).driven =
          some (List.replicate calls.length ⟨(d.step monitor).driven,
            (d.step monitor).driven.machine.fault.map .fault⟩)) ∧
    ∀ f, (d.step monitor).halt = some (.fault f) ↔
      (d.step monitor).driven.machine.fault = some f := by
  refine ⟨fun f => Driven.step_of_fault, ?_, Driven.step_fault_iff monitor d⟩
  intro ended fuel calls positive others
  refine Call.answers_of_stopped ?_ positive others
  rcases ended with exited | ⟨f, faulted⟩
  · simp [Machine.stopped, exited]
  · simp [Machine.stopped, (Driven.step_fault_iff monitor d f).mp faulted]

/-- Has one operand for an operator of two. -/
def Program.halfway : Program where
  code := #[.push (.boolean true), .binary .and .boolean .boolean]
  symbols := .empty
  graph := none
  labels_nodup := by decide
  targets_defined := nofun

/-- The observer counts what it is told of. -/
def Monitor.counting : Monitor Nat := ⟨fun _ n => n, [fun _ n => (n + 1, Option.none)]⟩

/-- The operator takes its right operand and lacks the left one. -/
theorem stopped_answers_halfway :
    let before : Machine := (Machine.start .halfway).after 1
    before.stack = [.boolean true] ∧
      ∃ f, f.cause = .stackUnderflow ∧
        Driven.step .counting ⟨before, 1⟩ =
          ⟨⟨{ before with stack := [], fault := some f }, 1⟩, some (.fault f)⟩ ∧
        ([] : List Value) <:+ before.stack ∧
        Call.answers .counting 1 [.statement, .run 3, .step, .run 0]
            ⟨{ before with stack := [], fault := some f }, 1⟩ =
          some (List.replicate 4
            ⟨⟨{ before with stack := [], fault := some f }, 1⟩, some (.fault f)⟩) := by
  intro before
  obtain ⟨faults, answers, -⟩ := stopped_answers .counting ⟨before, 1⟩
  obtain ⟨⟨rest, left, halted⟩, -⟩ := faults ⟨1, .binary .and .boolean .boolean, .stackUnderflow⟩ rfl
  obtain rfl : rest = [] := (congrArg Machine.stack halted).symm
  exact ⟨rfl, _, rfl, rfl, left, answers (.inr ⟨_, rfl⟩) 1 [.statement, .run 3, .step, .run 0]
    (by decide) (by decide)⟩

end Statecraft
