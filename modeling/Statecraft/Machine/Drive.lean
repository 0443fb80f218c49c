import Statecraft.Machine

/-! Driving a machine: by single steps, by statements, or until it stops. Observers
see every step and may fail, which interrupts the driver and not the machine. A
log sees the machine before and after every step. -/
namespace Statecraft

inductive Notice where
  | moved (source target : String)
  /-- The steps are those counted before the step that exited. -/
  | exited (reason : ExitReason) (state : String) (steps : Nat)
  | halted (fault : Fault)

def Notice.between? (before after : Machine) : Option Notice :=
  if before.stopped then none
  else
    match after.fault, after.exit with
    | some fault, _ => some (.halted fault)
    | none, some reason => some (.exited reason after.state before.steps)
    | none, none =>
        match before.program.code[before.ip]? with
        | some (.transition state) => some (.moved before.state state)
        | _ => none

inductive Halt where
  | fault (fault : Fault)
  | observer (message : String)
  | stepLimit
  | canceled
  | deadlineExceeded

def Halt.message : Halt → String
  | fault f => f.message
  | observer message => "observer: " ++ message
  | stepLimit => "step limit reached"
  | canceled => "context canceled"
  | deadlineExceeded => "context deadline exceeded"

/-- Takes note of a step in a memory of type `σ`, and says why that failed, if it
did. -/
abbrev Observer (σ : Type) := StepEvent → σ → σ × Option String

/-- Who watches a machine, with a memory of type `σ`. -/
structure Monitor (σ : Type) where
  log : Notice → σ → σ
  /-- They are told of every step in this order, up to the first that fails. -/
  observers : List (Observer σ)

def Monitor.none {σ : Type} : Monitor σ := ⟨fun _ memory => memory, []⟩

def Monitor.tell {σ : Type} (event : StepEvent) : List (Observer σ) → σ → σ × Option String
  | [], memory => (memory, .none)
  | observer :: rest, memory =>
      match observer event memory with
      | (memory, some message) => (memory, some message)
      | (memory, .none) => tell event rest memory

def Monitor.logStep {σ : Type} (monitor : Monitor σ) (before after : Machine) (memory : σ) : σ :=
  match Notice.between? before after with
  | some notice => monitor.log notice memory
  | .none => memory

structure Driven (σ : Type) where
  machine : Machine
  memory : σ

structure Driven.Result (σ : Type) where
  driven : Driven σ
  halt : Option Halt

namespace Driven

variable {σ : Type}

/-- The next call of the driver changes nothing. -/
def Result.isLast (r : Result σ) : Bool := r.driven.machine.exit.isSome || r.halt.isSome

/-- One step. A fault is reported again by every later call. -/
def step (monitor : Monitor σ) (d : Driven σ) : Result σ :=
  let (machine, event) := d.machine.step
  let memory := monitor.logStep d.machine machine d.memory
  match event with
  | none => ⟨⟨machine, memory⟩, machine.fault.map .fault⟩
  | some event =>
      let (memory, failure) := Monitor.tell event monitor.observers memory
      ⟨⟨machine, memory⟩, failure.map .observer⟩

/-- At most the given number of steps more, up to an exit or a halt. -/
def stepsAfter (monitor : Monitor σ) : Nat → Result σ → Result σ
  | 0, r => r
  | n + 1, r => if r.isLast then r else stepsAfter monitor n (r.driven.step monitor)

/-- At most the given number of steps, up to an exit or a halt. There is no
result if no step is asked for. -/
def steps (monitor : Monitor σ) (n : Nat) (d : Driven σ) : Option (Result σ) :=
  match n with
  | 0 => none
  | n + 1 => some (stepsAfter monitor n (d.step monitor))

/-- Steps until the next instruction starts a statement, or an exit or a halt.
There is no answer if that takes more than the given number of steps. -/
def statement (monitor : Monitor σ) : Nat → Driven σ → Option (Result σ)
  | 0, _ => none
  | fuel + 1, d =>
      let r := d.step monitor
      if r.isLast || r.driven.machine.atStatement then some r else statement monitor fuel r.driven

/-- When a run has to stop: after `limit` steps, if given, and as soon as
`interrupted` says so for the number of steps done. -/
structure Bounds where
  limit : Option Nat
  interrupted : Nat → Option Halt

def Bounds.steps (limit : Option Nat) : Bounds := ⟨limit, fun _ => none⟩

def Bounds.halt? (bounds : Bounds) (executed : Nat) : Option Halt :=
  match bounds.interrupted executed with
  | some halt => some halt
  | none =>
      match bounds.limit with
      | some limit => if limit ≤ executed then some .stepLimit else none
      | none => none

def runFrom (monitor : Monitor σ) (bounds : Bounds) :
    (fuel executed : Nat) → Driven σ → Option (Result σ)
  | 0, _, _ => none
  | fuel + 1, executed, d =>
      match bounds.halt? executed with
      | some halt => some ⟨d, some halt⟩
      | none =>
          let r := d.step monitor
          if r.isLast then some r else runFrom monitor bounds fuel (executed + 1) r.driven

/-- Steps until an exit or a halt. There is no answer if that takes more than the
given number of steps. -/
def run (monitor : Monitor σ) (bounds : Bounds) (fuel : Nat) (d : Driven σ) :
    Option (Result σ) :=
  runFrom monitor bounds fuel 0 d

/-- Rewinds the machine; what was seen stays. -/
def reset (d : Driven σ) : Driven σ := { d with machine := d.machine.reset }

end Driven
end Statecraft
