import Statecraft.Machine

/-! Runs of the machine. A run is the machine after each number of steps and the
effects seen on the way. A machine that exited or faulted stays as it is, so what a
run has done by some step it has done by every later one. -/
namespace Statecraft

inductive Effect where
  /-- The code of a statement starts. -/
  | located (span : Selection)
  | stored (name : String) (value : Value)
  | moved (state : String)

/-- The effect changes the store or the state. -/
def Effect.isChange : Effect → Bool
  | located _ => false
  | _ => true

namespace Machine

def stepped (m : Machine) : Machine := m.step.1

def after (m : Machine) : Nat → Machine
  | 0 => m
  | n + 1 => m.stepped.after n

def effectsOf (m : Machine) : Instruction → List Effect
  | .location span => [.located span]
  | .store name => (m.stack.head?.map (Effect.stored name)).toList
  | .transition state => [.moved state]
  | _ => []

/-- What the next step does. A step that faults does nothing. -/
def effects (m : Machine) : List Effect :=
  if m.stopped || m.stepped.fault.isSome then []
  else ((m.program.code[m.ip]?).map m.effectsOf).getD []

def trace (m : Machine) : Nat → List Effect
  | 0 => []
  | n + 1 => m.effects ++ m.stepped.trace n

/-- The stores and the moves among the first steps. -/
def changes (m : Machine) (n : Nat) : List Effect := (m.trace n).filter Effect.isChange

@[simp] theorem after_zero (m : Machine) : m.after 0 = m := rfl

@[simp] theorem trace_zero (m : Machine) : m.trace 0 = [] := rfl

theorem after_add (m : Machine) (a b : Nat) : m.after (a + b) = (m.after a).after b := by
  induction a generalizing m with
  | zero => simp
  | succ a ih =>
    rw [Nat.add_right_comm]
    exact ih m.stepped

theorem trace_add (m : Machine) (a b : Nat) :
    m.trace (a + b) = m.trace a ++ (m.after a).trace b := by
  induction a generalizing m with
  | zero => simp
  | succ a ih =>
    rw [Nat.add_right_comm]
    simp only [trace, after, ih m.stepped, List.append_assoc]

theorem changes_add (m : Machine) (a b : Nat) :
    m.changes (a + b) = m.changes a ++ (m.after a).changes b := by
  simp only [changes, trace_add, List.filter_append]

theorem stepped_of_stopped {m : Machine} (stopped : m.stopped = true) : m.stepped = m := by
  simp [stepped, step, stopped]

theorem after_of_stopped {m : Machine} (stopped : m.stopped = true) (n : Nat) :
    m.after n = m := by
  induction n with
  | zero => rfl
  | succ n ih => rw [after, stepped_of_stopped stopped, ih]

theorem trace_of_stopped {m : Machine} (stopped : m.stopped = true) (n : Nat) :
    m.trace n = [] := by
  induction n with
  | zero => rfl
  | succ n ih => simp [trace, effects, stopped, stepped_of_stopped stopped, ih]

theorem after_of_stopped_le {m : Machine} {a b : Nat} (stopped : (m.after a).stopped = true)
    (later : a ≤ b) : m.after b = m.after a := by
  obtain ⟨c, rfl⟩ := Nat.exists_eq_add_of_le later
  rw [after_add, after_of_stopped stopped]

theorem trace_of_stopped_le {m : Machine} {a b : Nat} (stopped : (m.after a).stopped = true)
    (later : a ≤ b) : m.trace b = m.trace a := by
  obtain ⟨c, rfl⟩ := Nat.exists_eq_add_of_le later
  rw [trace_add, trace_of_stopped stopped, List.append_nil]

theorem changes_of_stopped_le {m : Machine} {a b : Nat} (stopped : (m.after a).stopped = true)
    (later : a ≤ b) : m.changes b = m.changes a := by
  rw [changes, trace_of_stopped_le stopped later, changes]

/-- A run stops in one way only. -/
theorem stopped_unique {m : Machine} {a b : Nat} (first : (m.after a).stopped = true)
    (second : (m.after b).stopped = true) :
    m.after a = m.after b ∧ m.changes a = m.changes b := by
  rcases Nat.le_total a b with later | later
  · exact ⟨(after_of_stopped_le first later).symm, (changes_of_stopped_le first later).symm⟩
  · exact ⟨after_of_stopped_le second later, changes_of_stopped_le second later⟩

theorem changes_prefix (m : Machine) {a b : Nat} (later : a ≤ b) :
    m.changes a <+: m.changes b := by
  obtain ⟨c, rfl⟩ := Nat.exists_eq_add_of_le later
  rw [changes_add]
  exact List.prefix_append _ _

/-- Running past the last instruction is an exit. -/
theorem stepped_of_end {m : Machine} (running : m.stopped = false)
    (past : m.program.code[m.ip]? = none) : m.stepped = { m with exit := some .success } := by
  simp [stepped, step, running, past]

theorem stepped_of_ok {m next : Machine} {i : Instruction} (running : m.stopped = false)
    (current : m.program.code[m.ip]? = some i) (executed : m.execute i = .ok next) :
    m.stepped = { next with steps := m.steps + 1 } := by
  simp [stepped, step, running, current, executed]

theorem stopped_eq_false {m : Machine} :
    m.stopped = false ↔ m.exit = none ∧ m.fault = none := by
  cases h : m.exit <;> cases h' : m.fault <;> simp [stopped, h, h']

theorem stopped_of_exit {m : Machine} {reason : ExitReason} (exited : m.exit = some reason) :
    m.stopped = true := by
  simp [stopped, exited]

/-- No instruction changes the program, and none that is executed sets a fault. -/
theorem execute_frame {m next : Machine} {i : Instruction} (executed : m.execute i = .ok next) :
    next.program = m.program ∧ next.fault = m.fault := by
  cases i with
  | push | label | location | exit => cases executed; exact ⟨rfl, rfl⟩
  | load name =>
    simp only [execute] at executed
    split at executed
    · contradiction
    · cases executed; exact ⟨rfl, rfl⟩
  | store name =>
    simp only [execute] at executed
    split at executed
    · contradiction
    · cases executed; exact ⟨rfl, rfl⟩
  | unary op operand =>
    simp only [execute, applyUnary] at executed
    split at executed
    · contradiction
    · split at executed
      · contradiction
      · cases executed; exact ⟨rfl, rfl⟩
  | binary op left right =>
    simp only [execute, applyBinary] at executed
    split at executed
    · contradiction
    · split at executed
      · contradiction
      · split at executed
        · contradiction
        · cases executed; exact ⟨rfl, rfl⟩
  | jump label =>
    simp only [execute, jumpTo] at executed
    split at executed
    · contradiction
    · cases executed; exact ⟨rfl, rfl⟩
  | jumpIfNot label =>
    simp only [execute, jumpTo] at executed
    split at executed
    · contradiction
    · split at executed
      · cases executed; exact ⟨rfl, rfl⟩
      · split at executed
        · contradiction
        · cases executed; exact ⟨rfl, rfl⟩
  | transition state =>
    simp only [execute, moveTo] at executed
    split at executed
    · contradiction
    · split at executed
      · contradiction
      · cases executed; exact ⟨rfl, rfl⟩

/-- The second machine is the first one, except that operands may be gone. -/
def Drops (m m' : Machine) : Prop := ∃ rest, rest <:+ m.stack ∧ m' = { m with stack := rest }

theorem Drops.refl (m : Machine) : m.Drops m := ⟨m.stack, List.suffix_rfl, rfl⟩

theorem popTyped_error {wanted : Ty} {stack rest : List Value} {cause : Fault.Cause}
    (failed : popTyped wanted stack = .error (cause, rest)) : rest <:+ stack := by
  cases stack with
  | nil =>
    cases failed
    exact List.suffix_rfl
  | cons v below =>
    simp only [popTyped] at failed
    split at failed
    · contradiction
    · cases failed
      exact List.suffix_cons v _

theorem popTyped_ok {wanted : Ty} {stack rest : List Value} {v : Value}
    (popped : popTyped wanted stack = .ok (v, rest)) : stack = v :: rest ∧ v.type = wanted := by
  cases stack with
  | nil => contradiction
  | cons top below =>
    simp only [popTyped] at popped
    split at popped
    · cases popped
      exact ⟨rfl, ‹_›⟩
    · contradiction

theorem jumpTo_error {m halted : Machine} {label : String} {cause : Fault.Cause}
    (failed : m.jumpTo label = .error (cause, halted)) : halted = m := by
  simp only [jumpTo] at failed
  split at failed
  · cases failed
    rfl
  · contradiction

theorem moveTo_error {m halted : Machine} {state : String} {cause : Fault.Cause}
    (failed : m.moveTo state = .error (cause, halted)) : halted = m := by
  simp only [moveTo] at failed
  split at failed
  · cases failed
    rfl
  · split at failed
    · cases failed
      rfl
    · contradiction

theorem applyUnary_error {m halted : Machine} {op : UnaryOp} {operand : Ty} {cause : Fault.Cause}
    (failed : m.applyUnary op operand = .error (cause, halted)) : m.Drops halted := by
  simp only [applyUnary] at failed
  split at failed
  · rename_i missing
    cases failed
    exact ⟨_, popTyped_error missing, rfl⟩
  · rename_i v rest popped
    obtain ⟨operands, -⟩ := popTyped_ok popped
    split at failed
    · cases failed
      exact ⟨rest, operands ▸ List.suffix_cons v rest, rfl⟩
    · contradiction

/-- The right operand may be gone when the left one is missing. -/
theorem applyBinary_error {m halted : Machine} {op : BinaryOp} {left right : Ty}
    {cause : Fault.Cause} (failed : m.applyBinary op left right = .error (cause, halted)) :
    m.Drops halted := by
  simp only [applyBinary] at failed
  split at failed
  · rename_i missing
    cases failed
    exact ⟨_, popTyped_error missing, rfl⟩
  · rename_i r below popped
    obtain ⟨operands, -⟩ := popTyped_ok popped
    have first : below <:+ m.stack := operands ▸ List.suffix_cons r below
    split at failed
    · rename_i missing
      cases failed
      exact ⟨_, (popTyped_error missing).trans first, rfl⟩
    · rename_i l rest popped'
      obtain ⟨operands', -⟩ := popTyped_ok popped'
      have second : rest <:+ below := operands' ▸ List.suffix_cons l rest
      split at failed
      · cases failed
        exact ⟨rest, second.trans first, rfl⟩
      · contradiction

/-- An instruction that fails has done nothing but take operands. -/
theorem execute_error {m halted : Machine} {i : Instruction} {cause : Fault.Cause}
    (failed : m.execute i = .error (cause, halted)) : m.Drops halted := by
  cases i with
  | push | label | location | exit => contradiction
  | load name =>
    simp only [execute] at failed
    split at failed
    · cases failed
      exact .refl m
    · contradiction
  | store name =>
    simp only [execute] at failed
    split at failed
    · cases failed
      exact .refl m
    · contradiction
  | unary op operand => exact applyUnary_error failed
  | binary op left right => exact applyBinary_error failed
  | jump label =>
    rw [jumpTo_error failed]
    exact .refl m
  | jumpIfNot label =>
    simp only [execute] at failed
    split at failed
    · rename_i missing
      cases failed
      exact ⟨_, popTyped_error missing, rfl⟩
    · rename_i condition rest popped
      obtain ⟨operands, -⟩ := popTyped_ok popped
      split at failed
      · contradiction
      · exact ⟨rest, operands ▸ List.suffix_cons condition rest, jumpTo_error failed⟩
  | transition state =>
    rw [moveTo_error failed]
    exact .refl m

/-- A step that fails leaves everything as it was but the operands and the fault. -/
theorem stepped_of_error {m : Machine} {i : Instruction} {failure : Fault.Cause × Machine}
    (running : m.stopped = false) (current : m.program.code[m.ip]? = some i)
    (failed : m.execute i = .error failure) : ∃ rest, rest <:+ m.stack ∧
      m.stepped = { m with stack := rest, fault := some ⟨m.ip, i, failure.1⟩ } := by
  obtain ⟨rest, left, halted⟩ := execute_error failed
  refine ⟨rest, left, ?_⟩
  simp [stepped, step, running, current, failed, halted]

end Machine
end Statecraft
