import Statecraft.Proofs.InstructionSimulation
import Statecraft.Proofs.Verification

/-! Runs of a program that passes the stack check. The machine only goes ways that its
code has, with as many operands as the way counts, so it never lacks an operand and
has the same number of them each time it comes to an instruction. -/
namespace Statecraft
namespace Code

variable {code : List Instruction} {i d e : Nat}

/-- In balanced code all ways to an index have the same depth, also those that leave
the code at its end. -/
theorem Balanced.depth_unique (balanced : Balanced code) (first : Reaches code i d)
    (second : Reaches code i e) : d = e := by
  cases current : code[i]? with
  | some x => exact balanced.agree i d e x first second current
  | none =>
    -- No label stands past the end, so both ways come from the last instruction.
    cases first with
    | start =>
      cases second with
      | start => rfl
      | step _ _ _ flows =>
        have inside := flows.inside
        have outside := List.getElem?_eq_none_iff.mp current
        omega
    | step here last _ flows =>
      cases flows with
      | away _ _ there =>
        rw [current] at there
        contradiction
      | on =>
        cases second with
        | step here' last' _ flows' =>
          cases flows' with
          | away _ _ there =>
            rw [current] at there
            contradiction
          | on =>
            obtain rfl := Option.some.inj (last.symm.trans last')
            rw [balanced.agree _ _ _ _ here here' last]

end Code

namespace Machine

open Code (Reaches Flows Balanced)

variable {m next halted : Machine} {x : Instruction} {cause : Fault.Cause}

theorem popTyped_enough {wanted : Ty} {stack rest : List Value} (some : 0 < stack.length)
    (failed : popTyped wanted stack = .error (cause, rest)) : cause ≠ .stackUnderflow := by
  cases stack with
  | nil => contradiction
  | cons top others =>
    simp only [popTyped] at failed
    split at failed <;> cases failed
    simp

theorem jumpTo_stack {label : String} (jumped : m.jumpTo label = .ok next) :
    next.stack = m.stack := by
  simp only [jumpTo] at jumped
  split at jumped <;> cases jumped
  rfl

theorem jumpTo_enough {label : String} (failed : m.jumpTo label = .error (cause, halted)) :
    cause ≠ .stackUnderflow := by
  simp only [jumpTo] at failed
  split at failed <;> cases failed
  simp

/-- An executed instruction takes and leaves what it says. -/
theorem execute_length (executed : m.execute x = .ok next) :
    next.stack.length = m.stack.length - x.pops + x.pushes := by
  cases x with
  | push | label | location | exit =>
    cases executed
    rfl
  | load name =>
    simp only [execute] at executed
    split at executed <;> cases executed
    rfl
  | store name =>
    simp only [execute] at executed
    split at executed <;> cases executed
    rename_i operands
    simp [operands, Instruction.pops, Instruction.pushes]
  | unary op operand =>
    simp only [execute, applyUnary] at executed
    split at executed
    · contradiction
    · rename_i popped
      split at executed <;> cases executed
      simp [(popTyped_ok popped).1, Instruction.pops, Instruction.pushes]
  | binary op left right =>
    simp only [execute, applyBinary] at executed
    split at executed
    · contradiction
    · rename_i popped
      split at executed
      · contradiction
      · rename_i popped'
        split at executed <;> cases executed
        simp [(popTyped_ok popped).1, (popTyped_ok popped').1, Instruction.pops,
          Instruction.pushes]
  | jump label => rw [jumpTo_stack executed]; rfl
  | jumpIfNot label =>
    simp only [execute] at executed
    split at executed
    · contradiction
    · rename_i condition rest popped
      have stack : next.stack = rest := by
        split at executed
        · cases executed
          rfl
        · exact jumpTo_stack executed
      simp [stack, (popTyped_ok popped).1, Instruction.pops, Instruction.pushes]
  | transition state =>
    simp only [execute, moveTo] at executed
    split at executed
    · contradiction
    · split at executed <;> cases executed
      rfl

/-- An instruction that finds its operands fails for another reason, if it does. -/
theorem execute_enough (enough : x.pops ≤ m.stack.length)
    (failed : m.execute x = .error (cause, halted)) : cause ≠ .stackUnderflow := by
  cases x with
  | push | label | location | exit => contradiction
  | load name =>
    simp only [execute] at failed
    split at failed <;> cases failed
    simp
  | store name =>
    simp only [execute] at failed
    split at failed <;> cases failed
    rename_i operands
    simp [operands, Instruction.pops] at enough
  | unary op operand =>
    simp only [execute, applyUnary] at failed
    split at failed
    · rename_i missing
      cases failed
      exact popTyped_enough enough missing
    · split at failed <;> cases failed
      simp
  | binary op left right =>
    have two : 2 ≤ m.stack.length := enough
    simp only [execute, applyBinary] at failed
    split at failed
    · rename_i missing
      cases failed
      exact popTyped_enough (Nat.zero_lt_of_lt two) missing
    · rename_i popped
      rw [(popTyped_ok popped).1] at two
      split at failed
      · rename_i missing
        cases failed
        exact popTyped_enough (Nat.lt_of_succ_lt_succ two) missing
      · split at failed <;> cases failed
        simp
  | jump label => exact jumpTo_enough failed
  | jumpIfNot label =>
    simp only [execute] at failed
    split at failed
    · rename_i missing
      cases failed
      exact popTyped_enough enough missing
    · split at failed
      · contradiction
      · exact jumpTo_enough failed
  | transition state =>
    simp only [execute, moveTo] at failed
    split at failed
    · cases failed
      simp
    · split at failed <;> cases failed
      simp

theorem jumpTo_lands {label : String} (jumped : m.jumpTo label = .ok next) :
    m.program.instructions[next.ip]? = some (.label label) := by
  simp only [jumpTo] at jumped
  split at jumped <;> cases jumped
  rename_i found
  exact (m.program.getElem?_code _).symm.trans (Program.label_of_resolve? found)

/-- Control goes a way of the code, unless the instruction exits and it stays. -/
theorem execute_flows (current : m.program.instructions[m.ip]? = some x)
    (executed : m.execute x = .ok next) :
    (∃ reason, x = .exit reason ∧ next.ip = m.ip) ∨
      Flows m.program.instructions m.ip next.ip := by
  cases x with
  | exit reason =>
    cases executed
    exact .inl ⟨reason, rfl, rfl⟩
  | push | load | store | unary | binary | label | location | transition =>
    rw [ip_of_straight executed rfl rfl]
    exact .inr (.on current rfl)
  | jump label => exact .inr (.away current rfl (jumpTo_lands executed))
  | jumpIfNot label =>
    simp only [execute] at executed
    split at executed
    · contradiction
    · split at executed
      · cases executed
        exact .inr (.on current rfl)
      · have lands := jumpTo_lands executed
        exact .inr (.away current rfl lands)

/-- The machine came a way of its code with the operands it has, or if it faulted, it did not lack
one. -/
structure Supplied (m : Machine) : Prop where
  way : m.fault = none → Reaches m.program.instructions m.ip m.stack.length
  cause : ∀ f, m.fault = some f → f.cause ≠ .stackUnderflow

theorem start_supplied (p : Program) : (start p).Supplied where
  way _ := .start
  cause f faulted := by contradiction

theorem stepped_supplied (balanced : Balanced m.program.instructions) (supplied : m.Supplied) :
    m.stepped.program = m.program ∧ m.stepped.Supplied := by
  cases stopped : m.stopped with
  | true =>
    rw [stepped_of_stopped stopped]
    exact ⟨rfl, supplied⟩
  | false =>
    cases current : m.program.code[m.ip]? with
    | none =>
      rw [stepped_of_end stopped current]
      exact ⟨rfl, supplied.way, supplied.cause⟩
    | some x =>
      have here : m.program.instructions[m.ip]? = some x :=
        (m.program.getElem?_code _).symm.trans current
      have way := supplied.way (stopped_eq_false.mp stopped).2
      have enough := balanced.enough _ _ _ way here
      cases executed : m.execute x with
      | error failure =>
        obtain ⟨rest, -, stepped⟩ := stepped_of_error stopped current executed
        rw [stepped]
        refine ⟨rfl, nofun, ?_⟩
        rintro _ ⟨⟩
        exact execute_enough enough executed
      | ok next =>
        obtain ⟨same, sound⟩ := execute_frame executed
        rw [stepped_of_ok stopped current executed]
        refine ⟨same, fun _ => ?_, fun f faulted => supplied.cause f (sound.symm.trans faulted)⟩
        show Reaches next.program.instructions next.ip next.stack.length
        rw [same, execute_length executed]
        rcases execute_flows here executed with ⟨reason, rfl, stays⟩ | flows
        · rw [stays]
          exact way
        · exact .step way here enough flows

theorem after_supplied (balanced : Balanced m.program.instructions) (supplied : m.Supplied)
    (n : Nat) : (m.after n).program = m.program ∧ (m.after n).Supplied := by
  induction n generalizing m with
  | zero => exact ⟨rfl, supplied⟩
  | succ n ih =>
    obtain ⟨same, next⟩ := stepped_supplied balanced supplied
    obtain ⟨same', later⟩ := ih (same.symm ▸ balanced) next
    exact ⟨same'.trans same, later⟩

end Machine

/-- Runs through a loop with a value on the stack, and leaves it the second time. -/
def Program.loopOnce : Program where
  code := #[.push (.boolean true), .store "more", .push (.number 3), .label "again", .load "more",
    .jumpIfNot "done", .push (.boolean false), .store "more", .jump "again", .label "done",
    .store "left"]
  symbols := .empty
  graph := none
  labels_nodup := by decide
  targets_defined := by decide

/-- A run of a program that passes the stack check never lacks an operand, and how many
operands there are depends on the place alone. -/
theorem verified_supplied {p : Program} (verified : p.stackErrors = []) :
    (∀ n f, ((Machine.start p).after n).fault = some f → f.cause ≠ .stackUnderflow) ∧
      ∀ a b, ((Machine.start p).after a).fault = none → ((Machine.start p).after b).fault = none →
        ((Machine.start p).after a).ip = ((Machine.start p).after b).ip →
          ((Machine.start p).after a).stack.length = ((Machine.start p).after b).stack.length := by
  have balanced : Code.Balanced p.instructions := p.stackErrors_eq_nil_iff.mp verified
  have run := Machine.after_supplied balanced (Machine.start_supplied p)
  refine ⟨fun n => (run n).2.cause, ?_⟩
  intro a b sound sound' same
  obtain ⟨program, supplied⟩ := run a
  obtain ⟨program', supplied'⟩ := run b
  have way := supplied.way sound
  have way' := supplied'.way sound'
  rw [program, same] at way
  rw [program'] at way'
  exact balanced.depth_unique way way'

/-- The loop is entered and repeated with one value on the stack. -/
theorem verified_supplied_loop :
    Program.loopOnce.stackErrors = [] ∧
      ((Machine.start .loopOnce).after 3).ip = 3 ∧ ((Machine.start .loopOnce).after 9).ip = 3 ∧
      ((Machine.start .loopOnce).after 3).stack.length =
        ((Machine.start .loopOnce).after 9).stack.length := by
  have verified : Program.loopOnce.stackErrors = [] := by decide +kernel
  have entered : ((Machine.start .loopOnce).after 3).ip = 3 := rfl
  have repeated : ((Machine.start .loopOnce).after 9).ip = 3 := by decide +kernel
  have sound : ((Machine.start .loopOnce).after 9).fault = none :=
    Option.isNone_iff_eq_none.mp (by decide +kernel)
  exact ⟨verified, entered, repeated,
    (verified_supplied verified).2 3 9 rfl sound (entered.trans repeated.symm)⟩

end Statecraft
