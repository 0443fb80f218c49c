import Statecraft.Proofs.Driving
import Statecraft.Proofs.GraphMoves
import Statecraft.Proofs.CycleLocations
import Statecraft.Proofs.Reachability
import Statecraft.Proofs.StackSafety

/-! Stepping by statements. In paced code control comes to a location before it comes to an
instruction again, so a statement takes no more steps than there are instructions. Every
statement but the first starts with its location and executes no other, so the locations
shown one after the other are those that the machine executes. -/
namespace Statecraft

def Effect.span? : Effect → Option Selection
  | located span => some span
  | _ => none

namespace Machine

variable {m next : Machine} {x : Instruction}

def located (m : Machine) (n : Nat) : List Selection := (m.trace n).filterMap Effect.span?

def starts (m : Machine) : Bool := !m.stopped && m.atStatement

/-- What is shown after a statement that executes no location. -/
def resumed (m : Machine) : List Selection := if m.starts then [] else [m.location]

theorem after_program (m : Machine) (n : Nat) : (m.after n).program = m.program := by
  induction n generalizing m with
  | zero => rfl
  | succ n ih => exact (ih m.stepped).trans (stepped_follows m).1

theorem located_add (m : Machine) (a b : Nat) :
    m.located (a + b) = m.located a ++ (m.after a).located b := by
  simp only [located, trace_add, List.filterMap_append]

theorem located_of_stopped (stopped : m.stopped = true) (n : Nat) : m.located n = [] := by
  rw [located, trace_of_stopped stopped, List.filterMap_nil]

theorem located_of_stopped_le {a b : Nat} (stopped : (m.after a).stopped = true)
    (later : a ≤ b) : m.located b = m.located a := by
  rw [located, trace_of_stopped_le stopped later, located]

theorem moveTo_location {state : String} (moved : m.moveTo state = .ok next) :
    next.location = m.location := by
  simp only [moveTo] at moved
  split at moved
  · contradiction
  · split at moved <;> cases moved
    rfl

theorem jumpTo_location {label : String} (jumped : m.jumpTo label = .ok next) :
    next.location = m.location := by
  simp only [jumpTo] at jumped
  split at jumped <;> cases jumped
  rfl

/-- No other instruction changes the location. -/
theorem execute_location (executed : m.execute x = .ok next) (other : x.isLocation = false) :
    next.location = m.location := by
  cases x with
  | location => contradiction
  | push | label | exit => cases executed; rfl
  | load name =>
    simp only [execute] at executed
    split at executed <;> cases executed
    rfl
  | store name =>
    simp only [execute] at executed
    split at executed <;> cases executed
    rfl
  | unary op operand =>
    simp only [execute, applyUnary] at executed
    split at executed
    · contradiction
    · split at executed <;> cases executed
      rfl
  | binary op left right =>
    simp only [execute, applyBinary] at executed
    split at executed
    · contradiction
    · split at executed
      · contradiction
      · split at executed <;> cases executed
        rfl
  | jump label => exact jumpTo_location executed
  | jumpIfNot label =>
    simp only [execute] at executed
    split at executed
    · contradiction
    · split at executed
      · cases executed; rfl
      · have kept := jumpTo_location executed
        exact kept
  | transition state => exact moveTo_location executed

/-- Locations are the only instructions that show one. -/
theorem effectsOf_spans (m : Machine) (other : x.isLocation = false) :
    (m.effectsOf x).filterMap Effect.span? = [] := by
  cases x with
  | location => contradiction
  | store name =>
    simp only [effectsOf]
    cases m.stack <;> rfl
  | _ => rfl

/-- A step executes the location that it shows, unless it keeps the one that was shown before. -/
theorem resumed_effects (m : Machine) :
    m.resumed ++ m.effects.filterMap Effect.span? = [m.stepped.location] := by
  cases stopped : m.stopped with
  | true => simp [resumed, starts, effects, stopped, stepped_of_stopped stopped]
  | false =>
    cases current : m.program.code[m.ip]? with
    | none =>
      simp [resumed, starts, atStatement, effects, stopped, current, stepped_of_end stopped current]
    | some x =>
      cases executed : m.execute x with
      | error failure =>
        have other : x.isLocation = false := by cases x <;> first | rfl | contradiction
        obtain ⟨rest, -, stepped⟩ := stepped_of_error stopped current executed
        simp [resumed, starts, atStatement, effects, stopped, current, other, stepped]
      | ok next =>
        have sound : next.fault = none :=
          (execute_frame executed).2.trans (stopped_eq_false.mp stopped).2
        cases located : x.isLocation with
        | false =>
          simp [resumed, starts, atStatement, effects, stopped, current, located, sound,
            stepped_of_ok stopped current executed, execute_location executed located,
            effectsOf_spans m located]
        | true =>
          cases x <;> try contradiction
          cases executed
          simp [resumed, starts, atStatement, effects, effectsOf, Effect.span?, stopped, current,
            located, sound, stepped_of_ok stopped current rfl]

theorem resumed_located (m : Machine) (n : Nat) :
    m.resumed ++ m.located (n + 1) = m.stepped.location :: m.stepped.located n := by
  rw [located, trace, List.filterMap_append, ← List.append_assoc, resumed_effects]
  rfl

theorem length_located_le (m : Machine) (n : Nat) :
    (m.resumed ++ m.located n).length ≤ n + 1 := by
  induction n generalizing m with
  | zero =>
    simp only [resumed]
    split <;> simp [located]
  | succ n ih =>
    have later := ih m.stepped
    rw [List.length_append] at later
    rw [resumed_located, List.length_cons]
    omega

end Machine

namespace Driven

variable {σ : Type} {monitor : Monitor σ} {d : Driven σ} {fuel : Nat} {r : Result σ}

/-- The locations shown after each of some statements, up to the one that is the last. There is
no answer if one of them takes more than the given number of steps. -/
def shown (monitor : Monitor σ) (fuel : Nat) : Nat → Driven σ → Option (List Selection)
  | 0, _ => some []
  | n + 1, d =>
      match d.statement monitor fuel with
      | none => none
      | some r =>
          if r.isLast then some [r.driven.machine.location]
          else (shown monitor fuel n r.driven).map (r.driven.machine.location :: ·)

/-- Control goes on unless the driver stops. -/
theorem step_flows (going : (d.step monitor).isLast = false)
    (inside : d.machine.ip < d.machine.program.instructions.length) :
    (d.step monitor).driven.machine.program = d.machine.program ∧
      Code.Flows d.machine.program.instructions d.machine.ip
        (d.step monitor).driven.machine.ip := by
  have running : d.machine.stopped = false := by
    refine Bool.eq_false_iff.mpr fun stopped => ?_
    rw [step_of_stopped monitor stopped, isLast_of_stopped stopped] at going
    contradiction
  obtain ⟨x, here⟩ : ∃ x, d.machine.program.instructions[d.machine.ip]? = some x :=
    ⟨_, List.getElem?_eq_getElem inside⟩
  have current : d.machine.program.code[d.machine.ip]? = some x :=
    (Program.getElem?_code _ _).trans here
  simp only [Result.isLast, Bool.or_eq_false_iff] at going
  obtain ⟨noExit, noHalt⟩ := going
  cases executed : d.machine.execute x with
  | error failure =>
    obtain ⟨rest, -, stepped⟩ := Machine.stepped_of_error running current executed
    have faults := (step_fault_iff monitor d ⟨d.machine.ip, x, failure.1⟩).mpr
      (by rw [step_machine, stepped])
    simp [faults] at noHalt
  | ok next =>
    have stepped := Machine.stepped_of_ok running current executed
    rw [step_machine, stepped] at noExit ⊢
    refine ⟨(Machine.execute_frame executed).1, ?_⟩
    rcases Machine.execute_flows here executed with ⟨reason, rfl, -⟩ | flows
    · cases executed
      contradiction
    · exact flows

/-- A statement takes as many steps as there are stages left, or fewer. -/
theorem statement_within {code : List Instruction} (paced : Code.Paced code)
    (runs : d.machine.program.instructions = code) (inside : d.machine.ip < code.length)
    (enough : code.length ≤ Code.stage code d.machine.ip + fuel) :
    ∃ r, d.statement monitor fuel = some r := by
  induction fuel generalizing d with
  | zero =>
    have early := Code.stage_lt inside
    omega
  | succ fuel ih =>
    simp only [statement]
    cases ended : (d.step monitor).isLast || (d.step monitor).driven.machine.atStatement with
    | true => exact ⟨_, rfl⟩
    | false =>
      rw [Bool.or_eq_false_iff] at ended
      subst runs
      obtain ⟨same, flows⟩ := step_flows ended.1 inside
      have apart := ended.2
      rw [Machine.atStatement, Program.getElem?_code, same] at apart
      have later := paced.stage_flows flows apart
      exact ih (by rw [same]) (paced.inside flows) (by omega)

/-- Every statement comes to its end. -/
theorem statement_returns (monitor : Monitor σ) (d : Driven σ)
    (paced : Code.Paced d.machine.program.instructions) :
    ∃ r, d.statement monitor d.machine.program.size = some r := by
  rcases Nat.lt_or_ge d.machine.ip d.machine.program.instructions.length with inside | past
  · exact statement_within paced rfl inside (Nat.le_add_left _ _)
  · obtain ⟨last, -, length, -⟩ := paced.closes.last
    rw [Program.instructions, Array.length_toList] at length
    rw [Program.size, length, statement, if_pos]
    · exact ⟨_, rfl⟩
    · cases stopped : d.machine.stopped with
      | true => rw [step_of_stopped monitor stopped, isLast_of_stopped stopped, Bool.true_or]
      | false =>
        have none : d.machine.program.code[d.machine.ip]? = none :=
          (Program.getElem?_code _ _).trans (List.getElem?_eq_none_iff.mpr past)
        simp [Result.isLast, step_machine, Machine.stepped_of_end stopped none]

/-- A statement that does not end the run ends where the next one starts. -/
theorem statement_stops (returned : d.statement monitor fuel = some r)
    (goes : r.isLast = false) : r.driven.machine.atStatement = true := by
  induction fuel generalizing d with
  | zero => contradiction
  | succ fuel ih =>
    simp only [statement] at returned
    split at returned
    · rename_i ended
      cases returned
      simpa [goes] using ended
    · exact ih returned

theorem isLast_statement (untroubled : monitor.Untroubled)
    (returned : d.statement monitor fuel = some r) : r.isLast = r.driven.machine.stopped := by
  induction fuel generalizing d with
  | zero => contradiction
  | succ fuel ih =>
    simp only [statement] at returned
    split at returned
    · cases returned
      exact isLast_step untroubled d
    · exact ih returned

theorem countStatement_le (monitor : Monitor σ) (fuel : Nat) (d : Driven σ) :
    d.countStatement monitor fuel ≤ fuel := by
  induction fuel generalizing d with
  | zero => exact Nat.le_refl 0
  | succ fuel ih =>
    simp only [countStatement]
    split
    · omega
    · exact Nat.succ_le_succ (ih _)

/-- A statement executes the location that it shows, unless it keeps the one that was shown
before. -/
theorem statement_located (returned : d.statement monitor fuel = some r) :
    d.machine.resumed ++ d.machine.located (d.countStatement monitor fuel) =
      [r.driven.machine.location] := by
  induction fuel generalizing d with
  | zero => contradiction
  | succ fuel ih =>
    simp only [statement] at returned
    simp only [countStatement]
    split at returned
    · rename_i ended
      cases returned
      rw [if_pos ended, Machine.resumed_located, step_machine]
      rfl
    · rename_i ended
      have later := ih returned
      have elsewhere : (d.step monitor).driven.machine.resumed =
          [(d.step monitor).driven.machine.location] := by
        simp only [Bool.or_eq_true, not_or, Bool.not_eq_true] at ended
        simp [Machine.resumed, Machine.starts, ended.2]
      rw [elsewhere, step_machine] at later
      rw [if_neg ended, Machine.resumed_located]
      exact later

/-- The statements show the first locations that the machine executes, after the one that is
shown again if the first statement executes none. -/
theorem shown_located (untroubled : monitor.Untroubled) {p : Program}
    (runs : d.machine.program = p) (paced : Code.Paced p.instructions) (n : Nat) {k : Nat}
    (enough : n * p.size ≤ k) :
    d.shown monitor p.size n = some ((d.machine.resumed ++ d.machine.located k).take n) := by
  induction n generalizing d k with
  | zero => rfl
  | succ n ih =>
    obtain ⟨r, returned⟩ := statement_returns monitor d (runs ▸ paced)
    rw [runs] at returned
    have counted := countStatement_le monitor p.size d
    have machine := statement_machine returned
    rw [Nat.succ_mul] at enough
    obtain ⟨rest, rfl⟩ := Nat.exists_eq_add_of_le
      (Nat.le_trans (Nat.le_trans counted (Nat.le_add_left _ _)) enough)
    rw [Machine.located_add, ← machine, ← List.append_assoc, statement_located returned]
    simp only [shown, returned, List.singleton_append, List.take_succ_cons]
    cases last : r.isLast with
    | true =>
      have stopped : r.driven.machine.stopped = true := isLast_statement untroubled returned ▸ last
      rw [Machine.located_of_stopped stopped, List.take_nil]
      rfl
    | false =>
      have running : r.driven.machine.stopped = false :=
        isLast_statement untroubled returned ▸ last
      have next : r.driven.machine.resumed = [] := by
        simp [Machine.resumed, Machine.starts, running, statement_stops returned last]
      have same : r.driven.machine.program = p := by rw [machine, Machine.after_program, runs]
      have later := ih (k := rest) same (by omega)
      rw [next, List.nil_append] at later
      simp only [Bool.false_eq_true, if_false, later, Option.map_some]

/-- When the machine stops, all locations were shown. -/
theorem shown_of_stopped (untroubled : monitor.Untroubled) {p : Program}
    (runs : d.machine.program = p) (paced : Code.Paced p.instructions) {n k : Nat}
    (stopped : (d.machine.after k).stopped = true) (many : k < n) :
    d.shown monitor p.size n = some (d.machine.resumed ++ d.machine.located k) := by
  have all : (d.machine.resumed ++ d.machine.located k).length ≤ n :=
    Nat.le_trans (d.machine.length_located_le k) many
  have long : n * p.size ≤ k + n * p.size := Nat.le_add_left _ _
  rw [shown_located untroubled runs paced n long,
    Machine.located_of_stopped_le stopped (Nat.le_add_right k _), List.take_of_length_le all]

end Driven

/-- Stepping a compiled program by statements, optimised or not, always comes to an end and
misses nothing. Whatever state the machine is in, a statement takes no more steps than there are
instructions, and it ends where the next one starts unless the driver stops. Any number of
statements show the first locations that the machine executes, in order, and all of them when
it stops. Only the first statement may execute none, and then the location that was shown before
is shown again. -/
theorem statements_show {program : Source.Program} {earlier reports : List Report}
    {p q : Program} (accepted : Compile.program program earlier = .ok ⟨some p, reports⟩)
    (made : q = p ∨ ∃ passes limit optimized,
      (Optimize.optimize passes limit p).2 = .ok optimized ∧ q = optimized.program)
    {σ : Type} (monitor : Monitor σ) (d : Driven σ) (runs : d.machine.program = q) :
    (∃ r, d.statement monitor q.size = some r ∧
      (r.isLast = false → r.driven.machine.atStatement = true)) ∧
    (monitor.Untroubled → ∀ n k,
      let first := if d.machine.starts then [] else [d.machine.location]
      (n * q.size ≤ k →
        d.shown monitor q.size n = some ((first ++ d.machine.located k).take n)) ∧
      ((d.machine.after k).stopped = true → k < n →
        d.shown monitor q.size n = some (first ++ d.machine.located k))) := by
  have paced : Code.Paced q.instructions := by
    rcases made with rfl | ⟨passes, limit, optimized, result, rfl⟩
    · exact Compile.accepted_paced accepted
    · exact Optimize.optimize_paced result (Compile.accepted_paced accepted)
  constructor
  · obtain ⟨r, returned⟩ := Driven.statement_returns monitor d (runs ▸ paced)
    rw [runs] at returned
    exact ⟨r, returned, Driven.statement_stops returned⟩
  · intro untroubled n k
    constructor
    · exact Driven.shown_located untroubled runs paced n
    · exact Driven.shown_of_stopped untroubled runs paced

/-- Seven statements run before the assertion fails in the optimised program, and stepping by
statements shows them all. -/
theorem statements_show_detour :
    ∃ p reports optimized,
      Compile.program Source.Program.detour [] = .ok ⟨some p, reports⟩ ∧
        (Optimize.optimize Optimize.Pass.standard Optimize.standardLimit p).2 = .ok optimized ∧
        ((Machine.start optimized.program).located 22).length = 7 ∧
        Driven.shown Monitor.none optimized.program.size 23 ⟨.start optimized.program, ()⟩ =
          some ((Machine.start optimized.program).located 22) := by
  obtain ⟨p, reports, optimized, accepted, result, begins, failed, seven⟩ :
      ∃ p reports optimized,
        Compile.program Source.Program.detour [] = .ok ⟨some p, reports⟩ ∧
          (Optimize.optimize Optimize.Pass.standard Optimize.standardLimit p).2 = .ok optimized ∧
          (Machine.start optimized.program).starts = true ∧
          ((Machine.start optimized.program).after 22).exit = some .assertionFailed ∧
          ((Machine.start optimized.program).located 22).length = 7 := by
    refine ⟨_, _, _, rfl, rfl, ?_⟩
    decide +kernel
  obtain ⟨-, shows⟩ := statements_show accepted (.inr ⟨_, _, _, result, rfl⟩)
    Monitor.none ⟨.start optimized.program, ()⟩ rfl
  have all := (shows nofun 23 22).2 (Machine.stopped_of_exit failed) (by decide)
  simp only [begins, if_true, List.nil_append] at all
  exact ⟨p, reports, optimized, accepted, result, seven, all⟩

end Statecraft
