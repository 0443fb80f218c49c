import Statecraft.Machine.Drive
import Statecraft.Proofs.Run

/-! Drivers do nothing to a machine but step it, and the steps they take can be counted. A run that
is interrupted by its limit can be taken up again, and a machine that stopped is left alone. -/
namespace Statecraft

variable {σ : Type}

/-- No observer fails, whatever it is told. -/
def Monitor.Untroubled (monitor : Monitor σ) : Prop :=
  ∀ observer ∈ monitor.observers, ∀ event memory, (observer event memory).2 = Option.none

theorem Monitor.tell_untroubled {observers : List (Observer σ)} (event : StepEvent) (memory : σ)
    (untroubled : ∀ observer ∈ observers, ∀ event memory, (observer event memory).2 = Option.none) :
    (tell event observers memory).2 = Option.none := by
  induction observers generalizing memory with
  | nil => rfl
  | cons observer rest ih =>
    have here := untroubled observer List.mem_cons_self event memory
    have later := fun next => ih next fun other member =>
      untroubled other (List.mem_cons_of_mem _ member)
    simp only [tell]
    split
    · rename_i told
      rw [told] at here
      contradiction
    · exact later _

/-- A step that is told of leaves no fault. -/
theorem Machine.fault_of_event {m : Machine} {event : StepEvent} (told : m.step.2 = some event) :
    m.stepped.fault = none := by
  cases stopped : m.stopped with
  | true => simp [step, stopped] at told
  | false =>
    have sound := (stopped_eq_false.mp stopped).2
    cases current : m.program.code[m.ip]? with
    | none => rwa [stepped_of_end stopped current]
    | some i =>
      cases executed : m.execute i with
      | error cause => simp [step, stopped, current, executed] at told
      | ok next =>
        rw [stepped_of_ok stopped current executed]
        exact (execute_frame executed).2.trans sound

namespace Driven

variable {monitor : Monitor σ} {d : Driven σ} {bounds : Bounds}

theorem step_machine (monitor : Monitor σ) (d : Driven σ) :
    (d.step monitor).driven.machine = d.machine.stepped := by
  simp only [step, Machine.stepped]
  cases d.machine.step.2 <;> rfl

/-- The driver reports a fault exactly if the machine has it. -/
theorem step_fault_iff (monitor : Monitor σ) (d : Driven σ) (f : Fault) :
    (d.step monitor).halt = some (.fault f) ↔ (d.step monitor).driven.machine.fault = some f := by
  cases told : d.machine.step.2 with
  | none => simp [step, told]
  | some event =>
    have sound : d.machine.step.1.fault = none := Machine.fault_of_event told
    simp [step, told, sound]

/-- Where no observer fails, a step reports a fault or nothing. -/
theorem step_halt (untroubled : monitor.Untroubled) (d : Driven σ) :
    (d.step monitor).halt = (d.step monitor).driven.machine.fault.map .fault := by
  cases told : d.machine.step.2 with
  | none => simp [step, told]
  | some event =>
    have sound : d.machine.step.1.fault = none := Machine.fault_of_event told
    simp [step, told, sound, Monitor.tell_untroubled event _ untroubled]

theorem step_of_stopped (monitor : Monitor σ) (stopped : d.machine.stopped = true) :
    d.step monitor = ⟨d, d.machine.fault.map .fault⟩ := by
  have same : d.machine.step = (d.machine, none) := by simp [Machine.step, stopped]
  simp [step, same, Monitor.logStep, Notice.between?, stopped]

theorem isLast_of_stopped (stopped : d.machine.stopped = true) :
    Result.isLast ⟨d, d.machine.fault.map .fault⟩ = true := by
  simpa [Result.isLast, Machine.stopped] using stopped

/-- The driver goes on until the machine stops. -/
theorem isLast_step (untroubled : monitor.Untroubled) (d : Driven σ) :
    (d.step monitor).isLast = (d.step monitor).driven.machine.stopped := by
  simp [Result.isLast, step_halt untroubled, Machine.stopped]

/-- A step that faults leaves everything as it was but the operands and the fault, and no observer
hears of it. -/
theorem step_of_fault {f : Fault} (faulted : (d.step monitor).halt = some (.fault f)) :
    (∃ rest, rest <:+ d.machine.stack ∧
      (d.step monitor).driven.machine = { d.machine with stack := rest, fault := some f }) ∧
      ∀ observers, d.step { monitor with observers } = d.step monitor := by
  have has := (step_fault_iff monitor d f).mp faulted
  rw [step_machine] at has
  have silent : d.machine.step.2 = none := by
    cases told : d.machine.step.2 with
    | none => rfl
    | some event => simp [Machine.fault_of_event told] at has
  refine ⟨?_, fun observers => by simp [step, silent, Monitor.logStep]⟩
  rw [step_machine]
  cases stopped : d.machine.stopped with
  | true =>
    rw [Machine.stepped_of_stopped stopped] at has ⊢
    exact ⟨d.machine.stack, List.suffix_rfl, by rw [← has]⟩
  | false =>
    cases current : d.machine.program.code[d.machine.ip]? with
    | none => simp [Machine.step, stopped, current] at silent
    | some i =>
      cases executed : d.machine.execute i with
      | error failure =>
        obtain ⟨rest, left, stepped⟩ := Machine.stepped_of_error stopped current executed
        rw [stepped] at has ⊢
        exact ⟨rest, left, by rw [← has]⟩
      | ok next => simp [Machine.step, stopped, current, executed] at silent

/-- How many steps are taken when at most `n` are asked for. -/
def countSteps (monitor : Monitor σ) : (n : Nat) → Driven σ → Nat
  | 0, _ => 0
  | n + 1, d =>
      let r := d.step monitor
      if r.isLast then 1 else countSteps monitor n r.driven + 1

def countStatement (monitor : Monitor σ) : (fuel : Nat) → Driven σ → Nat
  | 0, _ => 0
  | fuel + 1, d =>
      let r := d.step monitor
      if r.isLast || r.driven.machine.atStatement then 1
      else countStatement monitor fuel r.driven + 1

def countRun (monitor : Monitor σ) (bounds : Bounds) : (fuel executed : Nat) → Driven σ → Nat
  | 0, _, _ => 0
  | fuel + 1, executed, d =>
      match bounds.halt? executed with
      | some _ => 0
      | none =>
          let r := d.step monitor
          if r.isLast then 1 else countRun monitor bounds fuel (executed + 1) r.driven + 1

theorem stepsAfter_machine (n : Nat) (r : Result σ) :
    (stepsAfter monitor n r).driven.machine =
      r.driven.machine.after (if r.isLast then 0 else countSteps monitor n r.driven) := by
  induction n generalizing r with
  | zero => cases last : r.isLast <;> simp [stepsAfter, countSteps]
  | succ n ih =>
    cases last : r.isLast with
    | true => simp [stepsAfter, last]
    | false =>
      simp only [stepsAfter, last, Bool.false_eq_true, if_false, countSteps]
      rw [ih, step_machine]
      split <;> rfl

theorem steps_machine (monitor : Monitor σ) (n : Nat) (d : Driven σ) :
    (((d.steps monitor n).map (·.driven)).getD d).machine =
      d.machine.after (d.countSteps monitor n) := by
  cases n with
  | zero => rfl
  | succ n =>
    simp only [steps, Option.map_some, Option.getD_some, countSteps]
    rw [stepsAfter_machine, step_machine]
    split <;> rfl

theorem statement_machine {fuel : Nat} {r : Result σ} (returned : d.statement monitor fuel = some r) :
    r.driven.machine = d.machine.after (d.countStatement monitor fuel) := by
  induction fuel generalizing d with
  | zero => contradiction
  | succ fuel ih =>
    simp only [statement] at returned
    simp only [countStatement]
    split at returned
    · rename_i ended
      cases returned
      rw [if_pos ended, step_machine]
      rfl
    · rename_i ended
      rw [if_neg ended, ih returned, step_machine]
      rfl

theorem runFrom_machine {fuel executed : Nat} {r : Result σ}
    (returned : runFrom monitor bounds fuel executed d = some r) :
    r.driven.machine = d.machine.after (countRun monitor bounds fuel executed d) := by
  induction fuel generalizing d executed with
  | zero => contradiction
  | succ fuel ih =>
    simp only [runFrom] at returned
    simp only [countRun]
    cases asked : bounds.halt? executed with
    | some halt =>
      simp only [asked, Option.some.injEq] at returned
      rw [← returned, Machine.after_zero]
    | none =>
      simp only [asked] at returned
      split at returned
      · rename_i ended
        cases returned
        rw [if_pos ended, step_machine]
        rfl
      · rename_i ended
        rw [if_neg ended, ih returned, step_machine]
        rfl

def Bounds.upTo (limit : Nat) : Bounds := .steps (if limit = 0 then none else some limit)

theorem Bounds.halt?_upTo {limit : Nat} (positive : 0 < limit) (executed : Nat) :
    (upTo limit).halt? executed = if limit ≤ executed then some .stepLimit else none := by
  have limited : limit ≠ 0 := by omega
  simp [upTo, steps, halt?, limited]

theorem Bounds.halt?_upTo_zero (limit : Nat) : (upTo limit).halt? 0 = none := by
  rcases Nat.eq_zero_or_pos limit with rfl | positive
  · rfl
  · rw [halt?_upTo positive, if_neg (by omega)]

/-- Steps that count as done before shift the limit. -/
theorem runFrom_shift (monitor : Monitor σ) {m : Nat} (positive : 0 < m)
    (n fuel executed : Nat) (d : Driven σ) :
    runFrom monitor (.upTo (n + m)) fuel (n + executed) d =
      runFrom monitor (.upTo m) fuel executed d := by
  induction fuel generalizing executed d with
  | zero => rfl
  | succ fuel ih =>
    have same : (Bounds.upTo (n + m)).halt? (n + executed) = (Bounds.upTo m).halt? executed := by
      rw [Bounds.halt?_upTo (by omega), Bounds.halt?_upTo positive]
      simp only [Nat.add_le_add_iff_left]
    simp only [runFrom, same, Nat.add_assoc, ih]

/-- A limited run returns, and the fuel does not matter beyond the steps that are left. -/
theorem runFrom_limited (monitor : Monitor σ) {limit left executed : Nat} (positive : 0 < limit)
    (whole : executed + left = limit) (d : Driven σ) :
    ∃ r, ∀ fuel, left < fuel → runFrom monitor (.upTo limit) fuel executed d = some r := by
  induction left generalizing executed d with
  | zero =>
    refine ⟨⟨d, some .stepLimit⟩, fun fuel enough => ?_⟩
    obtain ⟨fuel, rfl⟩ := Nat.exists_eq_add_one.mpr enough
    simp only [runFrom, Bounds.halt?_upTo positive, show limit ≤ executed by omega, if_true]
  | succ left ih =>
    have free : (Bounds.upTo limit).halt? executed = none := by
      rw [Bounds.halt?_upTo positive, if_neg (by omega)]
    obtain ⟨r, returns⟩ := @ih (executed + 1) (by omega) (d.step monitor).driven
    refine ⟨if (d.step monitor).isLast then d.step monitor else r, fun fuel enough => ?_⟩
    obtain ⟨fuel, rfl⟩ := Nat.exists_eq_add_one.mpr (Nat.zero_lt_of_lt enough)
    simp only [runFrom, free, returns fuel (by omega)]
    split <;> rfl

/-- Stopped machines are not run on. -/
theorem run_of_stopped {limit fuel : Nat} (stopped : d.machine.stopped = true)
    (positive : 0 < fuel) :
    d.run monitor (.upTo limit) fuel = some ⟨d, d.machine.fault.map .fault⟩ := by
  obtain ⟨fuel, rfl⟩ := Nat.exists_eq_add_one.mpr positive
  simp only [run, runFrom, Bounds.halt?_upTo_zero, step_of_stopped monitor stopped,
    isLast_of_stopped stopped, if_true]

theorem statement_of_stopped {fuel : Nat} (stopped : d.machine.stopped = true)
    (positive : 0 < fuel) : d.statement monitor fuel = some ⟨d, d.machine.fault.map .fault⟩ := by
  obtain ⟨fuel, rfl⟩ := Nat.exists_eq_add_one.mpr positive
  simp only [statement, step_of_stopped monitor stopped, isLast_of_stopped stopped, Bool.true_or,
    if_true]

/-- A run that is interrupted by its limit goes on as if there had been no limit, and one that
ended by itself has ended. -/
theorem runFrom_split (untroubled : monitor.Untroubled) {n m left executed fuel fuel' : Nat}
    (positive : 0 < n) (more : 0 < m) (whole : executed + left = n) (enough : left + m < fuel)
    (enough' : m < fuel') (d : Driven σ) :
    ∃ first second, runFrom monitor (.upTo n) fuel executed d = some first ∧
      first.driven.run monitor (.upTo m) fuel' = some second ∧
      runFrom monitor (.upTo (n + m)) fuel executed d = some second := by
  induction left generalizing executed fuel d with
  | zero =>
    obtain rfl : executed = n := by omega
    obtain ⟨second, later⟩ := runFrom_limited monitor more (Nat.zero_add m) d
    have reached : runFrom monitor (.upTo executed) fuel executed d =
        some ⟨d, some .stepLimit⟩ := by
      obtain ⟨fuel, rfl⟩ := Nat.exists_eq_add_one.mpr (Nat.zero_lt_of_lt enough)
      simp only [runFrom, Bounds.halt?_upTo positive, Nat.le_refl, if_true]
    have shifted := runFrom_shift monitor more executed fuel 0 d
    exact ⟨_, second, reached, later fuel' enough', shifted.trans (later fuel (by omega))⟩
  | succ left ih =>
    obtain ⟨fuel, rfl⟩ := Nat.exists_eq_add_one.mpr (Nat.zero_lt_of_lt enough)
    have free {limit : Nat} (beyond : n ≤ limit) : (Bounds.upTo limit).halt? executed = none := by
      rw [Bounds.halt?_upTo (by omega), if_neg (by omega)]
    simp only [runFrom, free (Nat.le_refl n), free (Nat.le_add_right n m)]
    cases last : (d.step monitor).isLast with
    | false =>
      simp only [Bool.false_eq_true, if_false]
      exact ih (by omega) (by omega) _
    | true =>
      have stopped : (d.step monitor).driven.machine.stopped = true :=
        isLast_step untroubled d ▸ last
      refine ⟨_, _, rfl, run_of_stopped stopped (by omega), ?_⟩
      rw [if_pos rfl, ← step_halt untroubled]

end Driven

end Statecraft
