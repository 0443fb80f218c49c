import Statecraft.Proofs.Refinement

/-! One instruction in two programs. Machines that have the same operands, values and
state do the same when they execute it: both go on with the next instruction, or both
jump to the same label, wherever it stands in each program. -/
namespace Statecraft

/-- Where control goes from an instruction: on to the next one, or to a label that it
names. -/
inductive Instruction.Goes (p q : Program) (x : Instruction) (i j : Nat) : Nat → Nat → Prop where
  | on (falls : x.isTerminator = false) : Goes p q x i j (i + 1) (j + 1)
  | away {label : String} {i' j' : Nat} (jumps : x.jumpTarget? = some label)
      (first : p.code[i']? = some (.label label)) (second : q.code[j']? = some (.label label)) :
      Goes p q x i j i' j'

namespace Machine

/-- The machine at another place of another program. -/
def transplant (m : Machine) (q : Program) (ip steps : Nat) : Machine :=
  { m with program := q, ip := ip, steps := steps }

variable {p q : Program} {m next : Machine} {x : Instruction} (ip steps : Nat)

/-- A step without a fault executes the current instruction. -/
theorem executed_of_sound (running : m.stopped = false) (current : m.program.code[m.ip]? = some x)
    (sound : m.stepped.fault = none) :
    ∃ next, m.execute x = .ok next ∧ m.stepped = { next with steps := m.steps + 1 } := by
  cases executed : m.execute x with
  | error failure =>
    obtain ⟨rest, -, stepped⟩ := stepped_of_error running current executed
    rw [stepped] at sound
    contradiction
  | ok next => exact ⟨next, rfl, stepped_of_ok running current executed⟩

/-- An instruction that only goes on does the same everywhere. -/
theorem execute_straight (falls : x.isTerminator = false) (straight : x.jumpTarget? = none)
    (executed : m.execute x = .ok next) :
    (m.transplant q ip steps).execute x = .ok (next.transplant q (ip + 1) steps) := by
  cases x with
  | push | label | location =>
    cases executed
    rfl
  | jump | jumpIfNot | exit => contradiction
  | load name =>
    simp only [execute] at executed
    split at executed <;> cases executed
    rename_i found
    simp [execute, transplant, found, Machine.next]
  | store name =>
    simp only [execute] at executed
    split at executed <;> cases executed
    rename_i operands
    simp [execute, transplant, operands, Machine.next]
  | unary op operand =>
    simp only [execute, applyUnary] at executed
    split at executed
    · contradiction
    · rename_i popped
      split at executed <;> cases executed
      rename_i defined
      simp [execute, applyUnary, transplant, popped, defined, Machine.next]
  | binary op left right =>
    simp only [execute, applyBinary] at executed
    split at executed
    · contradiction
    · rename_i popped
      split at executed
      · contradiction
      · rename_i popped'
        split at executed <;> cases executed
        rename_i defined
        simp [execute, applyBinary, transplant, popped, popped', defined, Machine.next]
  | transition state =>
    simp only [execute, moveTo] at executed
    split at executed
    · contradiction
    · rename_i walker
      split at executed <;> cases executed
      rename_i moved
      simp [execute, moveTo, transplant, walker, moved, Machine.next]

theorem ip_of_straight (executed : m.execute x = .ok next) (falls : x.isTerminator = false)
    (straight : x.jumpTarget? = none) : next.ip = m.ip + 1 := by
  have moved := execute_straight (q := m.program) m.ip m.steps falls straight executed
  rw [show m.transplant m.program m.ip m.steps = m from rfl, executed] at moved
  exact congrArg Machine.ip (Except.ok.inj moved)

/-- A jump that finds its label in one program finds it in the other. -/
theorem jumpTo_transplant {label : String} {target : Nat} (jumped : m.jumpTo label = .ok next)
    (there : q.code[target]? = some (.label label)) :
    (m.transplant q ip steps).jumpTo label = .ok (next.transplant q target steps) ∧
      m.program.code[next.ip]? = some (.label label) := by
  cases found : m.program.resolve? label with
  | none => simp [jumpTo, found] at jumped
  | some i =>
    simp only [jumpTo, found, Except.ok.injEq] at jumped
    subst jumped
    exact ⟨by simp [jumpTo, transplant, Program.resolve?_of_label there],
      Program.label_of_resolve? found⟩

/-- The instruction can be executed in the other program as well, with the same
outcome. -/
theorem execute_transplant (executed : m.execute x = .ok next) (there : q.code[ip]? = some x) :
    ∃ ip', (m.transplant q ip steps).execute x = .ok (next.transplant q ip' steps) ∧
      (next.exit = none → x.Goes m.program q m.ip ip next.ip ip') := by
  have straight (falls : x.isTerminator = false) (quiet : x.jumpTarget? = none) :
      ∃ ip', (m.transplant q ip steps).execute x = .ok (next.transplant q ip' steps) ∧
        (next.exit = none → x.Goes m.program q m.ip ip next.ip ip') := by
    refine ⟨ip + 1, execute_straight ip steps falls quiet executed, fun _ => ?_⟩
    rw [ip_of_straight executed falls quiet]
    exact .on falls
  cases x with
  | push | label | location | load | store | unary | binary | transition =>
    exact straight rfl rfl
  | exit reason =>
    cases executed
    exact ⟨ip, rfl, nofun⟩
  | jump label =>
    obtain ⟨target, landed, -⟩ := Program.label_of_target there rfl
    obtain ⟨jumped, first⟩ := jumpTo_transplant ip steps executed landed
    exact ⟨target, jumped, fun _ => .away rfl first landed⟩
  | jumpIfNot label =>
    cases popped : popTyped .boolean m.stack with
    | error => simp [execute, popped] at executed
    | ok taken =>
      obtain ⟨condition, rest⟩ := taken
      cases truth : condition.toBool with
      | true =>
        simp only [execute, popped, truth, if_true, Except.ok.injEq] at executed
        subst executed
        exact ⟨ip + 1, by simp [execute, transplant, popped, truth, Machine.next], fun _ => .on rfl⟩
      | false =>
        simp only [execute, popped, truth, Bool.false_eq_true, if_false] at executed
        obtain ⟨target, landed, -⟩ := Program.label_of_target there rfl
        obtain ⟨jumped, first⟩ := jumpTo_transplant ip steps executed landed
        refine ⟨target, ?_, fun _ => .away rfl first landed⟩
        simpa [execute, transplant, popped, truth] using jumped

end Machine

namespace Paired

variable {p q : Program} {R : Correspondence} {m n m' n' : Machine} {x y : Instruction}

theorem running (paired : Paired p q R m n) (running : m.stopped = false) : n.stopped = false :=
  Machine.stopped_eq_false.mpr
    ⟨paired.exit.trans (Machine.stopped_eq_false.mp running).1, paired.sound⟩

/-- What an instruction does that was executed. -/
theorem effects_of_ok (running : m.stopped = false) (current : m.program.code[m.ip]? = some x)
    (executed : m.execute x = .ok m') : m.effects = m.effectsOf x := by
  have sound : m.stepped.fault = none := by
    rw [Machine.stepped_of_ok running current executed, (Machine.execute_frame executed).2]
    exact (Machine.stopped_eq_false.mp running).2
  simp [Machine.effects, running, sound, current]

/-- Both machines execute an instruction, with the same outcome. -/
theorem both (paired : Paired p q R m n) (running : m.stopped = false)
    (first : p.code[m.ip]? = some x) (second : q.code[n.ip]? = some y)
    (executed : m.execute x = .ok m') (executed' : n.execute y = .ok n')
    (alike : n'.store = m'.store ∧ n'.location = m'.location ∧ n'.walker = m'.walker ∧
      n'.exit = m'.exit)
    (programs : m'.program = p ∧ n'.program = q) (same : n.effectsOf y = m.effectsOf x)
    (related : m'.exit = none → R m'.ip m'.stack n'.ip n'.stack) : Keeps p q R m n := by
  have running' := paired.running running
  rw [← paired.first] at first
  rw [← paired.second] at second
  refine .inl ⟨?_, ?_⟩
  · rw [Machine.stepped_of_ok running first executed,
      Machine.stepped_of_ok running' second executed']
    refine ⟨⟨alike.1, alike.2.1, alike.2.2.1, alike.2.2.2, Nat.add_le_add_right paired.steps 1⟩,
      programs.1, programs.2, ?_, related⟩
    exact (Machine.execute_frame executed').2.trans paired.sound
  · rw [effects_of_ok running first executed, effects_of_ok running' second executed', same]

/-- The first machine goes on alone to the next instruction. -/
theorem alone {stack : List Value} (paired : Paired p q R m n) (running : m.stopped = false)
    (current : p.code[m.ip]? = some x)
    (executed : m.execute x = .ok { m.next with stack := stack }) (silent : m.effectsOf x = [])
    (related : R (m.ip + 1) stack n.ip n.stack) : Keeps p q R m n := by
  have inside : m.ip < p.size := (Array.getElem?_eq_some_iff.mp current).1
  rw [← paired.first] at current
  have stepped := Machine.stepped_of_ok running current executed
  refine .inr ⟨?_, ?_, inside, ?_⟩
  · rw [stepped]
    exact ⟨⟨paired.store, paired.location, paired.walker, paired.exit,
      Nat.le_succ_of_le paired.steps⟩,
      paired.first, paired.second, paired.sound, fun _ => related⟩
  · rw [effects_of_ok running current executed, silent]
  · rw [stepped]
    exact Nat.lt_succ_self m.ip

/-- Both machines run past their last instructions. -/
theorem ends (paired : Paired p q R m n) (running : m.stopped = false)
    (first : p.code[m.ip]? = none) (second : q.code[n.ip]? = none) : Keeps p q R m n := by
  have running' := paired.running running
  rw [← paired.first] at first
  rw [← paired.second] at second
  refine .inl ⟨?_, ?_⟩
  · rw [Machine.stepped_of_end running first, Machine.stepped_of_end running' second]
    exact ⟨⟨paired.store, paired.location, paired.walker, rfl, paired.steps⟩, paired.first,
      paired.second, paired.sound, nofun⟩
  · simp [Machine.effects, first, second]

/-- The second machine is the first one at its own place and with its own operands. -/
theorem transplant_eq (paired : Paired p q R m n) (running : m.stopped = false) :
    Machine.transplant { m with stack := n.stack } q n.ip n.steps = n := by
  obtain ⟨alike, -, rfl, sound⟩ := paired
  have silent := (Machine.stopped_eq_false.mp running).2
  cases n
  simp only [Machine.transplant, Machine.mk.injEq, true_and]
  exact ⟨alike.store.symm, alike.location.symm, alike.walker.symm, alike.exit.symm,
    silent.trans sound.symm⟩

/-- Both machines execute the same instruction over the same operands. -/
theorem together (paired : Paired p q R m n) (running : m.stopped = false)
    (sound : m.stepped.fault = none) (operands : n.stack = m.stack)
    (first : p.code[m.ip]? = some x) (second : q.code[n.ip]? = some x)
    (goes : ∀ i j stack, x.Goes p q m.ip n.ip i j → R i stack j stack) : Keeps p q R m n := by
  obtain ⟨next, executed, -⟩ :=
    Machine.executed_of_sound running (by rw [paired.first, first]) sound
  obtain ⟨ip, executed', related⟩ :=
    Machine.execute_transplant n.ip n.steps executed second
  rw [paired.first] at related
  have other : m.transplant q n.ip n.steps = n := by
    have same := paired.transplant_eq running
    rwa [operands] at same
  rw [other] at executed'
  refine paired.both running first second executed executed' ⟨rfl, rfl, rfl, rfl⟩ ⟨?_, rfl⟩ ?_ ?_
  · exact (Machine.execute_frame executed).1.trans paired.first
  · cases x <;> simp [Machine.effectsOf, operands]
  · exact fun going => goes _ _ _ (related going)

end Paired
end Statecraft
