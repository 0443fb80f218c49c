import Statecraft.Proofs.Verification

/-! What the stack check tells of the paths through code. A path follows the flow of control, and
the instructions on it raise and lower the depth of the stack. The check visits each block once,
with the depth of the first path found to it, and still finds nothing wrong exactly if no path takes
more than there is and no two paths disagree about the depth at the start of a block. -/
namespace Statecraft
namespace Code

/-- A path from the start gets to the index. The instructions on it have changed the depth of the
stack as they declare, whether or not there was enough on it. -/
inductive Walks (code : List Instruction) : Nat → Int → Prop where
  | start : Walks code 0 0
  | step {i j : Nat} {d : Int} {x : Instruction} (here : Walks code i d)
      (current : code[i]? = some x) (flows : Flows code i j) :
      Walks code j (d - x.pops + x.pushes)

/-- No path takes more than there is, and all paths to the start of a block have the same depth
there. -/
structure Disciplined (code : List Instruction) : Prop where
  enough : ∀ (i : Nat) (d : Int) (x : Instruction), Walks code i d → code[i]? = some x → x.pops ≤ d
  agree : ∀ b ∈ BasicBlock.split code, ∀ d e, Walks code b.start d → Walks code b.start e → d = e

variable {code : List Instruction} {i j n : Nat} {d e : Int} {x : Instruction}

theorem Reaches.walks (reaches : Reaches code i n) : Walks code i n := by
  induction reaches with
  | start => exact .start
  | @step i j n x here current enough flows ih =>
    have depth : ((n - x.pops + x.pushes : Nat) : Int) = n - x.pops + x.pushes := by omega
    rw [depth]
    exact .step ih current flows

/-- In balanced code every path finds what it takes. -/
theorem Balanced.reaches (balanced : Balanced code) (walks : Walks code i d) :
    ∃ n : Nat, d = n ∧ Reaches code i n := by
  induction walks with
  | start => exact ⟨0, rfl, .start⟩
  | @step i j d x here current flows ih =>
    obtain ⟨n, rfl, reaches⟩ := ih
    have enough := balanced.enough i n x reaches current
    exact ⟨n - x.pops + x.pushes, by omega, .step reaches current enough flows⟩

/-- A path gets into the middle of a block only from the instruction before. -/
theorem Walks.inside {place offset : Nat} {run : List Instruction}
    (located : BasicBlock.At code place (offset + 1) (i + 1) run) (walks : Walks code (i + 1) d) :
    ∃ x e, code[i]? = some x ∧ Walks code i e ∧ d = e - x.pops + x.pushes := by
  cases walks with
  | step here current flows =>
    cases flows with
    | on found => exact ⟨_, _, current, here, rfl⟩
    | away _ _ label => exact absurd (located.offset_of_label label) (Nat.succ_ne_zero offset)

/-- Where the depths at the starts of blocks are settled, so are those inside of the blocks. -/
theorem Disciplined.settled (disciplined : Disciplined code) {place offset : Nat}
    {run : List Instruction} (located : BasicBlock.At code place offset i run)
    (first : Walks code i d) (second : Walks code i e) : d = e := by
  induction offset generalizing i d e with
  | zero =>
    have block : (BasicBlock.split code)[place]? =
        some ⟨i, run, BasicBlock.successorsAt code place⟩ := by
      rw [BasicBlock.getElem?_split, located.here, located.index]
      rfl
    exact disciplined.agree _ (List.mem_of_getElem? block) d e first second
  | succ offset ih =>
    obtain ⟨before, rfl⟩ : ∃ before, i = before + 1 := ⟨_, located.index⟩
    obtain ⟨x, d, current, earlier, rfl⟩ := first.inside located
    obtain ⟨y, e, current', earlier', rfl⟩ := second.inside located
    cases current.symm.trans current'
    have located : BasicBlock.At code place offset before run :=
      ⟨located.here, Nat.lt_of_succ_lt located.inside, Nat.succ.inj located.index⟩
    rw [ih located earlier earlier']

theorem disciplined_iff_balanced : Disciplined code ↔ Balanced code := by
  constructor
  · intro disciplined
    constructor
    · intro i n x reaches current
      exact Int.ofNat_le.mp (disciplined.enough i n x reaches.walks current)
    · intro i n m x first second current
      have inside := (List.getElem?_eq_some_iff.mp current).1
      obtain ⟨place, offset, run, located⟩ := BasicBlock.At.exists_of_lt inside
      exact Int.ofNat_inj.mp (disciplined.settled located first.walks second.walks)
  · intro balanced
    constructor
    · intro i d x walks current
      obtain ⟨n, rfl, reaches⟩ := balanced.reaches walks
      exact Int.ofNat_le.mpr (balanced.enough i n x reaches current)
    · intro b member d e first second
      obtain ⟨place, here⟩ := List.mem_iff_getElem?.mp member
      rw [BasicBlock.getElem?_split, Option.map_eq_some_iff] at here
      obtain ⟨run, here, rfl⟩ := here
      have current := List.getElem?_eq_getElem (BasicBlock.At.first here).bound
      obtain ⟨n, rfl, reaches⟩ := balanced.reaches first
      obtain ⟨m, rfl, reaches'⟩ := balanced.reaches second
      exact congrArg Nat.cast (balanced.agree _ n m _ reaches reaches' current)

end Code

namespace Verify

/-- What is wrong in a block or behind it, the depths that are known then, and the blocks that are
found. -/
def inspect (blocks : Array BasicBlock) (depths : Depths) (place : Nat) (b : BasicBlock) :
    List StackError × Depths × List Nat :=
  let (inside, depth) := straight b.start ((depths[place]?.join).getD 0) b.body
  let (between, depths, fresh) := enter blocks depth b.successors depths
  (inside ++ between, depths, fresh)

/-- The check as a loop without a bound, which is over when the queue is empty. -/
inductive Visits (blocks : Array BasicBlock) : Depths → (queue : List Nat) → List StackError →
    Prop where
  | done {depths : Depths} : Visits blocks depths [] []
  | block {depths : Depths} {place : Nat} {queue : List Nat} {b : BasicBlock}
      {later : List StackError} (here : blocks[place]? = some b)
      (rest : Visits blocks (inspect blocks depths place b).2.1
        (queue ++ (inspect blocks depths place b).2.2) later) :
      Visits blocks depths (place :: queue) ((inspect blocks depths place b).1 ++ later)

variable {blocks : Array BasicBlock} {depths : Depths} {queue : List Nat} {place : Nat}
  {b : BasicBlock}

theorem visit_inspect (fuel : Nat) (here : blocks[place]? = some b) :
    visit blocks (fuel + 1) depths (place :: queue) =
      (inspect blocks depths place b).1 ++ visit blocks fuel (inspect blocks depths place b).2.1
        (queue ++ (inspect blocks depths place b).2.2) := by
  simp only [visit, here, inspect, List.append_assoc]

/-- Behind a block its successors are entered. -/
theorem inspect_enters (blocks : Array BasicBlock) (depths : Depths) (place : Nat)
    (b : BasicBlock) : ∃ depth places errors, Enters depth places depths errors
      (inspect blocks depths place b).2.1 (inspect blocks depths place b).2.2 :=
  ⟨_, _, _, enter_enters blocks _ b.successors depths⟩

/-- Every visit gives a depth to all blocks that it puts into the queue, so the blocks without a
depth and those in the queue bound the visits. -/
theorem visit_visits (fuel : Nat) (size : depths.size = blocks.size)
    (queued : ∀ k ∈ queue, ∃ d, Has depths k d) (bound : unvisited depths + queue.length ≤ fuel) :
    Visits blocks depths queue (visit blocks fuel depths queue) := by
  induction fuel generalizing depths queue with
  | zero =>
    obtain rfl : queue = [] := List.length_eq_zero_iff.mp (by omega)
    exact .done
  | succ fuel ih =>
    cases queue with
    | nil => exact .done
    | cons place queue =>
      obtain ⟨d, has⟩ := queued place List.mem_cons_self
      have inside : place < blocks.size := size ▸ (Array.getElem?_eq_some_iff.mp has).1
      have here := Array.getElem?_eq_getElem inside
      rw [visit_inspect fuel here]
      obtain ⟨depth, places, errors, enters⟩ := inspect_enters blocks depths place blocks[place]
      apply Visits.block here
      apply ih
      · exact enters.size.trans size
      · exact enters.queued fun k member => queued k (List.mem_cons_of_mem _ member)
      · have same := enters.unvisited
        simp only [List.length_cons, List.length_append] at bound ⊢
        omega

/-- The check of code visits its first block and whatever is found from there. -/
theorem errors_visits (code : List Instruction) :
    Visits (BasicBlock.split code).toArray (initial code) (if code.isEmpty then [] else [0])
      (errors code) := by
  rw [errors_eq]
  cases code with
  | nil => exact .done
  | cons x rest =>
    have positive : 0 < (x :: rest).length := Nat.zero_lt_succ _
    obtain ⟨run, located⟩ := BasicBlock.At.zero positive
    have some := (List.getElem?_eq_some_iff.mp located.here).1
    apply visit_visits
    · simp [initial, BasicBlock.length_split]
    · intro k member
      exact ⟨0, (has_initial some).mpr ⟨List.mem_singleton.mp member, rfl⟩⟩
    · exact Nat.le_of_eq (unvisited_initial some)

end Verify

/-- The stack check of a program comes to an end. It finds nothing wrong if and only if no path
through the code takes more from the stack than there is and all paths to the start of a block have
the same depth there. -/
theorem Program.stackErrors_exact (p : Program) :
    Verify.Visits (BasicBlock.split p.instructions).toArray (Verify.initial p.instructions)
      (if p.instructions.isEmpty then [] else [0]) p.stackErrors ∧
    (p.stackErrors = [] ↔ Code.Disciplined p.instructions) := by
  refine ⟨Verify.errors_visits p.instructions, ?_⟩
  rw [p.stackErrors_eq_nil_iff, Code.disciplined_iff_balanced]

end Statecraft
