import Statecraft.Code.Verify
import Statecraft.Proofs.Blocks

/-! The stack check finds nothing wrong if and only if code is balanced. What it finds
for a block is the depth of every way to it, and since each block is visited once, the
number of blocks bounds the visits. -/
namespace Statecraft
namespace Verify

open BasicBlock (At successorsAt startOf)
open Code (Reaches Balanced)

def depthAfter (depth : Nat) (body : List Instruction) : Nat :=
  body.foldl (fun depth i => depth - i.pops + i.pushes) depth

/-- Every instruction finds what it takes. -/
def Enough (depth : Nat) (body : List Instruction) : Prop :=
  ∀ o i, body[o]? = some i → i.pops ≤ depthAfter depth (body.take o)

variable {code run : List Instruction} {depth place offset index : Nat} {i : Instruction}

theorem enough_cons {rest : List Instruction} :
    Enough depth (i :: rest) ↔ i.pops ≤ depth ∧ Enough (depth - i.pops + i.pushes) rest := by
  constructor
  · intro enough
    exact ⟨enough 0 i rfl, fun o j here => enough (o + 1) j here⟩
  · rintro ⟨first, later⟩ o j here
    cases o with
    | zero =>
      cases here
      exact first
    | succ o => exact later o j here

/-- Straight code is right if every instruction finds what it takes. -/
theorem straight_eq_nil (index depth : Nat) (body : List Instruction) :
    (straight index depth body).1 = [] ↔ Enough depth body := by
  induction body generalizing index depth with
  | nil => simp [straight, Enough]
  | cons i rest ih =>
    rw [enough_cons]
    simp only [straight, List.append_eq_nil_iff, ite_eq_right_iff, List.cons_ne_nil, imp_false,
      Nat.not_lt, ih]
    refine and_congr_right fun enough => ?_
    rw [Nat.max_eq_left enough]

theorem straight_depth (index : Nat) (enough : Enough depth run) :
    (straight index depth run).2 = depthAfter depth run := by
  induction run generalizing index depth with
  | nil => rfl
  | cons i rest ih =>
    obtain ⟨first, later⟩ := enough_cons.mp enough
    simp only [straight, Nat.max_eq_left first, ih (index + 1) later]
    rfl

theorem depthAfter_take (here : run[offset]? = some i) :
    depthAfter depth (run.take (offset + 1)) =
      depthAfter depth (run.take offset) - i.pops + i.pushes := by
  rw [List.take_add_one, here]
  simp [depthAfter]

/-- The way into a run goes on inside of it. -/
theorem reaches_inside (located : At code place offset index run)
    (way : Reaches code (startOf (BasicBlock.runs code) place) depth)
    (enough : ∀ o < offset, ∀ i, run[o]? = some i → i.pops ≤ depthAfter depth (run.take o)) :
    Reaches code index (depthAfter depth (run.take offset)) := by
  induction offset generalizing index with
  | zero =>
    rw [located.index]
    exact way
  | succ offset ih =>
    have before : At code place offset (startOf (BasicBlock.runs code) place + offset) run :=
      ⟨located.here, Nat.lt_of_succ_lt located.inside, rfl⟩
    obtain ⟨i, here⟩ : ∃ i, run[offset]? = some i := ⟨_, List.getElem?_eq_getElem before.inside⟩
    have inner := before.straight offset i _ here (List.getElem?_eq_getElem located.inside)
    have falls : i.isTerminator = false := (Bool.or_eq_false_iff.mp inner.1).2
    rw [depthAfter_take here, located.index, ← Nat.add_assoc]
    exact (ih before fun o bound => enough o (Nat.lt_succ_of_lt bound)).on (before.same.trans here)
      (enough offset (Nat.lt_succ_self _) i here) falls rfl

/-- In balanced code a run that can be reached finds what it takes. -/
theorem enough_of_balanced (balanced : Balanced code)
    (here : (BasicBlock.runs code)[place]? = some run)
    (way : Reaches code (startOf (BasicBlock.runs code) place) depth) : Enough depth run := by
  intro o
  induction o using Nat.strongRecOn with
  | ind o ih =>
    intro i current
    have located : At code place o (startOf (BasicBlock.runs code) place + o) run :=
      ⟨here, (List.getElem?_eq_some_iff.mp current).1, rfl⟩
    exact balanced.enough _ _ i (reaches_inside located way ih) (located.same.trans current)

def unvisited (depths : Depths) : Nat := depths.toList.countP Option.isNone

def Has (depths : Depths) (place depth : Nat) : Prop := depths[place]? = some (some depth)

/-- What comparing a depth with those of some blocks does. -/
structure Enters (depth : Nat) (places : List Nat) (depths : Depths) (errors : List StackError)
    (last : Depths) (fresh : List Nat) : Prop where
  size : last.size = depths.size
  keeps : ∀ place d, Has depths place d → Has last place d
  gives : ∀ place d, Has last place d → Has depths place d ∨
    place ∈ fresh ∧ place ∈ places ∧ d = depth
  assigned : ∀ place ∈ fresh, Has last place depth
  right : errors = [] → ∀ place ∈ places, place < depths.size → Has last place depth
  nothing : (∀ place ∈ places, ∀ d, Has depths place d → d = depth) → errors = []
  unvisited : Verify.unvisited last + fresh.length = Verify.unvisited depths

section

variable {places fresh : List Nat} {depths last : Depths} {errors : List StackError}

theorem has_set {k d : Nat} (inside : place < depths.size) :
    Has (depths.setIfInBounds place (some depth)) k d ↔
      k = place ∧ d = depth ∨ k ≠ place ∧ Has depths k d := by
  by_cases same : k = place
  · subst same
    simp [Has, inside, eq_comm]
  · simp [Has, same, Ne.symm same]

theorem unvisited_set (depth : Nat) (free : depths[place]? = some none) :
    unvisited (depths.setIfInBounds place (some depth)) + 1 = unvisited depths := by
  obtain ⟨inside, free⟩ := Array.getElem?_eq_some_iff.mp free
  have bound : place < depths.toList.length := by simpa using inside
  have positive : 0 < depths.toList.countP Option.isNone :=
    List.countP_pos_iff.mpr ⟨none, free ▸ Array.getElem_mem_toList inside, rfl⟩
  simp only [unvisited, Array.toList_setIfInBounds, List.countP_set bound, Array.getElem_toList,
    free, Option.isNone_none, if_true, Option.isNone_some, Bool.false_eq_true, if_false]
  omega

namespace Enters

theorem nil : Enters depth [] depths [] depths [] :=
  ⟨rfl, fun _ _ => id, fun _ _ => .inl, nofun, fun _ => nofun, fun _ => rfl, rfl⟩

/-- A block without a depth is given one. -/
theorem free (free : depths[place]? = some none)
    (done : Enters depth places (depths.setIfInBounds place (some depth)) errors last fresh) :
    Enters depth (place :: places) depths errors last (place :: fresh) := by
  have inside : place < depths.size := (Array.getElem?_eq_some_iff.mp free).1
  have size : (depths.setIfInBounds place (some depth)).size = depths.size := by simp
  have given : Has last place depth := done.keeps _ _ ((has_set inside).mpr (.inl ⟨rfl, rfl⟩))
  refine ⟨done.size.trans size, ?_, ?_, ?_, ?_, ?_, ?_⟩
  · intro k d has
    refine done.keeps k d ((has_set inside).mpr (.inr ⟨?_, has⟩))
    rintro rfl
    simp [Has, free] at has
  · intro k d has
    rcases done.gives k d has with old | ⟨new, member, same⟩
    · rcases (has_set inside).mp old with ⟨rfl, rfl⟩ | ⟨-, old⟩
      · exact .inr ⟨List.mem_cons_self, List.mem_cons_self, rfl⟩
      · exact .inl old
    · exact .inr ⟨List.mem_cons_of_mem _ new, List.mem_cons_of_mem _ member, same⟩
  · intro k member
    rcases List.mem_cons.mp member with rfl | member
    · exact given
    · exact done.assigned k member
  · intro none k member bound
    rcases List.mem_cons.mp member with rfl | member
    · exact given
    · exact done.right none k member (size ▸ bound)
  · intro agree
    refine done.nothing fun k member d has => ?_
    rcases (has_set inside).mp has with ⟨-, same⟩ | ⟨-, old⟩
    · exact same
    · exact agree k (List.mem_cons_of_mem _ member) d old
  · rw [← unvisited_set depth free, ← done.unvisited, List.length_cons]
    omega

/-- A block with a depth has to have the same one. -/
theorem known {known : Nat} {error : StackError} (here : Has depths place known)
    (done : Enters depth places depths errors last fresh) :
    Enters depth (place :: places) depths ((if known = depth then [] else [error]) ++ errors) last
      fresh := by
  refine ⟨done.size, done.keeps, ?_, done.assigned, ?_, ?_, done.unvisited⟩
  · intro k d has
    exact (done.gives k d has).imp_right fun ⟨new, member, same⟩ =>
      ⟨new, List.mem_cons_of_mem _ member, same⟩
  · intro none k member bound
    obtain ⟨first, later⟩ := List.append_eq_nil_iff.mp none
    rcases List.mem_cons.mp member with rfl | member
    · obtain rfl : known = depth := by simpa using first
      exact done.keeps _ _ here
    · exact done.right later k member bound
  · intro agree
    rw [if_pos (agree place List.mem_cons_self known here),
      done.nothing fun k member => agree k (List.mem_cons_of_mem _ member)]
    rfl

/-- A place where there is no block does not count. -/
theorem past (past : depths[place]? = none)
    (done : Enters depth places depths errors last fresh) :
    Enters depth (place :: places) depths errors last fresh := by
  refine ⟨done.size, done.keeps, ?_, done.assigned, ?_, ?_, done.unvisited⟩
  · intro k d has
    exact (done.gives k d has).imp_right fun ⟨new, member, same⟩ =>
      ⟨new, List.mem_cons_of_mem _ member, same⟩
  · intro none k member bound
    rcases List.mem_cons.mp member with rfl | member
    · exact absurd bound (Nat.not_lt_of_le (Array.getElem?_eq_none_iff.mp past))
    · exact done.right none k member bound
  · exact fun agree => done.nothing fun k member => agree k (List.mem_cons_of_mem _ member)

/-- Every block in the queue has a depth, those added to it included. -/
theorem queued (enters : Enters depth places depths errors last fresh) {queue : List Nat}
    (queued : ∀ k ∈ queue, ∃ d, Has depths k d) : ∀ k ∈ queue ++ fresh, ∃ d, Has last k d := by
  intro k member
  rcases List.mem_append.mp member with old | new
  · obtain ⟨d, given⟩ := queued k old
    exact ⟨d, enters.keeps k d given⟩
  · exact ⟨depth, enters.assigned k new⟩

end Enters
end

theorem enter_enters (blocks : Array BasicBlock) (depth : Nat) (places : List Nat)
    (depths : Depths) :
    Enters depth places depths (enter blocks depth places depths).1
      (enter blocks depth places depths).2.1 (enter blocks depth places depths).2.2 := by
  induction places generalizing depths with
  | nil => exact .nil
  | cons place rest ih =>
    simp only [enter]
    split
    · rename_i free
      exact .free free (ih _)
    · rename_i known here
      exact .known here (ih _)
    · rename_i past
      exact .past past (ih _)

/-- The way through a run leads to all its successors. -/
theorem reaches_successor {place' : Nat} (here : (BasicBlock.runs code)[place]? = some run)
    (way : Reaches code (startOf (BasicBlock.runs code) place) depth) (enough : Enough depth run)
    (member : place' ∈ successorsAt code place) :
    ∃ run', At code place' 0 (startOf (BasicBlock.runs code) place') run' ∧
      Reaches code (startOf (BasicBlock.runs code) place') (depthAfter depth run) := by
  have full := ((BasicBlock.runs_spec code).2 run (List.mem_of_getElem? here)).1
  have positive := List.length_pos_iff.mpr full
  have final : At code place (run.length - 1)
      (startOf (BasicBlock.runs code) place + (run.length - 1)) run := ⟨here, by omega, rfl⟩
  obtain ⟨i, current⟩ : ∃ i, run[run.length - 1]? = some i :=
    ⟨_, List.getElem?_eq_getElem final.inside⟩
  obtain ⟨target, run', there, flows⟩ :=
    BasicBlock.flows_of_successor final (Nat.sub_add_cancel positive) member
  have start : target = startOf (BasicBlock.runs code) place' := by simpa using there.index
  subst start
  refine ⟨run', there, ?_⟩
  have inside := reaches_inside final way fun o _ => enough o
  have onward := Reaches.step inside (final.same.trans current) (enough _ i current) flows
  rwa [← depthAfter_take current, Nat.sub_add_cancel positive, List.take_length] at onward

/-- A block is checked with the depth it is given. -/
theorem visit_cons {depths : Depths} {queue : List Nat} {fuel : Nat}
    (here : (BasicBlock.runs code)[place]? = some run) (has : Has depths place depth) :
    visit (BasicBlock.split code).toArray (fuel + 1) depths (place :: queue) =
      (straight (startOf (BasicBlock.runs code) place) depth run).1 ++
        (enter (BasicBlock.split code).toArray
          (straight (startOf (BasicBlock.runs code) place) depth run).2 (successorsAt code place)
          depths).1 ++
        visit (BasicBlock.split code).toArray fuel
          (enter (BasicBlock.split code).toArray
            (straight (startOf (BasicBlock.runs code) place) depth run).2 (successorsAt code place)
            depths).2.1
          (queue ++ (enter (BasicBlock.split code).toArray
            (straight (startOf (BasicBlock.runs code) place) depth run).2 (successorsAt code place)
            depths).2.2) := by
  have block : (BasicBlock.split code).toArray[place]? =
      some ⟨startOf (BasicBlock.runs code) place, run, successorsAt code place⟩ := by
    rw [List.getElem?_toArray, BasicBlock.getElem?_split, here]
    rfl
  have known : (depths[place]?.join).getD 0 = depth := by rw [has]; rfl
  simp only [visit, block, known]

/-- Nothing is wrong with balanced code. -/
theorem visit_eq_nil (balanced : Balanced code) {depths : Depths} {queue : List Nat} (fuel : Nat)
    (ways : ∀ k d, Has depths k d → Reaches code (startOf (BasicBlock.runs code) k) d)
    (queued : ∀ k ∈ queue, ∃ d, Has depths k d) :
    visit (BasicBlock.split code).toArray fuel depths queue = [] := by
  induction fuel generalizing depths queue with
  | zero => rfl
  | succ fuel ih =>
    cases queue with
    | nil => rfl
    | cons place queue =>
      have rest (k : Nat) (member : k ∈ queue) := queued k (List.mem_cons_of_mem _ member)
      cases here : (BasicBlock.runs code)[place]? with
      | none =>
        have block : (BasicBlock.split code).toArray[place]? = none := by
          rw [List.getElem?_toArray, BasicBlock.getElem?_split, here]
          rfl
        simp only [visit, block]
        exact ih ways rest
      | some run =>
        obtain ⟨d, has⟩ := queued place List.mem_cons_self
        have enough := enough_of_balanced balanced here (ways place d has)
        have onward (k : Nat) (member : k ∈ successorsAt code place) :=
          reaches_successor here (ways place d has) enough member
        rw [visit_cons here has, (straight_eq_nil _ d run).mpr enough, straight_depth _ enough]
        have enters := enter_enters (BasicBlock.split code).toArray (depthAfter d run)
          (successorsAt code place) depths
        have nothing := enters.nothing fun k member e known => by
          obtain ⟨run', there, way⟩ := onward k member
          have current := there.same.trans (List.getElem?_eq_getElem there.inside)
          exact balanced.agree _ e _ _ (ways k e known) way current
        rw [nothing, ih]
        · rfl
        · intro k e given
          rcases enters.gives k e given with old | ⟨-, member, rfl⟩
          · exact ways k e old
          · obtain ⟨-, -, way⟩ := onward k member
            exact way
        · exact enters.queued rest

/-- The block finds what it takes, and its successors have the depth it leaves. -/
def Checked (code : List Instruction) (depths : Depths) (place depth : Nat) : Prop :=
  ∀ run, (BasicBlock.runs code)[place]? = some run → Enough depth run ∧
    ∀ k ∈ successorsAt code place, k < depths.size → Has depths k (depthAfter depth run)

theorem Checked.keeps {places fresh : List Nat} {depths last : Depths} {errors : List StackError}
    {k d : Nat} (checked : Checked code depths k d)
    (enters : Enters depth places depths errors last fresh) : Checked code last k d := by
  intro run found
  obtain ⟨enough, onward⟩ := checked run found
  refine ⟨enough, fun k' member bound => ?_⟩
  exact enters.keeps _ _ (onward k' member (enters.size ▸ bound))

/-- If nothing is wrong, every block that is found ends up checked. -/
theorem visit_checked {depths : Depths} {queue : List Nat} (fuel : Nat)
    (size : depths.size = (BasicBlock.runs code).length)
    (bound : unvisited depths + queue.length ≤ fuel)
    (queued : ∀ k ∈ queue, ∃ d, Has depths k d)
    (waits : ∀ k d, Has depths k d → k ∈ queue ∨ Checked code depths k d)
    (nothing : visit (BasicBlock.split code).toArray fuel depths queue = []) :
    ∃ table : Depths, table.size = depths.size ∧ (∀ k d, Has depths k d → Has table k d) ∧
      ∀ k d, Has table k d → Checked code table k d := by
  induction fuel generalizing depths queue with
  | zero =>
    obtain rfl : queue = [] := List.length_eq_zero_iff.mp (by omega)
    exact ⟨depths, rfl, fun _ _ => id, fun k d has =>
      (waits k d has).resolve_left List.not_mem_nil⟩
  | succ fuel ih =>
    cases queue with
    | nil =>
      exact ⟨depths, rfl, fun _ _ => id, fun k d has =>
        (waits k d has).resolve_left List.not_mem_nil⟩
    | cons place queue =>
      obtain ⟨d, has⟩ := queued place List.mem_cons_self
      have inside : place < (BasicBlock.runs code).length :=
        size ▸ (Array.getElem?_eq_some_iff.mp has).1
      have here := List.getElem?_eq_getElem inside
      rw [visit_cons here has, List.append_eq_nil_iff, List.append_eq_nil_iff] at nothing
      obtain ⟨⟨first, between⟩, later⟩ := nothing
      have enough := (straight_eq_nil _ d _).mp first
      rw [straight_depth _ enough] at between later
      have enters := enter_enters (BasicBlock.split code).toArray
        (depthAfter d (BasicBlock.runs code)[place]) (successorsAt code place) depths
      generalize (enter (BasicBlock.split code).toArray
        (depthAfter d (BasicBlock.runs code)[place]) (successorsAt code place) depths).2.1 = last
        at later enters
      generalize (enter (BasicBlock.split code).toArray
        (depthAfter d (BasicBlock.runs code)[place]) (successorsAt code place) depths).2.2 = fresh
        at later enters
      have fewer : unvisited last + (queue ++ fresh).length ≤ fuel := by
        have same := enters.unvisited
        simp only [List.length_cons, List.length_append] at bound ⊢
        omega
      have queued' : ∀ k ∈ queue ++ fresh, ∃ d, Has last k d :=
        enters.queued fun k member => queued k (List.mem_cons_of_mem _ member)
      have waits' (k e : Nat) (given : Has last k e) :
          k ∈ queue ++ fresh ∨ Checked code last k e := by
        rcases enters.gives k e given with old | ⟨new, -⟩
        · rcases waits k e old with member | checked
          · rcases List.mem_cons.mp member with rfl | member
            · obtain rfl : d = e := Option.some.inj (Option.some.inj (has.symm.trans old))
              refine .inr fun run found => ?_
              obtain rfl := Option.some.inj (here.symm.trans found)
              exact ⟨enough, fun k' member bound =>
                enters.right between k' member (enters.size ▸ bound)⟩
            · exact .inl (List.mem_append_left _ member)
          · exact .inr (checked.keeps enters)
        · exact .inl (List.mem_append_right _ new)
      obtain ⟨table, same, grows, checked⟩ :=
        ih (enters.size.trans size) fewer queued' waits' later
      exact ⟨table, same.trans enters.size, fun k e given => grows k e (enters.keeps k e given),
        checked⟩

def initial (code : List Instruction) : Depths :=
  (Array.replicate (BasicBlock.runs code).length none).setIfInBounds 0 (some 0)

theorem errors_eq (code : List Instruction) :
    errors code = visit (BasicBlock.split code).toArray (BasicBlock.runs code).length
      (initial code) [0] := by
  simp only [errors, initial, List.size_toArray, BasicBlock.length_split]

theorem has_initial {k d : Nat} (some : 0 < (BasicBlock.runs code).length) :
    Has (initial code) k d ↔ k = 0 ∧ d = 0 := by
  rw [initial, has_set (by simpa using some)]
  simp only [Has, Array.getElem?_replicate]
  split <;> simp

theorem unvisited_initial (some : 0 < (BasicBlock.runs code).length) :
    unvisited (initial code) + 1 = (BasicBlock.runs code).length := by
  rw [initial, unvisited_set 0 (by simp [some])]
  simp [unvisited, List.countP_replicate]

/-- Where a way gets to, given the depths of the blocks. -/
theorem reaches_table {table : Depths} (distinct : (Code.labels code).Nodup)
    (size : table.size = (BasicBlock.runs code).length)
    (first : 0 < code.length → Has table 0 0)
    (checked : ∀ k d, Has table k d → Checked code table k d)
    {d : Nat} (way : Reaches code index d) (inside : index < code.length) :
    ∃ place offset run e, At code place offset index run ∧ Has table place e ∧
      d = depthAfter e (run.take offset) := by
  induction way with
  | start =>
    obtain ⟨run, located⟩ := At.zero inside
    exact ⟨0, 0, run, 0, located, first inside, rfl⟩
  | @step index target d i here current enough flows ih =>
    obtain ⟨place, offset, run, e, located, has, rfl⟩ := ih flows.inside
    have instruction := located.same.symm.trans current
    rw [← depthAfter_take instruction]
    rcases BasicBlock.flows_cases distinct located flows with
      within | ⟨last, past | ⟨place', run', member, there⟩⟩
    · exact ⟨place, offset + 1, run, e, within, has, rfl⟩
    · omega
    · have bound : place' < table.size := size ▸ (List.getElem?_eq_some_iff.mp there.here).1
      have given := (checked place e has run located.here).2 place' member bound
      refine ⟨place', 0, run', _, there, given, ?_⟩
      rw [last, List.take_length]
      rfl

/-- Depths that are right for every block balance the code. -/
theorem balanced_of_table {table : Depths} (distinct : (Code.labels code).Nodup)
    (size : table.size = (BasicBlock.runs code).length)
    (first : 0 < code.length → Has table 0 0)
    (checked : ∀ k d, Has table k d → Checked code table k d) : Balanced code := by
  refine ⟨?_, ?_⟩
  · intro i d x way current
    have inside := (List.getElem?_eq_some_iff.mp current).1
    obtain ⟨place, offset, run, e, located, has, rfl⟩ :=
      reaches_table distinct size first checked way inside
    exact (checked place e has run located.here).1 offset x (located.same.symm.trans current)
  · intro i d d' x way way' current
    have inside := (List.getElem?_eq_some_iff.mp current).1
    obtain ⟨place, offset, run, e, located, has, rfl⟩ :=
      reaches_table distinct size first checked way inside
    obtain ⟨place', offset', run', e', located', has', rfl⟩ :=
      reaches_table distinct size first checked way' inside
    obtain ⟨rfl, rfl⟩ := located.unique located'
    obtain rfl := Option.some.inj (located.here.symm.trans located'.here)
    obtain rfl : e = e' := Option.some.inj (Option.some.inj (has.symm.trans has'))
    rfl

/-- The stack check finds nothing wrong if and only if the code is balanced. -/
theorem errors_eq_nil_iff (distinct : (Code.labels code).Nodup) :
    errors code = [] ↔ Balanced code := by
  rw [errors_eq]
  rcases Nat.eq_zero_or_pos code.length with none | some
  · obtain rfl := List.length_eq_zero_iff.mp none
    exact iff_of_true rfl ⟨by simp, by simp⟩
  · obtain ⟨run, located⟩ := At.zero some
    have count : 0 < (BasicBlock.runs code).length := (List.getElem?_eq_some_iff.mp located.here).1
    have queued (k : Nat) (member : k ∈ [0]) : ∃ d, Has (initial code) k d :=
      ⟨0, (has_initial count).mpr ⟨List.mem_singleton.mp member, rfl⟩⟩
    constructor
    · intro nothing
      have size : (initial code).size = (BasicBlock.runs code).length := by simp [initial]
      have bound : unvisited (initial code) + [0].length ≤ (BasicBlock.runs code).length :=
        Nat.le_of_eq (unvisited_initial count)
      obtain ⟨table, same, grows, checked⟩ := visit_checked _ size bound queued
        (fun k d has => .inl (by simp [(has_initial count).mp has])) nothing
      refine balanced_of_table distinct (same.trans size) (fun _ => ?_) checked
      exact grows 0 0 ((has_initial count).mpr ⟨rfl, rfl⟩)
    · intro balanced
      refine visit_eq_nil balanced _ (fun k d has => ?_) queued
      obtain ⟨rfl, rfl⟩ := (has_initial count).mp has
      rw [show startOf (BasicBlock.runs code) 0 = 0 by simpa using located.index.symm]
      exact .start

end Verify

/-- The stack check accepts a program if and only if its code is balanced. -/
theorem Program.stackErrors_eq_nil_iff (p : Program) :
    p.stackErrors = [] ↔ Code.Balanced p.instructions :=
  Verify.errors_eq_nil_iff p.linked.distinct

end Statecraft
