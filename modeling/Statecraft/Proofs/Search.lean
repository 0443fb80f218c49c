import Statecraft.Reach

/-! The search finds the first node and, with every node, its successors, and it finds
nothing else. Every node enters the queue once, so the number of nodes bounds the search:
together the nodes without a mark and those in the queue are no more than the rounds
left. -/
namespace Statecraft.Reach

def unmarked (r : Reach) : Nat := r.marks.toList.count false

variable {r : Reach} {next : Nat → List Nat} {x y : Nat} {queue : List Nat}

/-- Marking one more node. -/
theorem contains_set {marks : Array Bool} (latest : List Nat) (inside : x < marks.size) :
    contains ⟨marks.setIfInBounds x true, x :: latest⟩ y = true ↔
      y = x ∨ contains ⟨marks, latest⟩ y = true := by
  by_cases same : x = y
  · simp [contains, same, same ▸ inside]
  · simp [contains, same, Ne.symm same]

theorem unmarked_set {marks : Array Bool} (latest : List Nat) (free : marks[x]? = some false) :
    unmarked ⟨marks.setIfInBounds x true, x :: latest⟩ + 1 = unmarked ⟨marks, latest⟩ := by
  obtain ⟨inside, free⟩ := Array.getElem?_eq_some_iff.mp free
  have bound : x < marks.toList.length := by simpa using inside
  have member : false ∈ marks.toList := by
    rw [← free]
    exact Array.getElem_mem_toList inside
  have positive := List.count_pos_iff.mpr member
  simp only [unmarked, Array.toList_setIfInBounds, List.count_set bound, Array.getElem_toList, free,
    beq_self_eq_true, if_true]
  simp only [Bool.true_beq, Bool.false_eq_true, if_false]
  omega

/-- What marking does: everything listed has a mark then, and what is returned had
none before. -/
structure Marks (xs : List Nat) (r last : Reach) (found : List Nat) : Prop where
  size : last.marks.size = r.marks.size
  contains : ∀ y, last.contains y = true ↔ r.contains y = true ∨ y ∈ found
  listed : ∀ y ∈ xs, y < r.marks.size → last.contains y = true
  unmarked : last.unmarked + found.length = r.unmarked

theorem mark_marks (xs : List Nat) (r : Reach) : Marks xs r (mark xs r).1 (mark xs r).2 := by
  induction xs generalizing r with
  | nil => exact ⟨rfl, by simp [mark], by simp, rfl⟩
  | cons x rest ih =>
    obtain ⟨marks, latest⟩ := r
    by_cases free : marks[x]? = some false
    · have inside : x < marks.size := (Array.getElem?_eq_some_iff.mp free).1
      have done := ih ⟨marks.setIfInBounds x true, x :: latest⟩
      have size : (marks.setIfInBounds x true).size = marks.size := by simp
      simp only [mark, free, if_true]
      refine ⟨done.size.trans size, ?_, ?_, ?_⟩
      · intro y
        rw [done.contains y, contains_set latest inside, List.mem_cons, or_assoc]
        exact or_left_comm
      · intro y member bound
        rcases List.mem_cons.mp member with rfl | member
        · exact (done.contains y).mpr (.inl ((contains_set latest inside).mpr (.inl rfl)))
        · exact done.listed y member (size ▸ bound)
      · rw [← unmarked_set latest free, ← done.unmarked, List.length_cons]
        omega
    · have done := ih ⟨marks, latest⟩
      simp only [mark, free, if_false]
      refine ⟨done.size, done.contains, ?_, done.unmarked⟩
      intro y member bound
      rcases List.mem_cons.mp member with rfl | member
      · refine (done.contains y).mpr (.inl ?_)
        simp only [Array.getElem?_eq_getElem bound, Option.some.injEq, Bool.not_eq_false] at free
        simp [contains, Array.getElem?_eq_getElem bound, free]
      · exact done.listed y member bound

/-- The successors of a node have marks. -/
def Done (next : Nat → List Nat) (r : Reach) (x : Nat) : Prop :=
  ∀ y ∈ next x, y < r.marks.size → r.contains y = true

/-- What a search keeps: the nodes that have marks are done or in the queue. -/
theorem search_done (fuel : Nat) (bound : r.unmarked + queue.length ≤ fuel)
    (waits : ∀ x, r.contains x = true → x ∈ queue ∨ Done next r x) :
    (search next fuel r queue).marks.size = r.marks.size ∧
      (∀ x, r.contains x = true → (search next fuel r queue).contains x = true) ∧
      ∀ x, (search next fuel r queue).contains x = true →
        Done next (search next fuel r queue) x := by
  induction fuel generalizing r queue with
  | zero =>
    obtain rfl : queue = [] := List.length_eq_zero_iff.mp (by omega)
    exact ⟨rfl, fun _ => id, fun x found => (waits x found).resolve_left List.not_mem_nil⟩
  | succ fuel ih =>
    cases queue with
    | nil => exact ⟨rfl, fun _ => id, fun x found => (waits x found).resolve_left List.not_mem_nil⟩
    | cons x queue =>
      have marks := mark_marks (next x) r
      have kept (y : Nat) (found : r.contains y = true) : (mark (next x) r).1.contains y = true :=
        (marks.contains y).mpr (.inl found)
      have fewer : (mark (next x) r).1.unmarked + (queue ++ (mark (next x) r).2).length ≤ fuel := by
        have same := marks.unmarked
        simp only [List.length_cons, List.length_append] at bound ⊢
        omega
      have waits' (y : Nat) (found : (mark (next x) r).1.contains y = true) :
          y ∈ queue ++ (mark (next x) r).2 ∨ Done next (mark (next x) r).1 y := by
        rcases (marks.contains y).mp found with old | new
        · rcases waits y old with queued | done
          · rcases List.mem_cons.mp queued with rfl | queued
            · exact .inr fun z member inside => marks.listed z member (marks.size ▸ inside)
            · exact .inl (List.mem_append_left _ queued)
          · exact .inr fun z member inside => kept z (done z member (marks.size ▸ inside))
        · exact .inl (List.mem_append_right _ new)
      obtain ⟨size, grows, closed⟩ := ih fewer waits'
      exact ⟨size.trans marks.size, fun y found => grows y (kept y found), closed⟩

/-- The search finds the first node, and with a node its successors. -/
theorem ofFirst_closed (next : Nat → List Nat) (count : Nat) :
    (0 < count → (ofFirst next count).contains 0 = true) ∧
      ∀ x y, (ofFirst next count).contains x = true → y ∈ next x → y < count →
        (ofFirst next count).contains y = true := by
  have marks := mark_marks [0] (none count)
  have size : (none count).marks.size = count := by simp [none]
  have nothing (x : Nat) : (none count).contains x = false := by
    simp only [contains, none, Array.getElem?_replicate]
    split <;> rfl
  have bound : (mark [0] (none count)).1.unmarked + (mark [0] (none count)).2.length ≤ count := by
    rw [marks.unmarked]
    simp [unmarked, none]
  have waits (x : Nat) (found : (mark [0] (none count)).1.contains x = true) :
      x ∈ (mark [0] (none count)).2 ∨ Done next (mark [0] (none count)).1 x :=
    .inl (((marks.contains x).mp found).resolve_left (by simp [nothing]))
  obtain ⟨same, grows, closed⟩ := search_done count bound waits
  refine ⟨fun some => grows 0 (marks.listed 0 List.mem_cons_self (by rwa [size])), ?_⟩
  intro x y found member inside
  exact closed x found y member (by rwa [same, marks.size, size])

theorem mark_within (xs : List Nat) (r : Reach) : (mark xs r).2 ⊆ xs := by
  induction xs generalizing r with
  | nil => exact List.Subset.refl _
  | cons x rest ih =>
    simp only [mark]
    split
    · exact List.cons_subset_cons x (ih _)
    · exact List.subset_cons_of_subset x (ih _)

/-- What is closed under successors and has the marked and the queued nodes has all that
the search finds. -/
theorem search_within {S : Nat → Prop} (closed : ∀ x y, S x → y ∈ next x → S y) (fuel : Nat)
    (marked : ∀ x, r.contains x = true → S x) (queued : ∀ x ∈ queue, S x) :
    ∀ x, (search next fuel r queue).contains x = true → S x := by
  induction fuel generalizing r queue with
  | zero => exact marked
  | succ fuel ih =>
    cases queue with
    | nil => exact marked
    | cons x queue =>
      have new (y : Nat) (found : y ∈ (mark (next x) r).2) : S y :=
        closed x y (queued x List.mem_cons_self) (mark_within _ _ found)
      refine ih ?_ ?_
      · intro y found
        exact (((mark_marks (next x) r).contains y).mp found).elim (marked y) (new y)
      · intro y waiting
        rcases List.mem_append.mp waiting with old | found
        · exact queued y (List.mem_cons_of_mem x old)
        · exact new y found

/-- The search finds nothing but what ways from the first node get to. -/
theorem ofFirst_within {S : Nat → Prop} {count : Nat} (first : S 0)
    (closed : ∀ x y, S x → y ∈ next x → S y) :
    ∀ x, (ofFirst next count).contains x = true → S x := by
  have new (y : Nat) (found : y ∈ (mark [0] (none count)).2) : S y := by
    obtain rfl := List.mem_singleton.mp (mark_within [0] _ found)
    exact first
  refine search_within closed count ?_ new
  intro y found
  refine (((mark_marks [0] (none count)).contains y).mp found).elim (fun marked => ?_) (new y)
  simp only [contains, none, Array.getElem?_replicate] at marked
  split at marked <;> contradiction

end Statecraft.Reach
