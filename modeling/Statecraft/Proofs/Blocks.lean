import Statecraft.Code.BasicBlock
import Statecraft.Proofs.Balance

/-! Basic blocks and the instructions in them. Inside of a block control goes from one
instruction to the next; from its last one it goes to the first of a successor. -/
namespace Statecraft
namespace BasicBlock

variable {code : List Instruction} {runs : List (List Instruction)} {run : List Instruction}
  {x y : Instruction} {place offset index : Nat}

def startOf : List (List Instruction) → Nat → Nat
  | run :: rest, place + 1 => run.length + startOf rest place
  | _, _ => 0

def placeOf : List (List Instruction) → Nat → Nat
  | [], _ => 0
  | run :: rest, index =>
      if index < run.length then 0 else placeOf rest (index - run.length) + 1

theorem startOf_succ (here : runs[place]? = some run) :
    startOf runs (place + 1) = startOf runs place + run.length := by
  induction runs generalizing place with
  | nil => simp at here
  | cons first rest ih =>
    cases place with
    | zero =>
      cases here
      simp [startOf]
    | succ place =>
      have later := @ih place here
      simp only [startOf] at later ⊢
      omega

theorem startOf_length (runs : List (List Instruction)) :
    startOf runs runs.length = runs.flatten.length := by
  induction runs with
  | nil => rfl
  | cons run rest ih => simp [startOf, ih]

theorem getElem?_flatten (here : runs[place]? = some run) (inside : offset < run.length) :
    runs.flatten[startOf runs place + offset]? = run[offset]? := by
  induction runs generalizing place with
  | nil => simp at here
  | cons first rest ih =>
    rw [List.flatten_cons]
    cases place with
    | zero =>
      cases here
      simp [startOf, List.getElem?_append_left, inside]
    | succ place =>
      rw [startOf, Nat.add_assoc, List.getElem?_append_right (Nat.le_add_right _ _),
        Nat.add_sub_cancel_left]
      exact ih here

theorem placeOf_startOf (here : runs[place]? = some run) (inside : offset < run.length) :
    placeOf runs (startOf runs place + offset) = place := by
  induction runs generalizing place with
  | nil => simp at here
  | cons first rest ih =>
    cases place with
    | zero =>
      cases here
      simp [startOf, placeOf, inside]
    | succ place =>
      have later := @ih place here
      rw [startOf, placeOf, if_neg (by omega), Nat.add_assoc, Nat.add_sub_cancel_left, later]

/-- Every index is in one of the runs. -/
theorem exists_place (inside : index < runs.flatten.length) :
    ∃ place run offset, runs[place]? = some run ∧ offset < run.length ∧
      index = startOf runs place + offset := by
  induction runs generalizing index with
  | nil => simp at inside
  | cons first rest ih =>
    rw [List.flatten_cons, List.length_append] at inside
    rcases Nat.lt_or_ge index first.length with early | late
    · exact ⟨0, first, index, rfl, early, by simp [startOf]⟩
    · obtain ⟨place, run, offset, here, bound, same⟩ := @ih (index - first.length) (by omega)
      exact ⟨place + 1, run, offset, here, bound, by simp only [startOf]; omega⟩

/-- Inside of a run, no instruction ends a block and none starts one. -/
def Straight (run : List Instruction) : Prop :=
  ∀ k x y, run[k]? = some x → run[k + 1]? = some y → endsBlock x = false ∧ startsBlock y = false

theorem straight_single (x : Instruction) : Straight [x] := by
  intro k _ _ _ there
  simp at there

theorem straight_cons (ends : (endsBlock x || startsBlock y) = false)
    (straight : Straight (y :: run)) : Straight (x :: y :: run) := by
  intro k _ _ here there
  cases k with
  | zero =>
    cases here
    cases there
    exact Bool.or_eq_false_iff.mp ends
  | succ k => exact straight k _ _ here there

/-- Cutting code into runs loses nothing, and every run is a straight piece of it. -/
theorem runs_spec (code : List Instruction) :
    (BasicBlock.runs code).flatten = code ∧
      ∀ run ∈ BasicBlock.runs code, run ≠ [] ∧ Straight run := by
  fun_induction BasicBlock.runs code with
  | case1 => exact ⟨rfl, by simp⟩
  | case2 i rest next run more same ends ih =>
    rw [same] at ih
    refine ⟨congrArg (i :: ·) ih.1, ?_⟩
    intro other member
    rcases List.mem_cons.mp member with rfl | member
    · exact ⟨by simp, straight_single i⟩
    · exact ih.2 other member
  | case3 i rest next run more same ends ih =>
    rw [same] at ih
    refine ⟨congrArg (i :: ·) ih.1, ?_⟩
    intro other member
    rcases List.mem_cons.mp member with rfl | member
    · exact ⟨by simp, straight_cons (by simpa using ends) (ih.2 _ List.mem_cons_self).2⟩
    · exact ih.2 other (List.mem_cons_of_mem _ member)
  | case4 i rest apart ih =>
    refine ⟨congrArg (i :: ·) ih.1, ?_⟩
    intro other member
    rcases List.mem_cons.mp member with rfl | member
    · exact ⟨by simp, straight_single i⟩
    · exact ih.2 other member

/-- The instruction at an index has its offset in the run at a place. -/
structure At (code : List Instruction) (place offset index : Nat) (run : List Instruction) :
    Prop where
  here : (BasicBlock.runs code)[place]? = some run
  inside : offset < run.length
  index : index = startOf (BasicBlock.runs code) place + offset

namespace At

theorem same (located : At code place offset index run) : code[index]? = run[offset]? := by
  have flat := getElem?_flatten located.here located.inside
  rwa [(runs_spec code).1, ← located.index] at flat

theorem straight (located : At code place offset index run) : Straight run :=
  ((runs_spec code).2 run (List.mem_of_getElem? located.here)).2

theorem bound (located : At code place offset index run) : index < code.length :=
  (List.getElem?_eq_some_iff.mp
    (located.same.trans (List.getElem?_eq_getElem located.inside))).1

/-- Every run starts with an instruction. -/
theorem first (here : (BasicBlock.runs code)[place]? = some run) :
    At code place 0 (startOf (BasicBlock.runs code) place) run :=
  ⟨here, List.length_pos_iff.mpr ((runs_spec code).2 run (List.mem_of_getElem? here)).1, rfl⟩

theorem exists_of_lt (inside : index < code.length) :
    ∃ place offset run, At code place offset index run := by
  rw [← (runs_spec code).1] at inside
  obtain ⟨place, run, offset, here, bound, same⟩ := exists_place inside
  exact ⟨place, offset, run, here, bound, same⟩

theorem unique {place' offset' : Nat} {run' : List Instruction}
    (first : At code place offset index run) (second : At code place' offset' index run') :
    place = place' ∧ offset = offset' := by
  have same : place = place' := by
    rw [← placeOf_startOf first.here first.inside, ← first.index, second.index,
      placeOf_startOf second.here second.inside]
  subst same
  have index := first.index.symm.trans second.index
  exact ⟨rfl, by omega⟩

/-- Code starts with its first run. -/
theorem zero (some : 0 < code.length) : ∃ run, At code 0 0 0 run := by
  cases cut : BasicBlock.runs code with
  | nil =>
    have flat := (runs_spec code).1
    rw [cut] at flat
    rw [← flat] at some
    contradiction
  | cons run rest =>
    have full := ((runs_spec code).2 run (by simp [cut])).1
    exact ⟨run, by simp [cut], List.length_pos_iff.mpr full, by simp [cut, startOf]⟩

/-- A run is entered at its first instruction only, so every label stands there. -/
theorem offset_of_label {name : String} (located : At code place offset index run)
    (label : code[index]? = some (.label name)) : offset = 0 := by
  cases offset with
  | zero => rfl
  | succ offset =>
    rw [located.same] at label
    have before := List.getElem?_eq_getElem (Nat.lt_of_succ_lt located.inside)
    have inner := (located.straight offset _ _ before label).2
    contradiction

/-- A run is left at its last instruction only. -/
theorem last_of_ends (located : At code place offset index run) (current : code[index]? = some x)
    (ends : endsBlock x = true) : offset + 1 = run.length := by
  rcases Nat.lt_or_eq_of_le (Nat.succ_le_of_lt located.inside) with less | last
  · rw [located.same] at current
    have inner := (located.straight offset _ _ current (List.getElem?_eq_getElem less)).1
    rw [ends] at inner
    contradiction
  · exact last

theorem getLast? (located : At code place offset index run) (last : offset + 1 = run.length)
    (current : code[index]? = some x) : run.getLast? = some x := by
  rw [List.getLast?_eq_getElem?, ← last, Nat.add_sub_cancel, ← located.same, current]

/-- The index after the last one of a run starts the next run. -/
theorem next_run {next : List Instruction} (located : At code place offset index run)
    (last : offset + 1 = run.length) (there : (BasicBlock.runs code)[place + 1]? = some next) :
    At code (place + 1) 0 (index + 1) next := by
  have some := ((runs_spec code).2 next (List.mem_of_getElem? there)).1
  refine ⟨there, List.length_pos_iff.mpr some, ?_⟩
  rw [startOf_succ located.here, located.index]
  omega

end At

/-- A run and its place are listed by the label it starts with. -/
theorem mem_heads {name : String} :
    (name, place) ∈ heads runs ↔
      ∃ run, runs[place]? = some run ∧ run.head? = some (.label name) := by
  have starts (x : Option Instruction) :
      x.bind Instruction.label? = some name ↔ x = some (.label name) := by
    rcases x with _ | (_ | _ | _ | _ | _ | _ | _ | _ | _ | _ | _) <;> simp [Instruction.label?]
  simp only [heads, List.mem_reverse, List.mem_filterMap, Prod.exists, List.mem_zipIdx_iff_getElem?,
    Option.map_eq_some_iff, Prod.mk.injEq]
  constructor
  · rintro ⟨run, k, here, label, found, rfl, rfl⟩
    exact ⟨run, here, (starts _).mp found⟩
  · rintro ⟨run, here, found⟩
    exact ⟨run, place, here, name, (starts _).mpr found, rfl, rfl⟩

theorem lookup_mem {l : List (String × Nat)} {name : String} (found : l.lookup name = some place) :
    (name, place) ∈ l := by
  obtain ⟨before, after, rfl, -⟩ := List.lookup_eq_some_iff.mp found
  simp

/-- The run that starts with a label stands where the label does. -/
theorem at_of_head {name : String} (listed : (name, place) ∈ heads (BasicBlock.runs code)) :
    ∃ index run, At code place 0 index run ∧ code[index]? = some (.label name) := by
  obtain ⟨run, here, head⟩ := mem_heads.mp listed
  have inside : 0 < run.length := List.length_pos_iff.mpr (by rintro rfl; simp at head)
  have located : At code place 0 (startOf (BasicBlock.runs code) place) run := ⟨here, inside, rfl⟩
  exact ⟨_, run, located, by rw [located.same, ← List.head?_eq_getElem?, head]⟩

/-- A jump finds the run that starts with its label. -/
theorem lookup_heads {name : String} (distinct : (Code.labels code).Nodup)
    (located : At code place 0 index run) (label : code[index]? = some (.label name)) :
    (heads (BasicBlock.runs code)).lookup name = some place := by
  have listed : (name, place) ∈ heads (BasicBlock.runs code) := by
    refine mem_heads.mpr ⟨run, located.here, ?_⟩
    rw [List.head?_eq_getElem?, ← located.same, label]
  cases found : (heads (BasicBlock.runs code)).lookup name with
  | none => simpa using List.lookup_eq_none_iff.mp found _ listed
  | some other =>
    obtain ⟨index', run', located', label'⟩ := at_of_head (lookup_mem found)
    obtain rfl := Code.label_unique distinct label label'
    rw [(located.unique located').1]

def successorsAt (code : List Instruction) (place : Nat) : List Nat :=
  (((BasicBlock.runs code)[place]?.bind List.getLast?).map
    (successorsOf (heads (BasicBlock.runs code)) (BasicBlock.runs code).length place)).getD []

theorem getElem?_locate (heads : List (String × Nat)) (count first start : Nat)
    (runs : List (List Instruction)) (place : Nat) :
    (locate heads count first start runs)[place]? = runs[place]?.map fun run =>
      ⟨start + startOf runs place, run,
        (run.getLast?.map (successorsOf heads count (first + place))).getD []⟩ := by
  induction runs generalizing first start place with
  | nil => simp [locate]
  | cons run rest ih =>
    cases place with
    | zero => simp [locate, startOf]
    | succ place =>
      simp only [locate, List.getElem?_cons_succ, ih, startOf, Nat.add_assoc, Nat.add_comm 1]

/-- The block at a place. -/
theorem getElem?_split (code : List Instruction) (place : Nat) :
    (split code)[place]? = (BasicBlock.runs code)[place]?.map fun run =>
      ⟨startOf (BasicBlock.runs code) place, run, successorsAt code place⟩ := by
  rw [split, getElem?_locate]
  cases here : (BasicBlock.runs code)[place]? <;> simp [successorsAt, here]

theorem length_split (code : List Instruction) :
    (split code).length = (BasicBlock.runs code).length := by
  have same (place : Nat) :
      (split code).length ≤ place ↔ (BasicBlock.runs code).length ≤ place := by
    rw [← List.getElem?_eq_none_iff, ← List.getElem?_eq_none_iff, getElem?_split,
      Option.map_eq_none_iff]
  exact Nat.le_antisymm ((same _).mpr (Nat.le_refl _)) ((same _).mp (Nat.le_refl _))

theorem next_split (code : List Instruction) (place : Nat) :
    next (split code).toArray place = successorsAt code place := by
  rw [next, List.getElem?_toArray, getElem?_split]
  cases here : (BasicBlock.runs code)[place]? <;> simp [successorsAt, here]

theorem successorsAt_of_last (located : At code place offset index run)
    (last : offset + 1 = run.length) (current : code[index]? = some x) :
    successorsAt code place =
      successorsOf (heads (BasicBlock.runs code)) (BasicBlock.runs code).length place x := by
  simp [successorsAt, located.here, located.getLast? last current]

/-- Control stays in the run, or goes from its last instruction to the first one of a
successor or past the end. -/
theorem flows_cases {target : Nat} (distinct : (Code.labels code).Nodup)
    (located : At code place offset index run) (flows : Code.Flows code index target) :
    At code place (offset + 1) target run ∨
      offset + 1 = run.length ∧ (target = code.length ∨
        ∃ place' run', place' ∈ successorsAt code place ∧ At code place' 0 target run') := by
  cases flows with
  | on current falls =>
    rcases Nat.lt_or_eq_of_le (Nat.succ_le_of_lt located.inside) with less | last
    · exact .inl ⟨located.here, less, by rw [located.index, Nat.add_assoc]⟩
    · refine .inr ⟨last, ?_⟩
      cases there : (BasicBlock.runs code)[place + 1]? with
      | none =>
        have final : place + 1 = (BasicBlock.runs code).length := by
          have some := (List.getElem?_eq_some_iff.mp located.here).1
          have none := List.getElem?_eq_none_iff.mp there
          omega
        have whole := startOf_length (BasicBlock.runs code)
        rw [(runs_spec code).1, ← final, startOf_succ located.here] at whole
        exact .inl (by rw [located.index]; omega)
      | some next =>
        refine .inr ⟨place + 1, next, ?_, located.next_run last there⟩
        rw [successorsAt_of_last located last current]
        have more : place + 1 < (BasicBlock.runs code).length :=
          (List.getElem?_eq_some_iff.mp there).1
        simp [successorsOf, falls, more]
  | away current jumps label =>
    have last := located.last_of_ends current (by simp [endsBlock, jumps])
    obtain ⟨place', offset', run', located'⟩ :=
      At.exists_of_lt (List.getElem?_eq_some_iff.mp label).1
    obtain rfl := located'.offset_of_label label
    refine .inr ⟨last, .inr ⟨place', run', ?_, located'⟩⟩
    rw [successorsAt_of_last located last current]
    simp [successorsOf, jumps, lookup_heads distinct located' label]

/-- Control can go from the last instruction of a run to every successor. -/
theorem flows_of_successor {place' : Nat} (located : At code place offset index run)
    (last : offset + 1 = run.length) (member : place' ∈ successorsAt code place) :
    ∃ target run', At code place' 0 target run' ∧ Code.Flows code index target := by
  have current := located.same.trans (List.getElem?_eq_getElem located.inside)
  rw [successorsAt_of_last located last current, successorsOf, List.mem_eraseDups,
    List.mem_append] at member
  rcases member with jumped | next
  · rw [Option.mem_toList, Option.bind_eq_some_iff] at jumped
    obtain ⟨name, jumps, found⟩ := jumped
    obtain ⟨target, run', there, label⟩ := at_of_head (lookup_mem found)
    exact ⟨target, run', there, .away current jumps label⟩
  · split at next
    · rename_i falls
      simp only [Bool.and_eq_true, Bool.not_eq_true', decide_eq_true_eq] at falls
      obtain rfl := List.mem_singleton.mp next
      have there := List.getElem?_eq_getElem falls.2
      exact ⟨index + 1, _, located.next_run last there, .on current falls.1⟩
    · contradiction

end BasicBlock
end Statecraft
