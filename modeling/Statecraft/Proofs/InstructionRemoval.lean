import Statecraft.Proofs.Balance
import Statecraft.Proofs.InstructionSimulation

/-! Leaving instructions out. Whatever control never gets to can go, and so can a
label that no jump needs and a jump to the very next instruction, which only go on.
Indices of what is left move up to their ranks. -/
namespace Statecraft
namespace Code

def thin (keep : Nat → Bool) : List Instruction → List Instruction
  | [] => []
  | x :: rest =>
      if keep 0 then x :: thin (fun i => keep (i + 1)) rest else thin (fun i => keep (i + 1)) rest

/-- How many indices before the given one are kept. -/
def rank (keep : Nat → Bool) : Nat → Nat
  | 0 => 0
  | i + 1 => rank keep i + (keep i).toNat

variable {code : List Instruction} {keep : Nat → Bool} {live : Nat → Prop} {x : Instruction}
  {i j d : Nat} {label : String}

theorem rank_shift (keep : Nat → Bool) (i : Nat) :
    rank keep (i + 1) = (keep 0).toNat + rank (fun i => keep (i + 1)) i := by
  induction i with
  | zero => simp [rank]
  | succ i ih => rw [rank, ih, rank, Nat.add_assoc]

theorem rank_kept (kept : keep i = true) : rank keep (i + 1) = rank keep i + 1 := by
  simp [rank, kept]

theorem rank_dropped (dropped : keep i = false) : rank keep (i + 1) = rank keep i := by
  simp [rank, dropped]

theorem rank_mono (keep : Nat → Bool) (later : i ≤ j) : rank keep i ≤ rank keep j := by
  induction later with
  | refl => exact Nat.le_refl _
  | step _ ih => exact Nat.le_trans ih (Nat.le_add_right _ _)

theorem rank_add_le (keep : Nat → Bool) (i n : Nat) : rank keep (i + n) ≤ rank keep i + n := by
  induction n with
  | zero => exact Nat.le_refl _
  | succ n ih =>
    have one := Bool.toNat_le (keep (i + n))
    rw [← Nat.add_assoc, rank]
    omega

theorem rank_le (keep : Nat → Bool) (i : Nat) : rank keep i ≤ i := by
  have counted := rank_add_le keep 0 i
  simpa [rank] using counted

theorem rank_lt (dropped : keep i = false) (inside : i < j) : rank keep j < j := by
  obtain ⟨rest, rfl⟩ := Nat.exists_eq_add_of_lt inside
  have first := rank_le keep i
  have later := rank_add_le keep (i + 1) rest
  rw [rank_dropped dropped] at later
  rw [Nat.add_right_comm]
  omega

theorem rank_injective (first : keep i = true) (second : keep j = true)
    (same : rank keep i = rank keep j) : i = j := by
  rcases Nat.lt_trichotomy i j with less | equal | more
  · have := rank_mono keep less
    rw [rank_kept first] at this
    omega
  · exact equal
  · have := rank_mono keep more
    rw [rank_kept second] at this
    omega

/-- What is kept stands at its rank. -/
theorem getElem?_thin (kept : keep i = true) :
    (thin keep code)[rank keep i]? = code[i]? := by
  induction code generalizing keep i with
  | nil => simp [thin]
  | cons head rest ih =>
    cases i with
    | zero => simp [thin, rank, kept]
    | succ i =>
      have later := @ih (fun i => keep (i + 1)) i kept
      rw [rank_shift]
      cases first : keep 0 with
      | true => simpa [thin, first, Nat.add_comm 1] using later
      | false => simpa [thin, first] using later

/-- Nothing stands at the rank of an index past the end. -/
theorem getElem?_thin_end (past : code.length ≤ i) : (thin keep code)[rank keep i]? = none := by
  induction code generalizing keep i with
  | nil => simp [thin]
  | cons head rest ih =>
    cases i with
    | zero => simp at past
    | succ i =>
      have later := @ih (fun i => keep (i + 1)) i (Nat.le_of_succ_le_succ past)
      rw [rank_shift]
      cases first : keep 0 with
      | true => simpa [thin, first, Nat.add_comm 1] using later
      | false => simpa [thin, first] using later

/-- Everything left was kept. -/
theorem of_getElem?_thin {k : Nat} (here : (thin keep code)[k]? = some x) :
    ∃ i, rank keep i = k ∧ keep i = true ∧ code[i]? = some x := by
  induction code generalizing keep k with
  | nil => simp [thin] at here
  | cons head rest ih =>
    cases first : keep 0 with
    | true =>
      simp only [thin, first, if_true] at here
      cases k with
      | zero => exact ⟨0, rfl, first, here⟩
      | succ k =>
        obtain ⟨i, rfl, kept, current⟩ := ih here
        exact ⟨i + 1, by rw [rank_shift, first, Nat.add_comm]; rfl, kept, current⟩
    | false =>
      simp only [thin, first] at here
      obtain ⟨i, rfl, kept, current⟩ := ih here
      exact ⟨i + 1, by rw [rank_shift, first, Nat.add_comm]; rfl, kept, current⟩

theorem thin_sublist (keep : Nat → Bool) (code : List Instruction) :
    (thin keep code).Sublist code := by
  induction code generalizing keep with
  | nil => exact .slnil
  | cons head rest ih =>
    simp only [thin]
    split
    · exact (ih _).cons_cons head
    · exact (ih _).cons head

theorem thin_append (keep : Nat → Bool) (first second : List Instruction) :
    thin keep (first ++ second) =
      thin keep first ++ thin (fun i => keep (i + first.length)) second := by
  induction first generalizing keep with
  | nil => rfl
  | cons x first ih =>
    have shift : (fun i => keep (i + (x :: first).length)) = fun i => keep (i + first.length + 1) :=
      rfl
    rw [List.cons_append, thin, thin, ih, shift]
    split <;> rfl

/-- Code is kept or left out as a whole. -/
theorem thin_constant (whole : Bool) (same : ∀ i < code.length, keep i = whole) :
    thin keep code = if whole then code else [] := by
  induction code generalizing keep with
  | nil => cases whole <;> rfl
  | cons x rest ih =>
    have first := same 0 (Nat.zero_lt_succ _)
    have later := ih fun i inside => same (i + 1) (Nat.succ_lt_succ inside)
    rw [thin, first, later]
    cases whole <;> rfl

theorem filter_eq_thin (wanted : Instruction → Bool) (code : List Instruction) :
    code.filter wanted = thin (fun i => (code[i]?.map wanted).getD false) code := by
  induction code with
  | nil => rfl
  | cons x rest ih =>
    rw [List.filter_cons, ih, thin]
    rfl

/-- The instruction does nothing but go on to the next one. -/
inductive Idle (code : List Instruction) (i : Nat) : Prop where
  | label {name : String} (current : code[i]? = some (.label name))
  | jump {name : String} (current : code[i]? = some (.jump name))
      (next : code[i + 1]? = some (.label name))

/-- What may be left out of code. `live` holds where control can get to: there only
idle instructions are left out. A label is kept with its jumps. -/
structure Thins (code : List Instruction) (keep : Nat → Bool) (live : Nat → Prop) : Prop where
  start : live 0
  flows : ∀ i j, live i → Flows code i j → live j
  drops : ∀ i x, live i → code[i]? = some x → keep i = false → Idle code i
  lands : ∀ i j x label, keep i = true → code[i]? = some x → x.jumpTarget? = some label →
    code[j]? = some (.label label) → keep j = true

theorem Idle.flows (idle : Idle code i) : Flows code i (i + 1) := by
  cases idle with
  | label current => exact .on current rfl
  | jump current next => exact .away current rfl next

theorem Idle.reaches (idle : Idle code i) (here : Reaches code i d) : Reaches code (i + 1) d := by
  cases idle with
  | label current => exact here.on current (Nat.zero_le d) rfl rfl
  | jump current next => exact here.away current (Nat.zero_le d) rfl next rfl

namespace Thins

theorem linked (thins : Thins code keep live) (whole : Linked code) : Linked (thin keep code) := by
  refine ⟨whole.distinct.sublist ((thin_sublist keep code).filterMap _), ?_⟩
  intro l named
  obtain ⟨x, member, jumps⟩ := List.mem_filterMap.mp named
  obtain ⟨k, here⟩ := List.mem_iff_getElem?.mp member
  obtain ⟨i, rfl, kept, current⟩ := of_getElem?_thin here
  obtain ⟨j, there⟩ := whole.target current jumps
  have landed := thins.lands i j x l kept current jumps there
  refine mem_labels.mpr (List.mem_of_getElem? (i := rank keep j) ?_)
  rw [getElem?_thin landed, there]

/-- Idle instructions that are left out do not change the way. -/
theorem settle (thins : Thins code keep live) (alive : live i) (here : Reaches code i d)
    (current : (thin keep code)[rank keep i]? = some x) :
    ∃ j, rank keep j = rank keep i ∧ keep j = true ∧ code[j]? = some x ∧ live j ∧
      Reaches code j d := by
  induction distance : code.length - i using Nat.strongRecOn generalizing i with
  | ind n ih =>
    cases kept : keep i with
    | true =>
      rw [getElem?_thin kept] at current
      exact ⟨i, rfl, kept, current, alive, here⟩
    | false =>
      have inside : i < code.length := by
        refine Nat.lt_of_not_le fun past => ?_
        rw [getElem?_thin_end past] at current
        contradiction
      have idle := thins.drops i _ alive (List.getElem?_eq_getElem inside) kept
      have dropped := rank_dropped kept
      obtain ⟨j, same, rest⟩ := ih (code.length - (i + 1)) (by omega)
        (thins.flows i (i + 1) alive idle.flows) (idle.reaches here) (by rwa [dropped]) rfl
      exact ⟨j, same.trans dropped, rest⟩

/-- A way through what is left is a way through the whole code. -/
theorem reaches (thins : Thins code keep live) {k : Nat} (way : Reaches (thin keep code) k d) :
    ∃ i, rank keep i = k ∧ live i ∧ Reaches code i d := by
  induction way with
  | start => exact ⟨0, rfl, thins.start, .start⟩
  | @step k k' d x here current enough flows ih =>
    obtain ⟨i, rfl, alive, way⟩ := ih
    obtain ⟨j, same, kept, there, alive, way⟩ := thins.settle alive way current
    cases flows with
    | on found falls =>
      cases found.symm.trans current
      refine ⟨j + 1, by rw [rank_kept kept, same], ?_, way.on there enough falls rfl⟩
      exact thins.flows j (j + 1) alive (.on there falls)
    | away found jumps label =>
      cases found.symm.trans current
      obtain ⟨t, rfl, -, target⟩ := of_getElem?_thin label
      exact ⟨t, rfl, thins.flows j t alive (.away there jumps target),
        way.away there enough jumps target rfl⟩

theorem balanced (thins : Thins code keep live) (whole : Balanced code) :
    Balanced (thin keep code) := by
  refine ⟨?_, ?_⟩
  · intro k d x way current
    obtain ⟨i, rfl, alive, way⟩ := thins.reaches way
    obtain ⟨j, -, -, there, -, way⟩ := thins.settle alive way current
    exact whole.enough j d x way there
  · intro k d e x first second current
    obtain ⟨i, rfl, alive, first⟩ := thins.reaches first
    obtain ⟨i', same, alive', second⟩ := thins.reaches second
    obtain ⟨j, here, kept, there, -, first⟩ := thins.settle alive first current
    obtain ⟨j', here', kept', -, -, second⟩ :=
      thins.settle alive' second (by rwa [same])
    obtain rfl : j = j' := rank_injective kept kept' (by omega)
    exact whole.agree j d e x first second there

/-- What is left does the same as the whole code. -/
theorem simulates {p : Program} (thins : Thins p.instructions keep live) :
    Simulates p (p.recode _ (thins.linked p.linked))
      fun i stack j stack' => stack' = stack ∧ j = rank keep i ∧ live i := by
  refine ⟨rfl, ⟨rfl, rfl, thins.start⟩, fun m n paired running sound => ?_⟩
  obtain ⟨operands, place, alive⟩ := paired.related (Machine.stopped_eq_false.mp running).1
  cases current : p.instructions[m.ip]? with
  | none =>
    refine paired.ends running (by rw [p.getElem?_code, current]) ?_
    rw [Program.getElem?_code, Program.instructions_recode, place]
    exact getElem?_thin_end (List.getElem?_eq_none_iff.mp current)
  | some x =>
    have first : p.code[m.ip]? = some x := by rw [p.getElem?_code, current]
    cases kept : keep m.ip with
    | true =>
      refine paired.together running sound operands first ?_ ?_
      · rw [Program.getElem?_code, Program.instructions_recode, place, getElem?_thin kept, current]
      · intro i j stack goes
        cases goes with
        | on falls =>
          exact ⟨rfl, by rw [place, rank_kept kept], thins.flows _ _ alive (.on current falls)⟩
        | away jumps here there =>
          rw [p.getElem?_code] at here
          rw [Program.getElem?_code, Program.instructions_recode] at there
          have landed := thins.lands _ _ _ _ kept current jumps here
          refine ⟨rfl, ?_, thins.flows _ _ alive (.away current jumps here)⟩
          refine label_unique (thins.linked p.linked).distinct there ?_
          rw [getElem?_thin landed, here]
    | false =>
      have idle := thins.drops _ _ alive current kept
      have related : n.stack = m.stack ∧ n.ip = rank keep (m.ip + 1) ∧ live (m.ip + 1) :=
        ⟨operands, by rw [place, rank_dropped kept], thins.flows _ _ alive idle.flows⟩
      cases idle with
      | label found => exact paired.alone running (by rw [p.getElem?_code, found]) rfl rfl related
      | jump found next =>
        refine paired.alone running (by rw [p.getElem?_code, found]) ?_ rfl related
        rw [← p.getElem?_code, ← paired.first] at next
        simp only [Machine.execute, Machine.jumpTo, Program.resolve?_of_label next]
        rfl

end Thins
end Code
end Statecraft
