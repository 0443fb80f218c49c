import Statecraft.Proofs.Pruning

/-! What is left when dead code is removed. A way leads to every instruction of it, so
whatever follows a jump or an exit is a label that some jump names. No jump leads to the
next instruction, and no label is left without a jump but those of states. So there is
nothing more to remove. -/
namespace Statecraft
namespace Code

variable {code : List Instruction} {keep : Nat → Bool} {live : Nat → Prop} {x : Instruction}
  {i j : Nat}

/-- A way from the start gets to the index, whatever is on the stack. -/
inductive Way (code : List Instruction) : Nat → Prop where
  | start : Way code 0
  | step {i j : Nat} (here : Way code i) (flows : Flows code i j) : Way code j

def Connected (code : List Instruction) : Prop := ∀ i < code.length, Way code i

/-- Control gets past a jump or an exit only by a jump from elsewhere. -/
theorem Connected.after_terminator (connected : Connected code) (current : code[i]? = some x)
    (ends : x.isTerminator = true) (inside : i + 1 < code.length) :
    ∃ name, code[i + 1]? = some (.label name) ∧ name ∈ jumpTargets code := by
  cases connected (i + 1) inside with
  | step _ flows =>
    cases flows with
    | on found falls =>
      cases found.symm.trans current
      rw [ends] at falls
      contradiction
    | away found jumps there =>
      exact ⟨_, there, List.mem_filterMap.mpr ⟨_, List.mem_of_getElem? found, jumps⟩⟩

namespace Thins

/-- A way through the whole code is a way through what is left. -/
theorem way (thins : Thins code keep live) (distinct : (labels code).Nodup) (way : Way code i) :
    live i ∧ Way (thin keep code) (rank keep i) := by
  induction way with
  | start => exact ⟨thins.start, .start⟩
  | @step i j _ flows ih =>
    obtain ⟨alive, way⟩ := ih
    refine ⟨thins.flows i j alive flows, ?_⟩
    cases kept : keep i with
    | true =>
      cases flows with
      | on current falls =>
        rw [rank_kept kept]
        exact way.step (.on ((getElem?_thin kept).trans current) falls)
      | away current jumps there =>
        have landed := thins.lands _ _ _ _ kept current jumps there
        exact way.step (.away ((getElem?_thin kept).trans current) jumps
          ((getElem?_thin landed).trans there))
    | false =>
      have current := List.getElem?_eq_getElem flows.inside
      have next : j = i + 1 := by
        cases thins.drops i _ alive current kept with
        | label found =>
          cases flows with
          | on => rfl
          | away found' jumps =>
            cases found.symm.trans found'
            contradiction
        | jump found next =>
          cases flows with
          | on => rfl
          | away found' jumps there =>
            cases found.symm.trans found'
            cases jumps
            exact label_unique distinct there next
      rw [next, rank_dropped kept]
      exact way

/-- Where ways lead to all that is kept, they do so in what is left. -/
theorem connected (thins : Thins code keep live) (distinct : (labels code).Nodup)
    (kept : ∀ i < code.length, keep i = true → Way code i) : Connected (thin keep code) := by
  intro k inside
  obtain ⟨i, rfl, wanted, current⟩ := of_getElem?_thin (List.getElem?_eq_getElem inside)
  exact (thins.way distinct (kept i (List.getElem?_eq_some_iff.mp current).1 wanted)).2

end Thins
end Code

namespace Optimize

open BasicBlock (At)
open Code (Connected Way thin)

variable {code : List Instruction} {keep : Nat → Bool} {i : Nat}

/-- Inside of a run control goes on. -/
theorem way_within {place offset : Nat} {run : List Instruction}
    (start : ∀ first, At code place 0 first run → Way code first)
    (located : At code place offset i run) : Way code i := by
  induction offset generalizing i with
  | zero => exact start i located
  | succ offset ih =>
    have before : At code place offset (i - 1) run :=
      ⟨located.here, Nat.lt_of_succ_lt located.inside, by rw [located.index]; rfl⟩
    have next : i = i - 1 + 1 := by rw [located.index]; rfl
    have current := List.getElem?_eq_getElem before.inside
    have inner := located.straight offset _ _ current (List.getElem?_eq_getElem located.inside)
    rw [BasicBlock.endsBlock, Bool.or_eq_false_iff] at inner
    rw [next]
    exact (ih before).step (.on (before.same.trans current) inner.1.2)

/-- Where a way leads to a block, one leads to each of its successors. -/
theorem way_successor {place place' : Nat}
    (start : ∀ first run, At code place 0 first run → Way code first)
    (follows : place' ∈ BasicBlock.successorsAt code place) :
    ∀ first run, At code place' 0 first run → Way code first := by
  intro first run begins
  cases here : (BasicBlock.runs code)[place]? with
  | none => simp [BasicBlock.successorsAt, here] at follows
  | some before =>
    have positive := (At.first here).inside
    have last : At code place (before.length - 1)
        (BasicBlock.startOf (BasicBlock.runs code) place + (before.length - 1)) before :=
      ⟨here, Nat.sub_lt positive Nat.zero_lt_one, rfl⟩
    obtain ⟨target, run', there, flows⟩ :=
      BasicBlock.flows_of_successor last (Nat.sub_add_cancel positive) follows
    rw [begins.index, ← there.index]
    exact (way_within (fun first => start first before) last).step flows

/-- The blocks that are found are those that ways get to. -/
theorem reached_iff (distinct : (Code.labels code).Nodup) (inside : i < code.length) :
    reached code i = true ↔ Way code i := by
  constructor
  · intro found
    obtain ⟨place, offset, run, located⟩ := At.exists_of_lt inside
    rw [reached_at located] at found
    refine way_within (fun first => ?_) located
    refine Reach.ofFirst_within
      (S := fun place => ∀ first run, At code place 0 first run → Way code first) ?_ ?_ place found
      first run
    · intro first run begins
      obtain ⟨run', zero⟩ := At.zero (Nat.zero_lt_of_lt inside)
      rw [begins.index, ← zero.index]
      exact .start
    · intro place place' start follows
      rw [BasicBlock.next_split] at follows
      exact way_successor start follows
  · intro way
    induction way with
    | start => exact reached_zero inside
    | step _ flows ih =>
      exact (reached_flows distinct (ih flows.inside) flows).resolve_left (Nat.not_le_of_lt inside)

/-- A way leads to whatever is left when unreachable blocks are gone. -/
theorem connected_reached (linked : Code.Linked code) :
    Connected (thin (reached code) code) :=
  (reached_thins linked).connected linked.distinct fun _ inside found =>
    (reached_iff linked.distinct inside).mp found

/-- In connected code, leaving out jumps to the next instruction and labels that no jump
names makes no jump lead to the next instruction that did not before. -/
theorem falls_thin (connected : Connected code)
    (named : ∀ i name, code[i]? = some (.label name) → name ∈ Code.jumpTargets code →
      keep i = true)
    (kept : ∀ i, keep i = true → falls code i = false) (k : Nat) :
    falls (thin keep code) k = false := by
  cases found : falls (thin keep code) k with
  | false => rfl
  | true =>
    exfalso
    simp only [falls] at found
    split at found
    · rename_i target name jump label
      obtain rfl : target = name := by simpa using found
      obtain ⟨i, rfl, wanted, current⟩ := Code.of_getElem?_thin jump
      rw [← Code.rank_kept wanted] at label
      have inside : i + 1 < code.length := by
        refine Nat.lt_of_not_le fun past => ?_
        rw [Code.getElem?_thin_end past] at label
        contradiction
      obtain ⟨name, next, jumped⟩ := connected.after_terminator current rfl inside
      rw [Code.getElem?_thin (named _ _ next jumped), next] at label
      cases label
      have falling := kept i wanted
      simp [falls, current, next] at falling
    · contradiction

/-- Code in which no block, no jump and no label is dead. -/
structure Pruned.Final (code : List Instruction) : Prop where
  linked : Code.Linked code
  connected : Connected code
  falls : ∀ i, falls code i = false
  needed : ∀ x ∈ code, needed code x = true

theorem jumpTargets_needed (code : List Instruction) :
    Code.jumpTargets (code.filter (needed code)) = Code.jumpTargets code := by
  have none (x : Instruction) (dropped : needed code x = false) : x.jumpTarget? = none := by
    cases x <;> first | rfl | contradiction
  generalize needed code = wanted at none
  induction code with
  | nil => rfl
  | cons x rest ih =>
    cases kept : wanted x with
    | true => rw [List.filter_cons_of_pos kept, Code.jumpTargets_cons, ih, Code.jumpTargets_cons]
    | false =>
      rw [List.filter_cons_of_neg (by simp [kept]), ih, Code.jumpTargets_cons, none x kept]
      rfl

theorem dropUnusedLabels_filter (code : List Instruction) :
    dropUnusedLabels code = code.filter (needed code) := by
  rw [dropUnusedLabels_eq, Code.filter_eq_thin]

/-- Without jumps to the next instruction, a way still leads to every instruction. -/
theorem dropFallthroughJumps_connected (linked : Code.Linked code) (connected : Connected code) :
    Code.Linked (dropFallthroughJumps code) ∧ Connected (dropFallthroughJumps code) ∧
      ∀ i, falls (dropFallthroughJumps code) i = false := by
  have thins := falls_thins code
  rw [dropFallthroughJumps_eq]
  refine ⟨thins.linked linked, ?_, falls_thin connected ?_ ?_⟩
  · exact thins.connected linked.distinct fun i inside _ => connected i inside
  · intro i name here _
    simp [falls, here]
  · intro i kept
    simpa using kept

/-- Labels that no jump names are the last to go. -/
theorem dropUnusedLabels_final (linked : Code.Linked code) (connected : Connected code)
    (falling : ∀ i, falls code i = false) : Pruned.Final (dropUnusedLabels code) := by
  have thins := needed_thins code
  have all : ∀ x ∈ dropUnusedLabels code, needed (dropUnusedLabels code) x = true := by
    intro x member
    rw [dropUnusedLabels_filter] at member ⊢
    have wanted := (List.mem_filter.mp member).2
    cases x with
    | label name => rwa [needed, jumpTargets_needed]
    | _ => rfl
  rw [dropUnusedLabels_eq] at all ⊢
  refine ⟨thins.linked linked, ?_, falls_thin connected ?_ fun i _ => falling i, all⟩
  · exact thins.connected linked.distinct fun i inside _ => connected i inside
  · intro i name here named
    simp [here, needed, named]

/-- No dead code is left. -/
theorem prune_final (linked : Code.Linked code) : Pruned.Final (prune code).code := by
  have thins := reached_thins linked
  have connected := connected_reached linked
  have whole := thins.linked linked
  rw [← dropUnreachable_eq] at connected whole
  obtain ⟨linked, connected, falling⟩ := dropFallthroughJumps_connected whole connected
  exact dropUnusedLabels_final linked connected falling

theorem dropUnreachable_final (final : Pruned.Final code) : dropUnreachable code = ⟨code, 0⟩ := by
  have all (i : Nat) (inside : i < code.length) : reached code i = true :=
    (reached_iff final.linked.distinct inside).mpr (final.connected i inside)
  have same : (dropUnreachable code).code = code := by
    rw [dropUnreachable_eq, Code.thin_constant true all]
    rfl
  have none : (dropUnreachable code).removed = 0 := by
    simp only [dropUnreachable]
    rw [List.filter_eq_self.mpr ?_, List.length_zipIdx, Nat.sub_self]
    rintro ⟨b, place⟩ member
    have here := List.mem_zipIdx_iff_getElem?.mp member
    rw [BasicBlock.getElem?_split, Option.map_eq_some_iff] at here
    obtain ⟨run, here, -⟩ := here
    exact (reached_at (.first here)).symm.trans (all _ (At.first here).bound)
  calc dropUnreachable code
      = ⟨(dropUnreachable code).code, (dropUnreachable code).removed⟩ := rfl
    _ = ⟨code, 0⟩ := by rw [same, none]

/-- Where no code is dead, nothing is removed. -/
theorem prune_of_final (final : Pruned.Final code) : prune code = ⟨code, 0, false⟩ := by
  have falling : dropFallthroughJumps code = code := by
    rw [dropFallthroughJumps_eq, Code.thin_constant true fun i _ => by simp [final.falls i]]
    rfl
  have labelled : dropUnusedLabels code = code := by
    rw [dropUnusedLabels_filter]
    exact List.filter_eq_self.mpr final.needed
  simp [prune, dropUnreachable_final final, falling, labelled]

end Optimize
end Statecraft
