import Statecraft.Proofs.StackDepth
import Statecraft.Proofs.Optimization
import Statecraft.Proofs.FoldNormalForm

/-! Optimising settles at once. The first round folds whatever can be folded and removes
whatever is dead then, and that brings no two instructions together that could be folded. So
the second round finds nothing to do, however long the program is and however deep its
conditionals nest. -/
namespace Statecraft
namespace Optimize

variable {p : Program} {code : List Instruction} {runs : List PassRun} {stats : Stats}

/-- Code in which nothing can be folded and nothing is dead. -/
structure Settled (code : List Instruction) : Prop where
  final : Pruned.Final code
  still : Code.Still code

/-- What a round of the standard passes makes of code. -/
theorem round_code (number : Nat) (progress : Progress) :
    (round number Pass.standard progress).1.code =
      (prune (Folding.sweep progress.code).out.reverse).code :=
  rfl

/-- A round is logged as two runs, and it tells whether one of them changed the code. -/
theorem round_runs (number : Nat) (progress : Progress) :
    ∃ folded pruned : PassRun, folded.round = number ∧ pruned.round = number ∧
      (round number Pass.standard progress).1.runs = progress.runs ++ [folded, pruned] ∧
      (round number Pass.standard progress).2 = (folded.changed || pruned.changed) := by
  refine ⟨_, _, rfl, rfl, List.append_assoc _ _ _, ?_⟩
  simp only [round, Pass.standard, Bool.or_false]

/-- One round settles code whose labels are followed by nothing that could be folded. -/
theorem round_settles (seamed : Code.Seamed p.instructions) (number : Nat) :
    Settled (round number Pass.standard ⟨p.instructions, stats, runs⟩).1.code := by
  have linked := (Folding.sweep_improves p).linked
  have folded := Folding.sweep_seamed seamed
  rw [round_code]
  exact ⟨prune_final linked, prune_still linked folded (Folding.sweep_still p.instructions)⟩

/-- A round leaves settled code as it is and counts nothing. -/
theorem round_of_settled (settled : Settled code) (number : Nat) :
    round number Pass.standard ⟨code, stats, runs⟩ =
      (⟨code, stats,
        runs ++ [⟨.constantFolding, number, false, code.length⟩] ++
          [⟨.deadCodeElimination, number, false, code.length⟩]⟩, false) := by
  have swept := Folding.sweep_of_still settled.still
  have pruned := prune_of_final settled.final
  simp only [round, Pass.standard, Pass.run, swept, List.reverse_reverse, pruned, Nat.add_zero,
    Nat.lt_irrefl, decide_false, Bool.or_self]

theorem rounds_of_settled (settled : Settled code) (left number : Nat) :
    (rounds Pass.standard left number ⟨code, stats, runs⟩).code = code ∧
      (rounds Pass.standard left number ⟨code, stats, runs⟩).stats = stats := by
  cases left with
  | zero => exact ⟨rfl, rfl⟩
  | succ left =>
    simp only [rounds, round_of_settled settled]
    exact ⟨rfl, rfl⟩

/-- The round with the given number is the last one, and it changed nothing. -/
def PassRun.Ends (last : Nat) (runs : List PassRun) : Prop :=
  (∃ run ∈ runs, run.round = last) ∧
    ∀ run ∈ runs, run.round ≤ last ∧ (run.round = last → run.changed = false)

/-- The second round is the last one at the latest. -/
theorem rounds_settle (seamed : Code.Seamed p.instructions) (more : Nat) :
    Settled (rounds Pass.standard (more + 2) 0 ⟨p.instructions, {}, []⟩).code ∧
      ∃ last < 2, PassRun.Ends last
        (rounds Pass.standard (more + 2) 0 ⟨p.instructions, {}, []⟩).runs := by
  have settled : Settled (round 0 Pass.standard ⟨p.instructions, {}, []⟩).1.code :=
    round_settles seamed 0
  obtain ⟨folded, pruned, zero, zero', logged, changed⟩ :=
    round_runs 0 ⟨p.instructions, {}, []⟩
  rw [rounds]
  generalize round 0 Pass.standard ⟨p.instructions, {}, []⟩ = first at settled logged changed ⊢
  obtain ⟨⟨code, stats, runs⟩, again⟩ := first
  obtain rfl : runs = [folded, pruned] := logged
  cases again with
  | true =>
    simp only [if_true, rounds, round_of_settled settled, Bool.false_eq_true, if_false]
    refine ⟨settled, 1, by omega, ⟨⟨.constantFolding, 1, false, code.length⟩, by simp, rfl⟩, ?_⟩
    simp [zero, zero']
  | false =>
    obtain ⟨same, same'⟩ := Bool.or_eq_false_iff.mp changed.symm
    simp only [Bool.false_eq_true, if_false]
    refine ⟨settled, 0, by omega, ⟨folded, by simp, zero⟩, ?_⟩
    simp [zero, zero', same, same']

end Optimize

open Optimize (Pass PassRun optimize)

/-- Optimising compiled code comes to rest. If two rounds are allowed, the last one is the first
or the second, and it changes nothing. In the result nothing can be folded and nothing is dead,
and optimising it again, in any number of rounds, leaves all instructions as they are and counts
nothing. -/
theorem optimize_settles {program : Source.Program} {earlier reports : List Report} {p : Program}
    {limit : Nat} (accepted : Compile.program program earlier = .ok ⟨some p, reports⟩)
    (two : 2 ≤ limit) :
    (∃ last < 2, PassRun.Ends last (optimize Pass.standard limit p).1) ∧
      (program.Complete → ∃ optimized, (optimize Pass.standard limit p).2 = .ok optimized) ∧
      ∀ optimized, (optimize Pass.standard limit p).2 = .ok optimized →
        Optimize.Settled optimized.program.instructions ∧ ∀ limit', ∃ again,
          (optimize Pass.standard limit' optimized.program).2 = .ok again ∧
            again.program.instructions = optimized.program.instructions ∧
            again.stats.constantsFolded = 0 ∧ again.stats.branchesFolded = 0 ∧
            again.stats.blocksRemoved = 0 := by
  obtain ⟨more, rfl⟩ := Nat.exists_eq_add_of_le' two
  obtain ⟨-, -, -, -, -, quiet, code, -⟩ := Compile.accepted_parts accepted
  obtain ⟨shaped, -⟩ := Compile.accepted_shaped accepted
  obtain ⟨settled, ends⟩ := Optimize.rounds_settle shaped.seamed more
  refine ⟨ends, fun complete => ?_, ?_⟩
  · refine Optimize.optimize_balanced Pass.standard (more + 2) ?_
    rw [code]
    exact Compile.sections_balanced complete quiet
  · intro optimized accepted
    obtain ⟨same, sound, -⟩ := Optimize.optimize_parts accepted
    rw [← same] at settled
    refine ⟨settled, fun limit' => ?_⟩
    obtain ⟨again, repeated⟩ := Optimize.optimize_balanced Pass.standard limit'
      ((Program.stackErrors_eq_nil_iff _).mp sound)
    obtain ⟨kept, -, counted⟩ := Optimize.optimize_parts repeated
    obtain ⟨rests, nothing⟩ := Optimize.rounds_of_settled settled limit' 0
    refine ⟨again, repeated, kept.trans rests, ?_⟩
    simp only [counted, nothing, and_self]

/-- Which branch is taken can be told beforehand, and what it assigns too. -/
def Source.Program.foregone : Source.Program :=
  let name (text : String) : Source.Name := ⟨text, .absent⟩
  let block (actions : List Source.Action) : Source.Block := .braces .absent actions .absent
  let negated (value : Bool) : Source.Expr := .unary .not .absent (.boolean value .absent)
  [.states ⟨.absent, [⟨name "A", []⟩, ⟨name "B", []⟩], .absent⟩,
    .declaration ⟨.assignable, .absent, name "x", negated true⟩,
    .whenBlock ⟨.absent, name "A",
      block
        [.conditional .absent (negated true)
          (block [.assertion .absent (.ref (name "x"))])
          (some (block [.assignment (name "x") (negated false)])),
          .transition .absent (name "B")]⟩]

/-- The first round leaves one branch out with all jumps and labels, and the second one finds
nothing to do. -/
theorem optimize_settles_foregone :
    ∃ p reports optimized,
      Compile.program Source.Program.foregone [] = .ok ⟨some p, reports⟩ ∧
        (optimize Pass.standard Optimize.standardLimit p).2 = .ok optimized ∧
        (optimize Pass.standard Optimize.standardLimit p).1.map (·.changed) =
          [true, true, false, false] ∧
        (∃ last < 2, PassRun.Ends last (optimize Pass.standard Optimize.standardLimit p).1) ∧
        ∃ again, (optimize Pass.standard Optimize.standardLimit optimized.program).2 =
          .ok again ∧ again.program.instructions = optimized.program.instructions := by
  obtain ⟨p, reports, optimized, accepted, result, changed⟩ : ∃ p reports optimized,
      Compile.program Source.Program.foregone [] = .ok ⟨some p, reports⟩ ∧
        (optimize Pass.standard Optimize.standardLimit p).2 = .ok optimized ∧
        (optimize Pass.standard Optimize.standardLimit p).1.map (·.changed) =
          [true, true, false, false] := ⟨_, _, _, rfl, rfl, rfl⟩
  obtain ⟨ends, -, rests⟩ := optimize_settles accepted (by decide : 2 ≤ Optimize.standardLimit)
  obtain ⟨again, repeated, same, -⟩ := (rests optimized result).2 Optimize.standardLimit
  exact ⟨p, reports, optimized, accepted, result, changed, ends, again, repeated, same⟩

end Statecraft
