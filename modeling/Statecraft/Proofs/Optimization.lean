import Statecraft.Optimize.Rounds
import Statecraft.Proofs.Folding
import Statecraft.Proofs.Pruning
import Statecraft.Proofs.Verification

/-! Optimised programs can stand for the programs they are made from. Every pass
improves every program, so any number of rounds does. Code that passes the stack check
passes it after every round, and optimising it succeeds. -/
namespace Statecraft
namespace Optimize

theorem Pass.run_improves (pass : Pass) (stats : Stats) (p : Program) :
    p.Improves (pass.run p.instructions stats).code := by
  cases pass with
  | constantFolding => exact Folding.sweep_improves p
  | deadCodeElimination => exact prune_improves p

variable {p : Program} {passes : List Pass} {progress : Progress}

/-- What every pass keeps of the code, a round keeps. -/
theorem round_keeps {P : List Instruction → Prop}
    (keeps : ∀ (pass : Pass) stats code, P code → P (pass.run code stats).code) (number : Nat)
    (holds : P progress.code) : P (round number passes progress).1.code := by
  induction passes generalizing progress with
  | nil => exact holds
  | cons pass rest ih => exact ih (keeps pass progress.stats progress.code holds)

/-- And so do any number of rounds. -/
theorem rounds_keep {P : List Instruction → Prop}
    (keeps : ∀ (pass : Pass) stats code, P code → P (pass.run code stats).code)
    (left number : Nat) (holds : P progress.code) :
    P (rounds passes left number progress).code := by
  induction left generalizing number progress with
  | zero => exact holds
  | succ left ih =>
    have once : P (round number passes progress).1.code := round_keeps keeps number holds
    simp only [rounds]
    split
    · exact ih (number + 1) once
    · exact once

theorem Pass.run_andThen (pass : Pass) (stats : Stats) {code : List Instruction}
    (improves : p.Improves code) : p.Improves (pass.run code stats).code :=
  improves.andThen (fun code => (pass.run code stats).code) (pass.run_improves stats)

theorem rounds_improves (left number : Nat) (improves : p.Improves progress.code) :
    p.Improves (rounds passes left number progress).code :=
  rounds_keep (fun pass stats _ => pass.run_andThen stats) left number improves

/-- Optimising returns the program with the code of the last round, unless that breaks
the stack discipline. -/
theorem optimize_recode (passes : List Pass) (limit : Nat) (p : Program) :
    ∃ code, ∃ improves : p.Improves code,
      (∀ optimized, (optimize passes limit p).2 = .ok optimized →
        optimized.program = p.recode code improves.linked) ∧
      ((p.recode code improves.linked).stackErrors = [] →
        ∃ optimized, (optimize passes limit p).2 = .ok optimized) := by
  have improves : p.Improves (rounds passes limit 0 ⟨p.instructions, {}, []⟩).code :=
    rounds_improves limit 0 (.refl p)
  refine ⟨_, improves, ?_, ?_⟩
  · intro optimized accepted
    simp only [optimize, p.assemble_recode improves.linked] at accepted
    split at accepted
    · contradiction
    · cases accepted
      rfl
  · intro sound
    simp only [optimize, p.assemble_recode improves.linked, sound]
    exact ⟨_, rfl⟩

/-- An optimised program has the code of the last round, which passes the stack check, and what
the rounds counted. -/
theorem optimize_parts {passes : List Pass} {limit : Nat} {p : Program} {optimized : Optimized}
    (accepted : (optimize passes limit p).2 = .ok optimized) :
    optimized.program.instructions = (rounds passes limit 0 ⟨p.instructions, {}, []⟩).code ∧
      optimized.program.stackErrors = [] ∧
      optimized.stats =
        { (rounds passes limit 0 ⟨p.instructions, {}, []⟩).stats with
          instructionsRemoved :=
            (p.size : Int) - (rounds passes limit 0 ⟨p.instructions, {}, []⟩).code.length } := by
  have improves : p.Improves (rounds passes limit 0 ⟨p.instructions, {}, []⟩).code :=
    rounds_improves limit 0 (.refl p)
  simp only [optimize, p.assemble_recode improves.linked] at accepted
  split at accepted
  · contradiction
  · rename_i sound
    cases accepted
    exact ⟨rfl, sound, rfl⟩

/-- Balanced code stays so, and optimising it succeeds. -/
theorem optimize_balanced (passes : List Pass) (limit : Nat) {p : Program}
    (balanced : Code.Balanced p.instructions) :
    ∃ optimized, (optimize passes limit p).2 = .ok optimized := by
  obtain ⟨code, improves, -, accepts⟩ := optimize_recode passes limit p
  exact accepts ((Program.stackErrors_eq_nil_iff _).mpr (improves.balanced balanced))

end Optimize

def Program.negated : Program where
  code := #[.push (.boolean true), .unary .not .boolean, .store "x", .exit .success]
  symbols := .empty
  graph := none
  labels_nodup := .nil
  targets_defined := nofun

theorem Program.negated_sound (k : Nat) : ((Machine.start negated).after k).fault = none := by
  have stopped : ((Machine.start negated).after 4).stopped = true := rfl
  match k with
  | 0 | 1 | 2 | 3 => rfl
  | k + 4 =>
    rw [Machine.after_of_stopped_le stopped (Nat.le_add_left 4 k)]
    rfl

/-- An optimised program does what the program does that it is made from, and it is no
longer. -/
theorem optimized_refines {passes : List Optimize.Pass} {limit : Nat} {p : Program}
    {optimized : Optimize.Optimized}
    (accepted : (Optimize.optimize passes limit p).2 = .ok optimized) :
    optimized.program.size ≤ p.size ∧
      ((∀ k, ((Machine.start p).after k).fault = none) →
        (Machine.start p).Refines (Machine.start optimized.program)) := by
  obtain ⟨code, improves, result, -⟩ := Optimize.optimize_recode passes limit p
  rw [result optimized accepted]
  exact ⟨improves.shorter, improves.refines⟩

/-- The negation is computed beforehand, and nothing else changes. -/
theorem optimized_refines_negated :
    ∃ optimized, (Optimize.optimize Optimize.Pass.standard Optimize.standardLimit .negated).2 =
        .ok optimized ∧ optimized.program.size = 3 ∧
      (Machine.start .negated).Refines (Machine.start optimized.program) := by
  obtain ⟨optimized, accepted, size⟩ :
      ∃ optimized, (Optimize.optimize Optimize.Pass.standard Optimize.standardLimit .negated).2 =
        .ok optimized ∧ optimized.program.size = 3 := ⟨_, rfl, rfl⟩
  exact ⟨optimized, accepted, size, (optimized_refines accepted).2 Program.negated_sound⟩

def Program.decided : Program where
  code := #[.push (.boolean true), .unary .not .boolean, .jumpIfNot "$1", .load "x", .store "y",
    .jump "$2", .label "$1", .push (.boolean true), .store "y", .label "$2", .exit .success]
  symbols := .empty
  graph := none
  labels_nodup := by decide
  targets_defined := by decide

/-- Optimising a program that passes the stack check succeeds, whatever the limit. After every
number of rounds each label stands once, each jump has its label, and the stack check passes. -/
theorem verified_optimizes {p : Program} (verified : p.stackErrors = [])
    (passes : List Optimize.Pass) (limit : Nat) :
    (∃ optimized, (Optimize.optimize passes limit p).2 = .ok optimized ∧
      optimized.program.stackErrors = []) ∧
    ∀ n, Code.Linked (Optimize.rounds passes n 0 ⟨p.instructions, {}, []⟩).code ∧
      ∃ q, Program.assemble (Optimize.rounds passes n 0 ⟨p.instructions, {}, []⟩).code
          p.symbols p.graph = .ok q ∧ q.stackErrors = [] := by
  have balanced := p.stackErrors_eq_nil_iff.mp verified
  have checks {code : List Instruction} (improves : p.Improves code) :
      (p.recode code improves.linked).stackErrors = [] :=
    (Program.stackErrors_eq_nil_iff _).mpr (improves.balanced balanced)
  constructor
  · obtain ⟨optimized, accepted⟩ := Optimize.optimize_balanced passes limit balanced
    obtain ⟨code, improves, result, -⟩ := Optimize.optimize_recode passes limit p
    refine ⟨optimized, accepted, ?_⟩
    rw [result optimized accepted]
    exact checks improves
  · intro n
    have improves : p.Improves (Optimize.rounds passes n 0 ⟨p.instructions, {}, []⟩).code :=
      Optimize.rounds_improves n 0 (.refl p)
    exact ⟨improves.linked, _, p.assemble_recode improves.linked, checks improves⟩

/-- The first round leaves a jump out together with the branch it skips, and both labels. -/
theorem verified_optimizes_decided :
    Program.decided.stackErrors = [] ∧
      (∃ optimized, (Optimize.optimize Optimize.Pass.standard 1 .decided).2 = .ok optimized ∧
        optimized.program.stackErrors = []) ∧
      Code.Linked
        (Optimize.rounds Optimize.Pass.standard 1 0 ⟨Program.decided.instructions, {}, []⟩).code ∧
      Code.labels
        (Optimize.rounds Optimize.Pass.standard 1 0 ⟨Program.decided.instructions, {}, []⟩).code =
          [] := by
  have verified : Program.decided.stackErrors = [] := by decide +kernel
  obtain ⟨accepted, stays⟩ := verified_optimizes verified Optimize.Pass.standard 1
  exact ⟨verified, accepted, (stays 1).1, by decide +kernel⟩

end Statecraft
