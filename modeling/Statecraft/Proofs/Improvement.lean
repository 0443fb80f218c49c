import Statecraft.Proofs.InstructionRemoval

/-! Better code for a program. It can stand for the old code whenever that does not
fault, it is balanced if the old code is, and it is no longer. -/
namespace Statecraft
namespace Program

structure Improves (p : Program) (code : List Instruction) : Prop where
  linked : Code.Linked code
  refines : (∀ k, ((Machine.start p).after k).fault = none) →
    (Machine.start p).Refines (Machine.start (p.recode code linked))
  balanced : Code.Balanced p.instructions → Code.Balanced code
  shorter : code.length ≤ p.instructions.length

namespace Improves

variable {p : Program} {code better : List Instruction}

theorem refl (p : Program) : p.Improves p.instructions :=
  ⟨p.linked, fun sound => .refl sound, id, Nat.le_refl _⟩

theorem trans (first : p.Improves code) (second : (p.recode code first.linked).Improves better) :
    p.Improves better := by
  refine ⟨second.linked, fun sound => ?_, fun balanced => second.balanced (first.balanced balanced),
    Nat.le_trans second.shorter first.shorter⟩
  exact (first.refines sound).trans (second.refines (first.refines sound).sound)

/-- Rewriting a linked code improves every program with it. -/
theorem andThen (rewrite : List Instruction → List Instruction) (first : p.Improves code)
    (rewrites : ∀ q : Program, q.Improves (rewrite q.instructions)) : p.Improves (rewrite code) :=
  first.trans (rewrites (p.recode code first.linked))

theorem of_thins {keep : Nat → Bool} {live : Nat → Prop}
    (thins : Code.Thins p.instructions keep live) : p.Improves (Code.thin keep p.instructions) :=
  ⟨thins.linked p.linked, thins.simulates.refines, thins.balanced,
    (Code.thin_sublist keep p.instructions).length_le⟩

end Improves
end Program
end Statecraft
