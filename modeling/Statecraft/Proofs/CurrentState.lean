import Statecraft.Proofs.Labels

/-! What code does to the current state. The code of a section leaves the state alone
until it moves, and what stands after a move leads to the target at once. -/
namespace Statecraft

/-- Execution goes on with the next instruction, in the same state. -/
def Instruction.goesOn : Instruction → Bool
  | jump _ | jumpIfNot _ | transition _ | exit _ => false
  | _ => true

namespace Compile

open Source (Action Block Expr Name)
open Code (labels)
open Code.Builder (freshName)

/-- The code keeps to the state `home`: its jumps lead to the given labels, it fails only
if the state has a when-block, and what follows a move leads to the target of the move. -/
inductive Stays (home : String) (withBlock locals : List String) : List Instruction → Prop where
  | done : Stays home withBlock locals []
  | on {x : Instruction} {rest : List Instruction} (goes : x.goesOn = true)
      (later : Stays home withBlock locals rest) : Stays home withBlock locals (x :: rest)
  | jump {x : Instruction} {label : String} {rest : List Instruction}
      (jumps : x.jumpTarget? = some label) (near : label ∈ locals)
      (later : Stays home withBlock locals rest) : Stays home withBlock locals (x :: rest)
  | fail {rest : List Instruction} (within : home ∈ withBlock)
      (later : Stays home withBlock locals rest) :
      Stays home withBlock locals (.exit .assertionFailed :: rest)
  | move {rest : List Instruction} (target : String) (later : Stays home withBlock locals rest) :
      Stays home withBlock locals (.transition target :: (entry (some target) withBlock ++ rest))

namespace Stays

variable {home : String} {withBlock locals : List String} {first second code : List Instruction}

theorem append (here : Stays home withBlock locals first)
    (there : Stays home withBlock locals second) :
    Stays home withBlock locals (first ++ second) := by
  induction here with
  | done => exact there
  | on goes _ ih => exact .on goes ih
  | jump jumps near _ ih => exact .jump jumps near ih
  | fail within _ ih => exact .fail within ih
  | move target _ ih =>
    rw [List.cons_append, List.append_assoc]
    exact .move target ih

theorem of_goesOn (goes : ∀ x ∈ code, x.goesOn = true) : Stays home withBlock locals code := by
  induction code with
  | nil => exact .done
  | cons x rest ih =>
    rw [List.forall_mem_cons] at goes
    exact .on goes.1 (ih goes.2)

/-- No label stands between a move and the way out, so code can be entered at any. -/
theorem at_label (stays : Stays home withBlock locals code) {label : String}
    (defined : label ∈ labels code) :
    ∃ before rest, code = before ++ .label label :: rest ∧
      Stays home withBlock locals (.label label :: rest) := by
  have further (before : List Instruction) {rest : List Instruction}
      (ih : label ∈ labels rest → ∃ earlier after, rest = earlier ++ .label label :: after ∧
        Stays home withBlock locals (.label label :: after)) (later : label ∈ labels rest) :
      ∃ earlier after, before ++ rest = earlier ++ .label label :: after ∧
        Stays home withBlock locals (.label label :: after) := by
    obtain ⟨earlier, after, rfl, there⟩ := ih later
    exact ⟨before ++ earlier, after, (List.append_assoc ..).symm, there⟩
  induction stays with
  | done => contradiction
  | @on x rest goes later ih =>
    rw [Code.labels_cons, List.mem_append] at defined
    rcases defined with here | there
    · cases x <;> simp only [Instruction.label?, Option.toList_none, Option.toList_some,
        List.not_mem_nil, List.mem_singleton] at here
      subst here
      exact ⟨[], rest, rfl, .on goes later⟩
    · exact further [x] ih there
  | @jump x target rest jumps near later ih =>
    have plain : x.label? = none := by
      cases x <;> first | rfl | contradiction
    rw [Code.labels_cons, plain] at defined
    exact further [x] ih defined
  | fail within later ih => exact further [_] ih defined
  | @move rest target later ih =>
    rw [Code.labels_cons, Code.labels_append, (entry_targets (some target) withBlock).1] at defined
    exact further (.transition target :: entry (some target) withBlock) ih defined

end Stays

variable {scope : Scope} {home : String} {locals : List String}

theorem expr_goesOn (symbols : Symbols) (e : Expr) :
    ∀ x ∈ (expr symbols e).code, x.goesOn = true := by
  induction e with
  | number | boolean | string => simp [expr, ExprCode.literal, Instruction.goesOn]
  | ref name =>
    simp only [expr]
    split <;> simp [Instruction.goesOn]
  | unary op opSpan operand ih =>
    simp only [expr]
    split
    · exact ih
    · split
      · simpa [or_imp, forall_and, Instruction.goesOn] using ih
      · exact ih
  | binary op opSpan left right ihl ihr =>
    simp only [expr]
    split
    · simpa [or_imp, forall_and] using ⟨ihl, ihr⟩
    · split <;> simpa [or_imp, forall_and, Instruction.goesOn] using ⟨ihl, ihr⟩
  | invalid => simp [expr]

theorem condition_stays {withBlock : List String} (symbols : Symbols) (test : Expr) :
    Stays home withBlock locals (condition symbols test).code := by
  rw [condition_code]
  exact .of_goesOn (expr_goesOn symbols test)

theorem transition_stays (counter : Nat) (a : Action) (target : Name) :
    Stays home scope.withBlock locals (transition scope counter a target).code := by
  have code : (transition scope counter a target).code =
      .location a.span :: .transition target.text ::
        (entry (some target.text) scope.withBlock ++ []) := by
    simp [transition, entry]
  rw [code]
  exact .on rfl (.move _ .done)

theorem assignment_stays (counter : Nat) (a : Action) (name : Name) (value : Expr) :
    Stays home scope.withBlock locals (assignment scope counter a name value).code :=
  .on rfl ((Stays.of_goesOn (expr_goesOn scope.symbols value)).append (.on rfl .done))

theorem assertion_stays (within : home ∈ scope.withBlock) {counter : Nat} {a : Action}
    {test : Expr} (near : labels (assertion scope counter a test).code ⊆ locals) :
    Stays home scope.withBlock locals (assertion scope counter a test).code := by
  have failed : freshName "assert_fail" (counter + 1) ∈ locals :=
    near (Code.mem_labels.mpr (by simp [assertion]))
  have passed : freshName "assert_ok" (counter + 2) ∈ locals :=
    near (Code.mem_labels.mpr (by simp [assertion]))
  refine .on rfl ((condition_stays scope.symbols test).append ?_)
  exact .jump rfl failed (.jump rfl passed (.on rfl (.fail within (.on rfl .done))))

theorem conditional_stays {counter : Nat} {keyword : Selection} {test : Expr}
    {body otherwise : ActionCode}
    (near : labels (conditional scope counter keyword test body otherwise).code ⊆ locals)
    (here : labels body.code ⊆ locals → Stays home scope.withBlock locals body.code)
    (there : labels otherwise.code ⊆ locals → Stays home scope.withBlock locals otherwise.code) :
    Stays home scope.withBlock locals
      (conditional scope counter keyword test body otherwise).code := by
  have skip : freshName "if_false" (counter + 1) ∈ locals :=
    near (Code.mem_labels.mpr (by simp [conditional]))
  have done : freshName "if_end" (counter + 2) ∈ locals :=
    near (Code.mem_labels.mpr (by simp [conditional]))
  have chosen := here fun l member =>
    near (Code.mem_labels.mpr (by simp [conditional, Code.mem_labels.mp member]))
  have skipped := there fun l member =>
    near (Code.mem_labels.mpr (by simp [conditional, Code.mem_labels.mp member]))
  simp only [conditional, List.cons_append, List.append_assoc, List.nil_append]
  refine .on rfl ((condition_stays scope.symbols test).append (.jump rfl skip ?_))
  exact chosen.append (.jump rfl done (.on rfl (skipped.append (.on rfl .done))))

mutual

/-- The code of actions keeps to the state of the when-block they stand in. -/
theorem action_stays (within : home ∈ scope.withBlock) (a : Action) (counter : Nat)
    (near : labels (action scope counter a).code ⊆ locals) :
    Stays home scope.withBlock locals (action scope counter a).code := by
  cases a with
  | transition keyword target => exact transition_stays counter _ target
  | assignment name value => exact assignment_stays counter _ name value
  | assertion keyword test => exact assertion_stays within near
  | nested body => exact block_stays within body counter near
  | conditional keyword test body otherwise =>
    have first : labels (block scope (counter + 2) body).code ⊆ locals →
        Stays home scope.withBlock locals (block scope (counter + 2) body).code :=
      block_stays within body (counter + 2)
    cases otherwise with
    | some other => exact conditional_stays near first (block_stays within other _)
    | none => exact conditional_stays near first fun _ => .done

theorem block_stays (within : home ∈ scope.withBlock) (b : Block) (counter : Nat)
    (near : labels (block scope counter b).code ⊆ locals) :
    Stays home scope.withBlock locals (block scope counter b).code := by
  obtain ⟨_, body, _⟩ := b
  exact actions_stays within body counter near

theorem actions_stays (within : home ∈ scope.withBlock) (as : List Action) (counter : Nat)
    (near : labels (actions scope counter as).code ⊆ locals) :
    Stays home scope.withBlock locals (actions scope counter as).code := by
  cases as with
  | nil => exact .done
  | cons a rest =>
    cases terminator : (action scope counter a).terminator with
    | some target =>
      -- What follows a transition is not compiled.
      obtain ⟨more, same⟩ := actions_terminated terminator rest
      rw [same] at near ⊢
      exact action_stays within a counter near
    | none =>
      simp only [actions, terminator, ActionCode.append, Code.labels_append,
        List.append_subset] at near ⊢
      exact (action_stays within a counter near.1).append (actions_stays within rest _ near.2)

end

theorem Declared.foldl_goesOn (xs : List Source.Definition) {d : Declared}
    (goes : ∀ x ∈ d.code, x.goesOn = true) : ∀ x ∈ (xs.foldl add d).code, x.goesOn = true := by
  induction xs generalizing d with
  | nil => exact goes
  | cons x rest ih =>
    refine ih ?_
    cases x with
    | states list => rwa [add, states_code]
    | whenBlock b => exact goes
    | declaration x =>
      simp only [add, declaration]
      split
      · exact goes
      · simpa [or_imp, forall_and, Instruction.goesOn] using
          ⟨goes, expr_goesOn d.symbols x.value⟩

end Compile
end Statecraft
