import Statecraft.Proofs.Termination

/-! Parsers that never fail. A choice cannot fail if its last alternative cannot and the
others are shy, which means that they fail only on the token where they started. So an
expression is always read, since what stands for a missing operand needs no token, and a
program is always read to its end, since a broken definition is skipped to the end at most. -/
namespace Statecraft

/-- No run that starts at the index fails. -/
def Firm {α : Type} (tape : Tape) (start : Nat) (run : Runner α) : Prop :=
  ∀ ⦃ctx after : Context⦄ ⦃marks : List Bookmark⦄ ⦃r : Report⦄, ctx.On tape marks →
    ctx.reader.cursor = start → run ctx ≠ (.failed r, after)

/-- Every failure blames the start, so that another alternative can be tried. -/
def Shy {α : Type} (tape : Tape) (run : Runner α) : Prop :=
  ∀ ⦃ctx after : Context⦄ ⦃marks : List Bookmark⦄ ⦃r : Report⦄, ctx.On tape marks →
    run ctx = (.failed r, after) → r.location = ctx.reader.location

namespace Parser

variable {Rule : Type → Type} {rules : ∀ {γ : Type}, Rule γ → Runner γ} {loops : Nat} {tape : Tape}
  {α β : Type} {p q : Parser Rule α} {i : Nat}

theorem progressed_eq_false {start : Location} {r : Report} :
    progressed start r = false ↔ r.location = start := by
  simp [progressed]

theorem succeed_firm (value : α) :
    Firm tape i ((succeed value : Parser Rule α).runWith rules loops) := by
  intro ctx after marks r _ _ failed
  cases failed

theorem token_shy (kind : TokenKind) :
    Shy tape ((token kind : Parser Rule Token).runWith rules loops) := by
  intro ctx after marks r on failed
  simp only [runWith, runToken] at failed
  split at failed
  · cases failed
    rfl
  · rename_i found
    split at failed <;> cases failed
    exact location_of_current found

theorem finish_shy : Shy tape ((finish : Parser Rule Unit).runWith rules loops) := by
  intro ctx after marks r on failed
  simp only [runWith, runFinish] at failed
  split at failed <;> cases failed
  rename_i found
  exact location_of_current found

theorem finish_firm (ended : tape.tokens.length ≤ i) :
    Firm tape i ((finish : Parser Rule Unit).runWith rules loops) := by
  intro ctx after marks r on here failed
  have current := on.keeps.current?
  rw [here, List.getElem?_eq_none ended] at current
  simp [runWith, runFinish, current] at failed

section Combinators

variable (commits : ∀ {γ : Type} (rule : Rule γ), Commits tape (rules rule))
include commits

theorem bind_firm {next : α → Parser Rule β} (first : Firm tape i (p.runWith rules loops))
    (second : ∀ value j, Firm tape j ((next value).runWith rules loops)) :
    Firm tape i ((p.bind next).runWith rules loops) := by
  intro ctx after marks r on here failed
  simp only [runWith] at failed
  rcases read : p.runWith rules loops ctx with ⟨value | r' | cause, mid⟩
  all_goals
    simp only [read] at failed
  · exact second value _ (on_of_run commits on read).1 rfl failed
  · exact first on here read
  · cases failed

theorem bind_shy {next : α → Parser Rule β} (first : Shy tape (p.runWith rules loops))
    (second : ∀ value j, Firm tape j ((next value).runWith rules loops)) :
    Shy tape ((p.bind next).runWith rules loops) := by
  intro ctx after marks r on failed
  simp only [runWith] at failed
  rcases read : p.runWith rules loops ctx with ⟨value | r' | cause, mid⟩
  all_goals
    simp only [read] at failed
  · exact absurd failed (second value _ (on_of_run commits on read).1 rfl)
  · cases failed
    exact first on read
  · cases failed

/-- What a choice tries next it tries from the token where the shy parser before failed. -/
theorem tried_again (shy : Shy tape (p.runWith rules loops)) {ctx mid : Context}
    {marks : List Bookmark} {r : Report} (on : ctx.On tape marks)
    (failed : p.runWith rules loops ctx = (.failed r, mid)) :
    progressed ctx.reader.location r = false ∧ mid.On tape marks ∧
      mid.reader.cursor = ctx.reader.cursor := by
  have unmoved := progressed_eq_false.mpr (shy on failed)
  exact ⟨unmoved, (Tries.second (q := p) failed unmoved).same commits on⟩

theorem orElse_firm (first : Shy tape (p.runWith rules loops))
    (second : Firm tape i (q.runWith rules loops)) :
    Firm tape i ((p.orElse q).runWith rules loops) := by
  intro ctx after marks r on here failed
  simp only [runWith, runOrElse] at failed
  rcases tried : p.runWith rules loops ctx with ⟨value | r' | cause, mid⟩
  all_goals
    simp only [tried] at failed
  · cases failed
  · obtain ⟨unmoved, on', same⟩ := tried_again commits first on tried
    simp only [unmoved, Bool.false_eq_true, if_false] at failed
    rcases next : q.runWith rules loops mid with ⟨value | r'' | cause, last⟩
    all_goals
      simp only [next] at failed
    · cases failed
    · exact second on' (same.trans here) next
    · cases failed
  · cases failed

theorem orElse_shy (first : Shy tape (p.runWith rules loops))
    (second : Shy tape (q.runWith rules loops)) :
    Shy tape ((p.orElse q).runWith rules loops) := by
  intro ctx after marks r on failed
  simp only [runWith, runOrElse] at failed
  rcases tried : p.runWith rules loops ctx with ⟨value | r' | cause, mid⟩
  all_goals
    simp only [tried] at failed
  · cases failed
  · obtain ⟨unmoved, on', same⟩ := tried_again commits first on tried
    simp only [unmoved, Bool.false_eq_true, if_false] at failed
    rcases next : q.runWith rules loops mid with ⟨value | r'' | cause, last⟩
    all_goals
      simp only [next] at failed
    · cases failed
    · have here : r''.location = ctx.reader.location := by
        rw [second on' next, on'.keeps.location, on.keeps.location, same]
      simp only [progressed_eq_false.mpr here, Bool.false_eq_true, if_false] at failed
      cases failed
      exact mostRelevant_located (first on tried) here
    · cases failed
  · cases failed

theorem anyToken_shy (first : TokenKind) (others : List TokenKind) :
    Shy tape ((anyToken first others : Parser Rule Token).runWith rules loops) :=
  anyToken_induction (motive := fun p => Shy tape (p.runWith rules loops)) token_shy
    (fun _ _ => orElse_shy commits) first others

theorem recover_firm (fallback : ∀ j, Firm tape j (q.runWith rules loops)) :
    Firm tape i ((p.recover q).runWith rules loops) := by
  intro ctx after marks r on here failed
  simp only [runWith] at failed
  rcases read : p.runWith rules loops ctx with ⟨value | r' | cause, mid⟩
  all_goals
    simp only [read] at failed
  · cases failed
  · exact fallback _ ((on_of_run commits on read).1.record r') rfl failed
  · cases failed

/-- Skipping comes to the end at last, where the body must not fail. -/
theorem skipUntil_firm (shy : Shy tape (p.runWith rules loops))
    (ends : Firm tape tape.tokens.length (p.runWith rules loops)) :
    Firm tape i (p.skipUntil.runWith rules loops) := by
  have loop (fuel : Nat) : ∀ {ctx after : Context} {marks : List Bookmark} {r : Report},
      ctx.On tape marks → runSkipUntil (p.runWith rules loops) fuel ctx ≠ (.failed r, after) := by
    induction fuel with
    | zero =>
      intro ctx after marks r on failed
      cases failed
    | succ fuel ih =>
      intro ctx after marks r on failed
      simp only [runSkipUntil] at failed
      rcases read : p.runWith rules loops ctx with ⟨value | r' | cause, mid⟩
      all_goals
        simp only [read] at failed
      · cases failed
      · obtain ⟨-, on', same⟩ := tried_again commits shy on read
        cases moved : mid.advance? with
        | some next =>
          simp only [moved] at failed
          exact ih (on'.of_advance moved).1 failed
        | none =>
          -- There is nothing left to skip, so the body failed at the very end.
          have ended : ctx.reader.cursor = tape.tokens.length := by
            refine Nat.le_antisymm on.inside (Nat.le_of_not_lt fun more => ?_)
            obtain ⟨next, moved', -⟩ := on'.advance (same ▸ more)
            cases moved.symm.trans moved'
          exact ends on ended read
      · cases failed
  exact fun ctx after marks r on _ => loop loops on

theorem many_firm (body : ∀ j, Firm tape j (p.runWith rules loops)) {ctx : Context}
    {marks : List Bookmark} (on : ctx.On tape marks) (after : Context) :
    (∀ r, p.many.runWith rules loops ctx ≠ (.failed r, after)) ∧
      ∀ values, p.many.runWith rules loops ctx = (.ok values, after) →
        after.reader.atEnd = true := by
  have loop (fuel : Nat) : ∀ {ctx : Context}, ctx.On tape marks →
      (∀ r, runMany (p.runWith rules loops) fuel ctx ≠ (.failed r, after)) ∧
        ∀ values, runMany (p.runWith rules loops) fuel ctx = (.ok values, after) →
          after.reader.atEnd = true := by
    induction fuel with
    | zero =>
      intro ctx on
      constructor <;> intro _ result <;> cases result
    | succ fuel ih =>
      intro ctx on
      simp only [runMany]
      by_cases ended : ctx.reader.atEnd = true
      · simp only [ended, if_true]
        constructor <;> intro _ result <;> cases result
        exact ended
      · rcases read : p.runWith rules loops ctx with ⟨value | r' | cause, mid⟩
        · obtain ⟨never, ends⟩ := ih (on_of_run commits on read).1
          simp only [ended, Bool.false_eq_true, if_false]
          rcases rest : runMany (p.runWith rules loops) fuel mid with ⟨values | r | cause, last⟩
          · simp only [rest] at ends
            constructor <;> intro _ result <;> cases result
            exact ends _ rfl
          · constructor <;> intro _ result <;> cases result
            exact never r rest
          · constructor <;> intro _ result <;> cases result
        · exact absurd read (body _ on rfl)
        · simp only [ended, Bool.false_eq_true, if_false]
          constructor <;> intro _ result <;> cases result
  exact loop loops on

theorem chain_firm {operator : Parser Rule β} {combine : α → β → α → α}
    (term : ∀ j, Firm tape j (p.runWith rules loops))
    (between : Shy tape (operator.runWith rules loops)) :
    Firm tape i ((p.chain operator combine).runWith rules loops) := by
  have loop (fuel : Nat) : ∀ {ctx after : Context} {marks : List Bookmark} {r : Report} (left : α),
      ctx.On tape marks → runChain (p.runWith rules loops) (operator.runWith rules loops) combine
        fuel left ctx ≠ (.failed r, after) := by
    induction fuel with
    | zero =>
      intro ctx after marks r left on failed
      cases failed
    | succ fuel ih =>
      intro ctx after marks r left on failed
      simp only [runChain] at failed
      rcases joined : operator.runWith rules loops ctx with ⟨op | r' | cause, mid⟩
      all_goals
        simp only [joined] at failed
      · have on' := (on_of_run commits on joined).1
        rcases read : p.runWith rules loops mid with ⟨right | r' | cause, last⟩
        all_goals
          simp only [read] at failed
        · exact ih _ (on_of_run commits on' read).1 failed
        · exact term _ on' rfl read
        · cases failed
      · -- Nothing was taken for an operator, so the chain ends well before it.
        simp only [(tried_again commits between on joined).1, Bool.false_eq_true,
          if_false] at failed
        cases failed
      · cases failed
  intro ctx after marks r on here failed
  simp only [runWith] at failed
  rcases read : p.runWith rules loops ctx with ⟨left | r' | cause, mid⟩
  all_goals
    simp only [read] at failed
  · exact loop loops left (on_of_run commits on read).1 failed
  · exact term _ on rfl read
  · cases failed

end Combinators
end Parser

namespace Source.Grammar

open Statecraft.Parser

variable {run : ∀ {γ : Type}, Rule γ → Runner γ} {loops : Nat} {tape : Tape} {p : Parser Rule Expr}
  (commits : ∀ {γ : Type} (rule : Rule γ), Commits tape (run rule))
include commits

theorem signed_firm (operand : ∀ j, Firm tape j (p.runWith run loops)) (first : TokenKind)
    (others : List TokenKind) (i : Nat) :
    Firm tape i ((signed p first others).runWith run loops) := by
  apply orElse_firm commits _ (operand i)
  apply bind_shy commits (anyToken_shy commits first others)
  intro op j
  exact bind_firm commits (operand j) fun _ _ => succeed_firm _

theorem level_firm (operand : ∀ j, Firm tape j (p.runWith run loops)) (first : TokenKind)
    (others : List TokenKind) (i : Nat) : Firm tape i ((level p first others).runWith run loops) :=
  chain_firm commits operand (anyToken_shy commits first others)

/-- An expression is always read, if those in parentheses are. -/
theorem expression_firm (inner : ∀ j, Firm tape j (run .expression)) (i : Nat) :
    Firm tape i (expression.runWith run loops) := by
  have primary (i : Nat) : Firm tape i (primary.runWith run loops) := by
    apply orElse_firm commits
    · apply bind_shy commits (token_shy _)
      intro opening j
      apply bind_firm commits (inner j)
      intro e k
      exact recover_firm commits fun _ => succeed_firm _
    · exact recover_firm commits fun _ => succeed_firm _
  have term (i : Nat) : Firm tape i (term.runWith run loops) :=
    level_firm commits (level_firm commits (signed_firm commits primary _ _) _ _) _ _ i
  have relation (i : Nat) : Firm tape i (relation.runWith run loops) := by
    apply bind_firm commits (term i)
    intro left j
    apply orElse_firm commits _ (succeed_firm _)
    apply bind_shy commits (anyToken_shy commits _ _)
    intro op k
    exact bind_firm commits (term k) fun _ _ => succeed_firm _
  exact level_firm commits (level_firm commits (signed_firm commits relation _ _) _ _) _ _ i

/-- A broken definition is always skipped: the end of the tokens is the end of it too. -/
theorem resyncDefinition_firm (i : Nat) : Firm tape i (resyncDefinition.runWith run loops) := by
  have closes : Shy tape ((((anyToken .semicolon [.closeBrace]).as ()) : Parser Rule Unit).runWith
      run loops) :=
    bind_shy commits (anyToken_shy commits _ _) fun _ _ => succeed_firm ()
  apply skipUntil_firm commits (orElse_shy commits closes finish_shy)
  exact orElse_firm commits closes (finish_firm (Nat.le_refl _))

theorem recoveredDefinition_firm (i : Nat) :
    Firm tape i (recoveredDefinition.runWith run loops) :=
  recover_firm commits fun j =>
    bind_firm commits (resyncDefinition_firm commits j) fun _ _ => succeed_firm none

/-- A program is always read, and to its end. -/
theorem program_firm {ctx : Context} {marks : List Bookmark} (on : ctx.On tape marks)
    (after : Context) :
    (∀ r, program.runWith run loops ctx ≠ (.failed r, after)) ∧
      ∀ value, program.runWith run loops ctx = (.ok value, after) → after.reader.atEnd = true := by
  have body (j : Nat) : Firm tape j (recoveredDefinition.runWith run loops) :=
    recoveredDefinition_firm commits j
  obtain ⟨never, ends⟩ := many_firm commits body on after
  simp only [runWith] at never ends
  rcases read : runMany (recoveredDefinition.runWith run loops) loops ctx with
    ⟨values | r | cause, last⟩
  all_goals
    simp only [program, Parser.map, runWith, read]
  · simp only [read] at ends
    constructor <;> intro _ result <;> cases result
    exact ends _ rfl
  · constructor <;> intro _ result <;> cases result
    exact never r read
  · constructor <;> intro _ result <;> cases result

omit commits in
theorem runRule_expression_firm (loops depth : Nat) (i : Nat) :
    Firm tape i (rules.runRule loops depth .expression) := by
  induction depth generalizing i with
  | zero =>
    intro ctx after marks r _ _ failed
    cases failed
  | succ depth ih =>
    rw [Statecraft.Grammar.runRule_succ]
    exact expression_firm (rules.runRule_commits loops depth) ih i

end Source.Grammar
end Statecraft
