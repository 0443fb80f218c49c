import Statecraft.Proofs.Cursor
import Statecraft.Proofs.ParserInvariants

/-! What parsers do as long as nothing is reported, said of lists of tokens alone. From
the tokens it starts with, a parser reads some, fails on one of them, or has something
reported. A run on a source without stray characters goes as the verdict says, so what
a source is read as can be told without readers, windows and bookmarks. -/
namespace Statecraft

/-- How a parser ends that starts when nothing has been reported. -/
inductive Verdict (α : Type) where
  /-- It yields a value and leaves the rest. -/
  | reads (value : α) (rest : List Token)
  /-- It fails before the rest, with a report on the place of what is blamed. -/
  | fails (rest blamed : List Token)
  /-- Something is reported. -/
  | reports
  /-- The fuel does not suffice. -/
  | stuck

/-- The verdict for every list of tokens that is left. -/
abbrev Judge (α : Type) := List Token → Verdict α

namespace Verdict

variable {α β : Type}

def andThen (v : Verdict α) (next : α → Judge β) : Verdict β :=
  match v with
  | reads value rest => next value rest
  | fails rest blamed => fails rest blamed
  | reports => reports
  | stuck => stuck

def map (f : α → β) (v : Verdict α) : Verdict β := v.andThen fun value => reads (f value)

/-- What is left, and what is blamed, is the end of what there was. -/
def Within (start : List Token) : Verdict α → Prop
  | reads _ rest => rest <:+ start
  | fails rest blamed => blamed <:+ rest ∧ rest <:+ start
  | reports | stuck => True

theorem Within.trans {v : Verdict α} {start earlier : List Token} (within : v.Within start)
    (shorter : start <:+ earlier) : v.Within earlier := by
  cases v with
  | reads => exact List.IsSuffix.trans within shorter
  | fails => exact ⟨within.1, within.2.trans shorter⟩
  | reports | stuck => trivial

theorem Within.andThen {v : Verdict α} {next : α → Judge β} {start : List Token}
    (within : v.Within start) (later : ∀ value rest, (next value rest).Within rest) :
    (v.andThen next).Within start := by
  cases v with
  | reads value rest => exact (later value rest).trans within
  | fails | reports | stuck => exact within

theorem Within.map {v : Verdict α} {start : List Token} (within : v.Within start) (f : α → β) :
    (v.map f).Within start :=
  within.andThen fun _ _ => List.suffix_refl _

end Verdict

namespace Parser

variable {Rule : Type → Type} {α β : Type}

def judgeToken (kind : TokenKind) : Judge Token
  | [] => .fails [] []
  | t :: rest => if t.kind = kind then .reads t rest else .fails (t :: rest) (t :: rest)

def judgeFinish : Judge Unit
  | [] => .reads () []
  | t :: rest => .fails (t :: rest) (t :: rest)

/-- A failure at the start lets the second judge try. -/
def judgeOrElse (first second : Judge α) : Judge α := fun start =>
  match first start with
  | .fails rest blamed => if blamed = start then second rest else .fails rest blamed
  | other => other

def judgeRecover (body : Judge α) : Judge α := fun start =>
  match body start with
  | .fails _ _ => .reports
  | other => other

def judgeAttempt (body : Judge α) : Judge α := fun start =>
  match body start with
  | .fails _ blamed => .fails start blamed
  | other => other

def judgeLookahead (body : Judge α) : Judge α := fun start =>
  match body start with
  | .reads value _ => .reads value start
  | .fails _ _ => .fails start start
  | other => other

def judgeSkipUntil (body : Judge α) : Nat → Judge α
  | 0, _ => .stuck
  | fuel + 1, start =>
      match body start with
      | .fails [] blamed => .fails [] blamed
      | .fails (_ :: rest) _ => judgeSkipUntil body fuel rest
      | other => other

def judgeMany (body : Judge α) : Nat → Judge (List α)
  | 0, _ => .stuck
  | _ + 1, [] => .reads [] []
  | fuel + 1, t :: more =>
      match body (t :: more) with
      | .fails rest blamed => if blamed = t :: more then .reads [] rest else .fails rest blamed
      | other => other.andThen fun value rest => (judgeMany body fuel rest).map (value :: ·)

def judgeManyUntil (body : Judge α) (stop : Judge β) : Nat → Judge (List α)
  | 0, _ => .stuck
  | fuel + 1, start =>
      match stop start with
      | .reads _ rest => .reads [] rest
      | .fails rest blamed =>
          if blamed ≠ start ∨ rest = [] then .fails rest blamed
          else
            (body rest).andThen fun value rest =>
              (judgeManyUntil body stop fuel rest).map (value :: ·)
      | .reports => .reports
      | .stuck => .stuck

def judgeSeparated (body : Judge α) (delimiter : Judge β) : Nat → Judge (List α)
  | 0, _ => .stuck
  | fuel + 1, start =>
      match body start with
      | .fails rest blamed =>
          if blamed = start ∨ rest = [] then .reads [] rest else .fails rest blamed
      | other => other.andThen fun value next =>
          match delimiter next with
          | .fails rest blamed =>
              if blamed = next ∨ rest = [] then .reads [value] rest else .fails rest blamed
          | other => other.andThen fun _ rest =>
              (judgeSeparated body delimiter fuel rest).map (value :: ·)

def judgeChain (term : Judge α) (operator : Judge β) (combine : α → β → α → α) :
    Nat → α → Judge α
  | 0, _, _ => .stuck
  | fuel + 1, left, start =>
      match operator start with
      | .fails rest blamed => if blamed = start then .reads left rest else .fails rest blamed
      | other => other.andThen fun op rest =>
          (term rest).andThen fun right => judgeChain term operator combine fuel (combine left op right)

/-- The verdict on a parser, given those on the rules and how often a loop may repeat. -/
def judgeWith (rules : ∀ {γ : Type}, Rule γ → Judge γ) (loops : Nat) :
    {α : Type} → Parser Rule α → Judge α
  | _, .token kind => judgeToken kind
  | _, .succeed value => .reads value
  | _, .fail _ => fun start => .fails start start
  | _, .finish => judgeFinish
  | _, .bind first next => fun start =>
      (judgeWith rules loops first start).andThen fun value => judgeWith rules loops (next value)
  | _, .orElse first second =>
      judgeOrElse (judgeWith rules loops first) (judgeWith rules loops second)
  | _, .withKind body _ => judgeWith rules loops body
  | _, .recover body _ => judgeRecover (judgeWith rules loops body)
  | _, .attempt body => judgeAttempt (judgeWith rules loops body)
  | _, .lookahead body => judgeLookahead (judgeWith rules loops body)
  | _, .skipUntil body => judgeSkipUntil (judgeWith rules loops body) loops
  | _, .many body => judgeMany (judgeWith rules loops body) loops
  | _, .manyUntil body stop =>
      judgeManyUntil (judgeWith rules loops body) (judgeWith rules loops stop) loops
  | _, .separated body delimiter =>
      judgeSeparated (judgeWith rules loops body) (judgeWith rules loops delimiter) loops
  | _, .chain term operator combine => fun start =>
      (judgeWith rules loops term start).andThen
        (judgeChain (judgeWith rules loops term) (judgeWith rules loops operator) combine loops)
  | _, .call rule => rules rule

end Parser

/-- The verdict on a rule; at most `depth` calls may be nested in each other. -/
def Grammar.judgeRule {Rule : Type → Type} (grammar : Grammar Rule) (loops : Nat) :
    Nat → {α : Type} → Rule α → Judge α
  | 0, _, _ => fun _ => .stuck
  | depth + 1, _, rule => (grammar rule).judgeWith (fun r => judgeRule grammar loops depth r) loops

def Judge.Shrinks {α : Type} (judge : Judge α) : Prop := ∀ start, (judge start).Within start

namespace Parser

variable {Rule : Type → Type} {α β : Type} {body : Judge α}

theorem judgeToken_shrinks (kind : TokenKind) : (judgeToken kind).Shrinks := by
  intro start
  cases start with
  | nil => exact ⟨List.suffix_refl _, List.suffix_refl _⟩
  | cons t rest =>
    simp only [judgeToken]
    split
    · exact List.suffix_cons t rest
    · exact ⟨List.suffix_refl _, List.suffix_refl _⟩

theorem judgeFinish_shrinks : judgeFinish.Shrinks := by
  intro start
  cases start with
  | nil => exact List.suffix_refl _
  | cons t rest => exact ⟨List.suffix_refl _, List.suffix_refl _⟩

theorem judgeOrElse_shrinks {second : Judge α} (here : body.Shrinks) (there : second.Shrinks) :
    (judgeOrElse body second).Shrinks := by
  intro start
  have within := here start
  simp only [judgeOrElse]
  cases verdict : body start with
  | fails rest blamed =>
    rw [verdict] at within
    dsimp only
    split
    · exact (there rest).trans within.2
    · exact within
  | reads | reports | stuck =>
    rw [verdict] at within
    exact within

theorem judgeRecover_shrinks (shrinks : body.Shrinks) : (judgeRecover body).Shrinks := by
  intro start
  have within := shrinks start
  simp only [judgeRecover]
  cases verdict : body start with
  | fails => trivial
  | reads | reports | stuck =>
    rw [verdict] at within
    exact within

theorem judgeAttempt_shrinks (shrinks : body.Shrinks) : (judgeAttempt body).Shrinks := by
  intro start
  have within := shrinks start
  simp only [judgeAttempt]
  cases verdict : body start with
  | fails rest blamed =>
    rw [verdict] at within
    exact ⟨within.1.trans within.2, List.suffix_refl _⟩
  | reads | reports | stuck =>
    rw [verdict] at within
    exact within

theorem judgeLookahead_shrinks (body : Judge α) : (judgeLookahead body).Shrinks := by
  intro start
  simp only [judgeLookahead]
  cases body start with
  | reads => exact List.suffix_refl _
  | fails => exact ⟨List.suffix_refl _, List.suffix_refl _⟩
  | reports | stuck => trivial

theorem judgeSkipUntil_shrinks (shrinks : body.Shrinks) (fuel : Nat) :
    (judgeSkipUntil body fuel).Shrinks := by
  induction fuel with
  | zero => exact fun _ => trivial
  | succ fuel ih =>
    intro start
    have within := shrinks start
    simp only [judgeSkipUntil]
    cases verdict : body start with
    | fails rest blamed =>
      rw [verdict] at within
      cases rest with
      | nil => exact within
      | cons t rest => exact (ih rest).trans ((List.suffix_cons t rest).trans within.2)
    | reads | reports | stuck =>
      rw [verdict] at within
      exact within

theorem judgeMany_shrinks (shrinks : body.Shrinks) (fuel : Nat) :
    (judgeMany body fuel).Shrinks := by
  induction fuel with
  | zero => exact fun _ => trivial
  | succ fuel ih =>
    intro start
    cases start with
    | nil => exact List.suffix_refl _
    | cons t more =>
      have within := shrinks (t :: more)
      simp only [judgeMany]
      cases verdict : body (t :: more) with
      | fails rest blamed =>
        rw [verdict] at within
        dsimp only
        split
        · exact within.2
        · exact within
      | reads value rest =>
        rw [verdict] at within
        exact within.andThen fun value rest => (ih rest).map _
      | reports | stuck => trivial

theorem judgeManyUntil_shrinks {stop : Judge β} (shrinks : body.Shrinks) (stops : stop.Shrinks)
    (fuel : Nat) : (judgeManyUntil body stop fuel).Shrinks := by
  induction fuel with
  | zero => exact fun _ => trivial
  | succ fuel ih =>
    intro start
    have within := stops start
    simp only [judgeManyUntil]
    cases verdict : stop start with
    | reads =>
      rw [verdict] at within
      exact within
    | fails rest blamed =>
      rw [verdict] at within
      dsimp only
      split
      · exact within
      · exact ((shrinks rest).andThen fun value rest => (ih rest).map _).trans within.2
    | reports | stuck => trivial

theorem judgeSeparated_shrinks {delimiter : Judge β} (shrinks : body.Shrinks)
    (delimits : delimiter.Shrinks) (fuel : Nat) : (judgeSeparated body delimiter fuel).Shrinks := by
  induction fuel with
  | zero => exact fun _ => trivial
  | succ fuel ih =>
    intro start
    have within := shrinks start
    simp only [judgeSeparated]
    cases verdict : body start with
    | fails rest blamed =>
      rw [verdict] at within
      dsimp only
      split
      · exact within.2
      · exact within
    | reads value next =>
      rw [verdict] at within
      refine within.andThen fun value next => ?_
      have within := delimits next
      cases delimited : delimiter next with
      | fails rest blamed =>
        rw [delimited] at within
        dsimp only
        split
        · exact within.2
        · exact within
      | reads =>
        rw [delimited] at within
        exact within.andThen fun _ rest => (ih rest).map _
      | reports | stuck => trivial
    | reports | stuck => trivial

theorem judgeChain_shrinks {operator : Judge β} {combine : α → β → α → α} (shrinks : body.Shrinks)
    (operates : operator.Shrinks) (fuel : Nat) (left : α) :
    (judgeChain body operator combine fuel left).Shrinks := by
  induction fuel generalizing left with
  | zero => exact fun _ => trivial
  | succ fuel ih =>
    intro start
    have within := operates start
    simp only [judgeChain]
    cases verdict : operator start with
    | fails rest blamed =>
      rw [verdict] at within
      dsimp only
      split
      · exact within.2
      · exact within
    | reads =>
      rw [verdict] at within
      exact within.andThen fun op rest => (shrinks rest).andThen fun right => ih _
    | reports | stuck => trivial

/-- No parser gets back before its start, if no rule does. -/
theorem judgeWith_shrinks {rules : ∀ {γ : Type}, Rule γ → Judge γ}
    (shrinks : ∀ {γ : Type} (rule : Rule γ), (rules rule).Shrinks) (loops : Nat)
    (p : Parser Rule α) : (p.judgeWith rules loops).Shrinks := by
  induction p with
  | token kind => exact judgeToken_shrinks kind
  | succeed => exact List.suffix_refl
  | fail => exact fun _ => ⟨List.suffix_refl _, List.suffix_refl _⟩
  | finish => exact judgeFinish_shrinks
  | bind first next ihf ihn => exact fun start => (ihf start).andThen ihn
  | orElse first second ihf ihs => exact judgeOrElse_shrinks ihf ihs
  | withKind body kind ih => exact ih
  | recover body fallback ihb => exact judgeRecover_shrinks ihb
  | attempt body ih => exact judgeAttempt_shrinks ih
  | lookahead body => exact judgeLookahead_shrinks _
  | skipUntil body ih => exact judgeSkipUntil_shrinks ih loops
  | many body ih => exact judgeMany_shrinks ih loops
  | manyUntil body stop ihb ihs => exact judgeManyUntil_shrinks ihb ihs loops
  | separated body delimiter ihb ihd => exact judgeSeparated_shrinks ihb ihd loops
  | chain term operator combine iht iho =>
    exact fun start => (iht start).andThen fun left => judgeChain_shrinks iht iho loops left
  | call rule => exact shrinks rule

end Parser

theorem Grammar.judgeRule_shrinks {Rule : Type → Type} (grammar : Grammar Rule) (loops depth : Nat)
    {α : Type} (rule : Rule α) : (grammar.judgeRule loops depth rule).Shrinks := by
  induction depth generalizing α with
  | zero => exact fun _ => trivial
  | succ depth ih => exact Parser.judgeWith_shrinks ih loops (grammar rule)

end Statecraft
