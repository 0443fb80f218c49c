import Statecraft.Proofs.Phrase
import Statecraft.Proofs.Verdict

/-! Which tokens a judge takes. What starts with a token of some kinds is matched only there, and a
judge that consumes makes the rest shorter. -/
namespace Statecraft

namespace Verdict

variable {α β : Type} {v : Verdict α} {after : List Token}

theorem andThen_eq_reads {next : α → Judge β} {value : β} :
    v.andThen next = .reads value after ↔
      ∃ a middle, v = .reads a middle ∧ next a middle = .reads value after := by
  cases v with
  | reads a middle =>
    simp only [andThen, reads.injEq]
    constructor
    · exact fun read => ⟨a, middle, ⟨rfl, rfl⟩, read⟩
    · rintro ⟨_, _, ⟨rfl, rfl⟩, read⟩
      exact read
  | fails | reports | stuck => simp [andThen]

theorem map_eq_reads {f : α → β} {value : β} :
    v.map f = .reads value after ↔ ∃ a, value = f a ∧ v = .reads a after := by
  simp only [map, andThen_eq_reads, reads.injEq]
  constructor
  · rintro ⟨a, middle, rfl, rfl, rfl⟩
    exact ⟨a, rfl, rfl⟩
  · rintro ⟨a, rfl, rfl⟩
    exact ⟨a, after, rfl, rfl, rfl⟩

theorem andThen_ne_stuck {next : α → Judge β} (settled : v ≠ .stuck)
    (later : ∀ a middle, v = .reads a middle → next a middle ≠ .stuck) :
    v.andThen next ≠ .stuck := by
  cases v with
  | reads a middle => exact later a middle rfl
  | fails | reports => simp [andThen]
  | stuck => exact absurd rfl settled

end Verdict

namespace Judge

variable {α β : Type} {bound : Nat} {judge other : Judge α} {kinds others : List TokenKind}

/-- Of fewer tokens than the bound nothing is matched that does not start with one of
the kinds. -/
def Opens (bound : Nat) (kinds : List TokenKind) (judge : Judge α) : Prop :=
  ∀ ⦃tokens⦄, tokens.length < bound → Avoids kinds tokens → judge tokens = .fails tokens tokens

/-- Something is read whenever a value is. -/
def Consumes (judge : Judge α) : Prop :=
  ∀ ⦃tokens value after⦄, judge tokens = .reads value after → after.length < tokens.length

def any (kinds : List TokenKind) : Judge Token
  | [] => .fails [] []
  | t :: rest => if t.kind ∈ kinds then .reads t rest else .fails (t :: rest) (t :: rest)

theorem any_eq_reads {t : Token} {tokens after : List Token} :
    any kinds tokens = .reads t after ↔ tokens = t :: after ∧ t.kind ∈ kinds := by
  cases tokens with
  | nil => simp [any]
  | cons u rest =>
    by_cases member : u.kind ∈ kinds
    · simp only [any, member, if_true, Verdict.reads.injEq, List.cons.injEq]
      constructor
      · rintro ⟨rfl, rfl⟩
        exact ⟨⟨rfl, rfl⟩, member⟩
      · exact And.left
    · simp only [any, member, if_false, reduceCtorEq, List.cons.injEq, false_iff]
      rintro ⟨⟨rfl, -⟩, found⟩
      exact member found

theorem any_singleton (kind : TokenKind) : any [kind] = Parser.judgeToken kind := by
  funext tokens
  cases tokens with
  | nil => rfl
  | cons t rest => simp [any, Parser.judgeToken]

theorem any_opens (bound : Nat) (kinds : List TokenKind) : (any kinds).Opens bound kinds := by
  intro tokens _ avoids
  cases tokens with
  | nil => rfl
  | cons t rest => simp [any, avoids_cons.mp avoids]

theorem token_opens (bound : Nat) (kind : TokenKind) :
    (Parser.judgeToken kind).Opens bound [kind] := by
  rw [← any_singleton]
  exact any_opens bound [kind]

theorem any_consumes (kinds : List TokenKind) : (any kinds).Consumes := by
  intro tokens value after read
  obtain ⟨rfl, -⟩ := any_eq_reads.mp read
  exact Nat.lt_succ_self _

theorem token_consumes (kind : TokenKind) : (Parser.judgeToken kind).Consumes := by
  rw [← any_singleton]
  exact any_consumes [kind]

/-- Trying one more kind is reading a token of one more kind. -/
theorem any_orElse (kinds : List TokenKind) (kind : TokenKind) :
    Parser.judgeOrElse (any kinds) (Parser.judgeToken kind) = any (kinds ++ [kind]) := by
  funext tokens
  cases tokens with
  | nil => rfl
  | cons t rest =>
    by_cases member : t.kind ∈ kinds
    · simp [Parser.judgeOrElse, any, member]
    · simp [Parser.judgeOrElse, any, Parser.judgeToken, member]

theorem any_shrinks (kinds : List TokenKind) : (any kinds).Shrinks := by
  intro tokens
  cases tokens with
  | nil => exact ⟨List.suffix_refl _, List.suffix_refl _⟩
  | cons t rest =>
    simp only [any]
    split
    · exact List.suffix_cons t rest
    · exact ⟨List.suffix_refl _, List.suffix_refl _⟩

theorem Shrinks.length_le {tokens after : List Token} {value : α} (shrinks : judge.Shrinks)
    (read : judge tokens = .reads value after) : after.length ≤ tokens.length := by
  have within := shrinks tokens
  rw [read] at within
  exact within.length_le

namespace Opens

theorem bind {next : α → Judge β} (opens : judge.Opens bound kinds) :
    Judge.Opens bound kinds fun tokens => (judge tokens).andThen next := by
  intro tokens short avoids
  simp only [opens short avoids, Verdict.andThen]

theorem orElse (here : judge.Opens bound kinds) (there : other.Opens bound others) :
    (Parser.judgeOrElse judge other).Opens bound (kinds ++ others) := by
  intro tokens short avoids
  have first := here short (avoids.anti (List.subset_append_left _ _))
  have second := there short (avoids.anti (List.subset_append_right _ _))
  simp [Parser.judgeOrElse, first, second]

theorem lookahead (opens : judge.Opens bound kinds) :
    (Parser.judgeLookahead judge).Opens bound kinds := by
  intro tokens short avoids
  simp [Parser.judgeLookahead, opens short avoids]

end Opens

namespace Consumes

theorem bind {next : α → Judge β} (consumes : judge.Consumes) (later : ∀ a, (next a).Shrinks) :
    Judge.Consumes fun tokens => (judge tokens).andThen next := by
  intro tokens value after read
  obtain ⟨a, middle, first, last⟩ := Verdict.andThen_eq_reads.mp read
  exact Nat.lt_of_le_of_lt ((later a).length_le last) (consumes first)

theorem orElse (here : judge.Consumes) (shrinks : judge.Shrinks) (there : other.Consumes) :
    (Parser.judgeOrElse judge other).Consumes := by
  intro tokens value after read
  simp only [Parser.judgeOrElse] at read
  cases verdict : judge tokens with
  | fails rest blamed =>
    have within := shrinks tokens
    rw [verdict] at within read
    dsimp only at read
    split at read
    · exact Nat.lt_of_lt_of_le (there read) within.2.length_le
    · contradiction
  | reads =>
    rw [verdict] at read
    exact here (verdict.trans read)
  | reports | stuck =>
    rw [verdict] at read
    contradiction

theorem recover (consumes : judge.Consumes) : (Parser.judgeRecover judge).Consumes := by
  intro tokens value after read
  simp only [Parser.judgeRecover] at read
  cases verdict : judge tokens with
  | reads =>
    rw [verdict] at read
    exact consumes (verdict.trans read)
  | fails | reports | stuck =>
    rw [verdict] at read
    contradiction

end Consumes

/-- An alternative that starts with a token of one of the kinds is chosen by this token. -/
theorem orElse_any {next : Token → Judge α} (shrinks : ∀ t, (next t).Shrinks) (other : Judge α)
    (tokens : List Token) :
    Parser.judgeOrElse (fun tokens => (any kinds tokens).andThen next) other tokens =
      match tokens with
      | [] => other []
      | t :: rest => if t.kind ∈ kinds then next t rest else other (t :: rest) := by
  cases tokens with
  | nil => rfl
  | cons t rest =>
    by_cases member : t.kind ∈ kinds
    · have within := shrinks t rest
      simp only [Parser.judgeOrElse, any, member, if_true, Verdict.andThen]
      cases verdict : next t rest with
      | fails left blamed =>
        rw [verdict] at within
        refine if_neg ?_
        rintro rfl
        exact absurd (within.1.trans within.2).length_le (Nat.not_succ_le_self _)
      | reads | reports | stuck => rfl
    · simp [Parser.judgeOrElse, any, member, Verdict.andThen]

end Judge

theorem Parser.judgeWith_anyToken {Rule : Type → Type} (rules : ∀ {γ : Type}, Rule γ → Judge γ)
    (loops : Nat) (first : TokenKind) (others : List TokenKind) :
    (anyToken first others).judgeWith rules loops = Judge.any (first :: others) := by
  have more (p : Parser Rule Token) (kinds : List TokenKind)
      (same : p.judgeWith rules loops = Judge.any kinds) :
      ((others.map token).foldl orElse p).judgeWith rules loops = Judge.any (kinds ++ others) := by
    induction others generalizing p kinds with
    | nil => simpa using same
    | cons kind others ih =>
      have next : (p.orElse (.token kind)).judgeWith rules loops = Judge.any (kinds ++ [kind]) := by
        simp only [judgeWith, same, Judge.any_orElse]
      simpa using ih _ _ next
  exact more (.token first) [first] (Judge.any_singleton first).symm

end Statecraft
