import Statecraft.Token

/-! Languages of tokens. A phrase gives tokens a value; phrases stand one after the other, with
delimiters between them, or are joined by operators from the left. -/
namespace Statecraft

/-- A language: which tokens stand for which value. -/
abbrev Phrase (α : Type) := List Token → α → Prop

/-- The tokens do not start with one of the kinds. -/
def Avoids (kinds : List TokenKind) (tokens : List Token) : Prop :=
  ∀ t ∈ tokens.head?, t.kind ∉ kinds

@[simp] theorem avoids_nil (kinds : List TokenKind) : Avoids kinds [] := by
  simp [Avoids]

@[simp] theorem avoids_cons {kinds : List TokenKind} {t : Token} {rest : List Token} :
    Avoids kinds (t :: rest) ↔ t.kind ∉ kinds := by
  simp [Avoids]

theorem Avoids.anti {kinds fewer : List TokenKind} {tokens : List Token}
    (avoids : Avoids kinds tokens) (subset : fewer ⊆ kinds) : Avoids fewer tokens :=
  fun t first member => avoids t first (subset member)

namespace Phrase

variable {α : Type}

/-- Any number of phrases one after the other. -/
inductive Sequence (Form : Phrase α) : Phrase (List α) where
  | nil : Sequence Form [] []
  | cons {front back : List Token} {value : α} {values : List α} (first : Form front value)
      (others : Sequence Form back values) : Sequence Form (front ++ back) (value :: values)

/-- Phrases with a token of the kind between them. One may follow the last. -/
inductive Separated (kind : TokenKind) (Form : Phrase α) : Phrase (List α) where
  | nil : Separated kind Form [] []
  | last {used : List Token} {value : α} (only : Form used value) : Separated kind Form used [value]
  | cons {front back : List Token} {t : Token} {value : α} {values : List α}
      (first : Form front value) (delimiter : t.kind = kind)
      (others : Separated kind Form back values) :
      Separated kind Form (front ++ t :: back) (value :: values)

/-- What may follow a left operand, with the value of both together. -/
inductive Joined (kinds : List TokenKind) (combine : α → Token → α → α) (Operand : Phrase α) :
    α → Phrase α where
  | nil {left : α} : Joined kinds combine Operand left [] left
  | cons {left right value : α} {t : Token} {used more : List Token} (operator : t.kind ∈ kinds)
      (operand : Operand used right)
      (others : Joined kinds combine Operand (combine left t right) more value) :
      Joined kinds combine Operand left (t :: (used ++ more)) value

/-- Operands joined from the left by operators of the kinds. -/
inductive Chain (kinds : List TokenKind) (combine : α → Token → α → α) (Operand : Phrase α) :
    Phrase α where
  | operand {used : List Token} {value : α} (only : Operand used value) :
      Chain kinds combine Operand used value
  | join {front back : List Token} {t : Token} {left right : α}
      (first : Chain kinds combine Operand front left) (operator : t.kind ∈ kinds)
      (last : Operand back right) :
      Chain kinds combine Operand (front ++ t :: back) (combine left t right)

variable {kinds : List TokenKind} {combine : α → Token → α → α} {Operand : Phrase α}

theorem Joined.snoc {left value right : α} {t : Token} {used more : List Token}
    (joined : Joined kinds combine Operand left used value) (operator : t.kind ∈ kinds)
    (operand : Operand more right) :
    Joined kinds combine Operand left (used ++ t :: more) (combine value t right) := by
  induction joined with
  | nil => simpa using Joined.cons operator operand .nil
  | cons operator operand others ih => simpa using Joined.cons operator operand ih

/-- A chain grouped from the left is its first operand with what follows. -/
theorem chain_iff {used : List Token} {value : α} :
    Chain kinds combine Operand used value ↔
      ∃ front left back, used = front ++ back ∧ Operand front left ∧
        Joined kinds combine Operand left back value := by
  constructor
  · intro chain
    induction chain with
    | @operand used value only => exact ⟨used, value, [], by simp, only, .nil⟩
    | join first operator last ih =>
      obtain ⟨front, left, back, rfl, operand, joined⟩ := ih
      exact ⟨front, left, _, by simp, operand, joined.snoc operator last⟩
  · rintro ⟨front, left, back, rfl, operand, joined⟩
    -- the operands read so far stay a chain while the rest is taken over
    have chain : Chain kinds combine Operand front left := .operand operand
    clear operand
    induction joined generalizing front with
    | nil => simpa using chain
    | cons operator operand others ih => simpa using ih _ (chain.join operator operand)

/-- Values that are certainly there can be taken out of their options. -/
theorem sequence_some_iff {Form : Phrase α} {used : List Token} {options : List (Option α)} :
    Sequence (fun front option => ∃ value, option = some value ∧ Form front value) used options ↔
      ∃ values, options = values.map some ∧ Sequence Form used values := by
  constructor
  · intro sequence
    induction sequence with
    | nil => exact ⟨[], rfl, .nil⟩
    | cons first others ih =>
      obtain ⟨value, rfl, first⟩ := first
      obtain ⟨values, rfl, others'⟩ := ih
      exact ⟨value :: values, rfl, .cons first others'⟩
  · rintro ⟨values, rfl, sequence⟩
    induction sequence with
    | nil => exact .nil
    | cons first others ih => exact .cons ⟨_, rfl, first⟩ ih

end Phrase

end Statecraft
