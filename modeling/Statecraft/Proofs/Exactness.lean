import Statecraft.Proofs.GrammarVerdicts
import Statecraft.Proofs.FirstTokens
import Statecraft.Proofs.Literals

/-! Judges that read exactly the phrases of a language. A phrase may end before some tokens and not
before others, since `1` does not end before `+ 2`. Every combinator has one rule, which says what
its judge reads if it is known what those of the parts read. -/
namespace Statecraft
namespace Judge

variable {α β : Type} {bound : Nat} {Ends Ends' : List Token → Prop} {Form Form' : Phrase α}
  {judge other : Judge α} {kinds : List TokenKind}

/-- Fewer tokens than the bound are always decided on. Where a phrase may end, the phrases are read
and, from tokens that scanning can make, nothing else. -/
structure Exact (bound : Nat) (Ends : List Token → Prop) (Form : Phrase α) (judge : Judge α) :
    Prop where
  shrinks : judge.Shrinks
  settled : ∀ {tokens}, tokens.length < bound → judge tokens ≠ .stuck
  reads : ∀ {used after value}, (used ++ after).length < bound → Ends after → Form used value →
    judge (used ++ after) = .reads value after
  only : ∀ {tokens after value}, tokens.length < bound → Ends after → (∀ t ∈ tokens, t.Spelt) →
    judge tokens = .reads value after → ∃ used, tokens = used ++ after ∧ Form used value

namespace Exact

theorem mono {smaller : Nat} (exact : judge.Exact bound Ends Form) (low : smaller ≤ bound) :
    judge.Exact smaller Ends Form where
  shrinks := exact.shrinks
  settled short := exact.settled (Nat.lt_of_lt_of_le short low)
  reads short := exact.reads (Nat.lt_of_lt_of_le short low)
  only short := exact.only (Nat.lt_of_lt_of_le short low)

/-- A phrase may be said to end in fewer places. -/
theorem narrow (exact : judge.Exact bound Ends' Form) (fewer : ∀ {after}, Ends after → Ends' after) :
    judge.Exact bound Ends Form where
  shrinks := exact.shrinks
  settled := exact.settled
  reads short ends := exact.reads short (fewer ends)
  only short ends := exact.only short (fewer ends)

/-- Of the phrases only those count whose tokens scanning can make. -/
theorem congrSpelt (exact : judge.Exact bound Ends Form)
    (fewer : ∀ {used value}, Form' used value → Form used value)
    (spelt : ∀ {used value}, (∀ t ∈ used, t.Spelt) → Form used value → Form' used value) :
    judge.Exact bound Ends Form' where
  shrinks := exact.shrinks
  settled := exact.settled
  reads short ends form := exact.reads short ends (fewer form)
  only := by
    intro tokens after value short ends scanned read
    obtain ⟨used, rfl, form⟩ := exact.only short ends scanned read
    exact ⟨used, rfl, spelt (fun t member => scanned t (List.mem_append_left _ member)) form⟩

theorem congr (exact : judge.Exact bound Ends Form)
    (same : ∀ {used value}, Form used value ↔ Form' used value) : judge.Exact bound Ends Form' :=
  exact.congrSpelt same.mpr fun _ => same.mp

theorem none (shrinks : judge.Shrinks) : judge.Exact 0 Ends Form where
  shrinks := shrinks
  settled short := absurd short (Nat.not_lt_zero _)
  reads short := absurd short (Nat.not_lt_zero _)
  only short := absurd short (Nat.not_lt_zero _)

theorem any (bound : Nat) (Ends : List Token → Prop) (kinds : List TokenKind) :
    (any kinds).Exact bound Ends fun used t => used = [t] ∧ t.kind ∈ kinds where
  shrinks := any_shrinks kinds
  settled := by
    intro tokens short
    cases tokens with
    | nil => simp [Judge.any]
    | cons t rest =>
      simp only [Judge.any]
      split <;> simp
  reads := by
    rintro used after value _ _ ⟨rfl, member⟩
    exact any_eq_reads.mpr ⟨rfl, member⟩
  only := by
    intro tokens after value _ _ _ read
    obtain ⟨rfl, member⟩ := any_eq_reads.mp read
    exact ⟨[value], rfl, rfl, member⟩

theorem succeed (bound : Nat) (Ends : List Token → Prop) (value : α) :
    Exact bound Ends (fun used result => used = [] ∧ result = value) (.reads value) where
  shrinks := List.suffix_refl
  settled _ := by simp
  reads := by
    rintro used after result _ _ ⟨rfl, rfl⟩
    rfl
  only := by
    intro tokens after result _ _ _ read
    obtain ⟨rfl, rfl⟩ := Verdict.reads.inj read
    exact ⟨[], rfl, rfl, rfl⟩

theorem map {f : α → β} (exact : judge.Exact bound Ends Form) :
    Judge.Exact bound Ends (fun used result => ∃ value, result = f value ∧ Form used value)
      fun tokens => (judge tokens).map f where
  shrinks tokens := (exact.shrinks tokens).map f
  settled short := Verdict.andThen_ne_stuck (exact.settled short) fun _ _ _ => by simp
  reads := by
    rintro used after _ short ends ⟨value, rfl, form⟩
    exact Verdict.map_eq_reads.mpr ⟨value, rfl, exact.reads short ends form⟩
  only := by
    intro tokens after result short ends scanned read
    obtain ⟨value, rfl, here⟩ := Verdict.map_eq_reads.mp read
    obtain ⟨used, rfl, form⟩ := exact.only short ends scanned here
    exact ⟨used, rfl, value, rfl, form⟩

/-- One phrase after the other. The first must be able to end where the second starts. -/
theorem bindWithin {smaller : Nat} {next : α → Judge β} {Next : α → Phrase β}
    (first : judge.Exact bound Ends' Form) (later : ∀ a, (next a).Exact smaller Ends (Next a))
    (shorter : ∀ {tokens a middle}, tokens.length < bound → judge tokens = .reads a middle →
      middle.length < smaller)
    (joint : ∀ {a back value after}, Next a back value → Ends after → Ends' (back ++ after)) :
    Judge.Exact bound Ends
      (fun used value => ∃ front a back, used = front ++ back ∧ Form front a ∧ Next a back value)
      fun tokens => (judge tokens).andThen next where
  shrinks tokens := (first.shrinks tokens).andThen fun a => (later a).shrinks
  settled short := Verdict.andThen_ne_stuck (first.settled short) fun a _ read =>
    (later a).settled (shorter short read)
  reads := by
    rintro _ after value short ends ⟨front, a, back, rfl, form, next⟩
    rw [List.append_assoc] at short ⊢
    have here := first.reads short (joint next ends) form
    have there := (later a).reads (shorter short here) ends next
    exact Verdict.andThen_eq_reads.mpr ⟨a, back ++ after, here, there⟩
  only := by
    intro tokens after value short ends scanned read
    obtain ⟨a, middle, here, there⟩ := Verdict.andThen_eq_reads.mp read
    have left := first.shrinks tokens
    rw [here] at left
    have scanned' : ∀ t ∈ middle, t.Spelt := fun t member => scanned t (left.subset member)
    obtain ⟨back, rfl, next⟩ := (later a).only (shorter short here) ends scanned' there
    obtain ⟨front, rfl, form⟩ := first.only short (joint next ends) scanned here
    exact ⟨front ++ back, by simp, front, a, back, rfl, form, next⟩

theorem bind {next : α → Judge β} {Next : α → Phrase β} (first : judge.Exact bound Ends' Form)
    (later : ∀ a, (next a).Exact bound Ends (Next a))
    (joint : ∀ {a back value after}, Next a back value → Ends after → Ends' (back ++ after)) :
    Judge.Exact bound Ends
      (fun used value => ∃ front a back, used = front ++ back ∧ Form front a ∧ Next a back value)
      fun tokens => (judge tokens).andThen next :=
  first.bindWithin later
    (fun short read => Nat.lt_of_le_of_lt (first.shrinks.length_le read) short) joint

/-- After something was read fewer tokens are left. -/
theorem bindConsuming {next : α → Judge β} {Next : α → Phrase β}
    (first : judge.Exact (bound + 1) Ends' Form) (consumes : judge.Consumes)
    (later : ∀ a, (next a).Exact bound Ends (Next a))
    (joint : ∀ {a back value after}, Next a back value → Ends after → Ends' (back ++ after)) :
    Judge.Exact (bound + 1) Ends
      (fun used value => ∃ front a back, used = front ++ back ∧ Form front a ∧ Next a back value)
      fun tokens => (judge tokens).andThen next :=
  first.bindWithin later
    (fun short read => Nat.lt_of_lt_of_le (consumes read) (Nat.le_of_lt_succ short)) joint

theorem afterAny {next : Token → Judge β} {Next : Token → Phrase β}
    (later : ∀ t, (next t).Exact bound Ends (Next t)) :
    Judge.Exact (bound + 1) Ends
      (fun used value => ∃ t back, used = t :: back ∧ t.kind ∈ kinds ∧ Next t back value)
      fun tokens => (Judge.any kinds tokens).andThen next := by
  refine ((any _ (fun _ => True) kinds).bindConsuming (any_consumes kinds) later
    fun _ _ => trivial).congr ?_
  intro used value
  constructor
  · rintro ⟨_, t, back, rfl, ⟨rfl, member⟩, next⟩
    exact ⟨t, back, rfl, member, next⟩
  · rintro ⟨t, back, rfl, member, next⟩
    exact ⟨[t], t, back, rfl, ⟨rfl, member⟩, next⟩

theorem token (bound : Nat) (Ends : List Token → Prop) (kind : TokenKind) :
    (Parser.judgeToken kind).Exact bound Ends fun used t => used = [t] ∧ t.kind = kind := by
  rw [← any_singleton]
  exact (any bound Ends [kind]).congr (by simp)

theorem afterToken {kind : TokenKind} {next : Token → Judge β} {Next : Token → Phrase β}
    (later : ∀ t, (next t).Exact bound Ends (Next t)) :
    Judge.Exact (bound + 1) Ends
      (fun used value => ∃ t back, used = t :: back ∧ t.kind = kind ∧ Next t back value)
      fun tokens => (Parser.judgeToken kind tokens).andThen next := by
  rw [← any_singleton]
  exact (afterAny later).congr (by simp)

theorem recover (exact : judge.Exact bound Ends Form) :
    (Parser.judgeRecover judge).Exact bound Ends Form := by
  have same {tokens after : List Token} {value : α} :
      Parser.judgeRecover judge tokens = .reads value after ↔ judge tokens = .reads value after := by
    simp only [Parser.judgeRecover]
    cases judge tokens with
    | fails => simp
    | reads | reports | stuck => rfl
  refine ⟨Parser.judgeRecover_shrinks exact.shrinks, ?_, ?_, ?_⟩
  · intro tokens short
    have settled := exact.settled short
    simp only [Parser.judgeRecover]
    cases verdict : judge tokens with
    | stuck => exact absurd verdict settled
    | reads | fails | reports => simp
  · exact fun short ends form => same.mpr (exact.reads short ends form)
  · exact fun short ends scanned read => exact.only short ends scanned (same.mp read)

/-- Alternatives that can be told apart by their first token. -/
theorem orElse (first : judge.Exact bound Ends Form) (opens : judge.Opens bound kinds)
    (second : other.Exact bound Ends Form')
    (apart : ∀ {used value after}, Form' used value → Ends after → Avoids kinds (used ++ after)) :
    (Parser.judgeOrElse judge other).Exact bound Ends
      fun used value => Form used value ∨ Form' used value where
  shrinks := Parser.judgeOrElse_shrinks first.shrinks second.shrinks
  settled := by
    intro tokens short
    have settled := first.settled short
    have within := first.shrinks tokens
    simp only [Parser.judgeOrElse]
    cases verdict : judge tokens with
    | stuck => exact absurd verdict settled
    | reads | reports => simp
    | fails rest blamed =>
      rw [verdict] at within
      dsimp only
      split
      · exact second.settled (Nat.lt_of_le_of_lt within.2.length_le short)
      · simp
  reads := by
    intro used after value short ends form
    simp only [Parser.judgeOrElse]
    rcases form with form | form
    · rw [first.reads short ends form]
    · rw [opens short (apart form ends)]
      simpa using second.reads short ends form
  only := by
    intro tokens after value short ends scanned read
    simp only [Parser.judgeOrElse] at read
    cases verdict : judge tokens with
    | reads =>
      rw [verdict] at read
      obtain ⟨used, rfl, form⟩ := first.only short ends scanned (verdict.trans read)
      exact ⟨used, rfl, .inl form⟩
    | fails rest blamed =>
      have within := first.shrinks tokens
      rw [verdict] at within read
      dsimp only at read
      split at read
      · rename_i same
        subst same
        obtain rfl := Parser.rest_of_blamed within
        obtain ⟨used, rfl, form⟩ := second.only short ends scanned read
        exact ⟨used, rfl, .inr form⟩
      · contradiction
    | reports | stuck =>
      rw [verdict] at read
      contradiction

end Exact
end Judge

/-- A parser that reads exactly the phrases reports nothing about a source if and only
if the whole source is one, and returns its value. -/
theorem Grammar.parse_exact {Rule : Type → Type} {α : Type} {grammar : Grammar Rule}
    {source : String} (clean : ∀ x ∈ Lexeme.scan source, x.stray? = none) {fuel : Nat}
    {p : Parser Rule α} {Ends : List Token → Prop} {Form : Phrase α}
    (exact : (grammar.judge fuel p).Exact fuel Ends Form)
    (enough : (significantTokens source).length < fuel) (ends : Ends []) :
    ((grammar.parse fuel p (Lexeme.scan source)).reports = [] ↔
        ∃ value, Form (significantTokens source) value) ∧
      ∀ value, Form (significantTokens source) value →
        grammar.parse fuel p (Lexeme.scan source) = ⟨some value, []⟩ := by
  obtain ⟨silent, read⟩ := grammar.parse_judged clean (exact.settled enough)
  have reads {value : α} (form : Form (significantTokens source) value) :
      grammar.judge fuel p (significantTokens source) = .reads value [] := by
    rw [← List.append_nil (significantTokens source)] at enough ⊢
    exact exact.reads enough ends form
  refine ⟨⟨fun none => ?_, ?_⟩, fun value form => read value (reads form)⟩
  · obtain ⟨value, read⟩ := silent none
    obtain ⟨used, whole, form⟩ := exact.only enough ends (significantTokens_spelt source) read
    rw [List.append_nil] at whole
    exact ⟨value, whole ▸ form⟩
  · rintro ⟨value, form⟩
    rw [read value (reads form)]

end Statecraft
