import Statecraft.Proofs.Exactness

/-! Loops over a judge that reads exactly the phrases of a language: operands joined by operators,
repetitions to the end or to a token, and lists with delimiters. -/
namespace Statecraft
namespace Judge

variable {α β : Type} {bound : Nat} {Ends Ends' : List Token → Prop} {Form : Phrase α}
  {judge : Judge α} {kinds : List TokenKind}

namespace Exact

open Phrase (Sequence Separated Joined Chain)

variable {combine : α → Token → α → α} {fuel : Nat}

/-- Operands may follow as long as operators do. -/
theorem joined (operand : judge.Exact bound Ends' Form)
    (apart : ∀ {after}, Ends after → Avoids kinds after ∧ Ends' after)
    (before : ∀ {t rest}, t.kind ∈ kinds → Ends' (t :: rest)) (enough : bound ≤ fuel) (left : α) :
    (Parser.judgeChain judge (Judge.any kinds) combine fuel left).Exact bound Ends
      (Joined kinds combine Form left) := by
  have shrinks (fuel : Nat) (left : α) :
      (Parser.judgeChain judge (Judge.any kinds) combine fuel left).Shrinks :=
    Parser.judgeChain_shrinks operand.shrinks (any_shrinks kinds) fuel left
  induction fuel generalizing bound left with
  | zero =>
    obtain rfl := Nat.le_zero.mp enough
    exact none (shrinks 0 left)
  | succ fuel ih =>
    cases bound with
    | zero => exact none (shrinks (fuel + 1) left)
    | succ bound =>
      have later (t : Token) := (operand.mono (Nat.le_succ bound)).bind
        (fun right => ih (operand.mono (Nat.le_succ bound)) (Nat.le_of_succ_le_succ enough)
          (combine left t right)) (by
          intro right back value after joined ends
          cases joined with
          | nil => exact (apart ends).2
          | cons operator => exact before operator)
      have chosen := (afterAny later).orElse (any_opens _ kinds).bind (succeed (bound + 1) Ends left) (by
        rintro used value after ⟨rfl, -⟩ ends
        exact (apart ends).1)
      have same : Parser.judgeChain judge (Judge.any kinds) combine (fuel + 1) left =
          Parser.judgeOrElse (fun tokens => (Judge.any kinds tokens).andThen fun t rest =>
            (judge rest).andThen fun right =>
              Parser.judgeChain judge (Judge.any kinds) combine fuel (combine left t right))
            (.reads left) := by
        funext tokens
        rw [orElse_any fun t => (later t).shrinks]
        cases tokens with
        | nil => rfl
        | cons t rest => by_cases member : t.kind ∈ kinds <;>
            simp [Parser.judgeChain, Judge.any, member, Verdict.andThen]
      rw [same]
      refine chosen.congr ?_
      intro used value
      constructor
      · rintro (⟨t, _, rfl, operator, front, right, back, rfl, operand, joined⟩ | ⟨rfl, rfl⟩)
        · exact .cons operator operand joined
        · exact .nil
      · intro joined
        cases joined with
        | nil => exact .inr ⟨rfl, rfl⟩
        | cons operator operand joined =>
          exact .inl ⟨_, _, rfl, operator, _, _, _, rfl, operand, joined⟩

theorem chain (operand : judge.Exact bound Ends' Form)
    (apart : ∀ {after}, Ends after → Avoids kinds after ∧ Ends' after)
    (before : ∀ {t rest}, t.kind ∈ kinds → Ends' (t :: rest)) (enough : bound ≤ fuel) :
    Judge.Exact bound Ends (Chain kinds combine Form) fun tokens =>
      (judge tokens).andThen (Parser.judgeChain judge (Judge.any kinds) combine fuel) := by
  refine (operand.bind (operand.joined apart before enough) ?_).congr Phrase.chain_iff.symm
  intro left back value after joined ends
  cases joined with
  | nil => exact (apart ends).2
  | cons operator => exact before operator

/-- A phrase before others of its kind. -/
theorem again {loop : Judge (List α)} {Rest : Phrase (List α)}
    (body : judge.Exact (bound + 1) Ends' Form) (consumes : judge.Consumes)
    (loops : loop.Exact bound Ends Rest)
    (joint : ∀ {back values after}, Rest back values → Ends after → Ends' (back ++ after)) :
    Judge.Exact (bound + 1) Ends
      (fun used values => ∃ front value back others, used = front ++ back ∧ values = value :: others ∧
        Form front value ∧ Rest back others)
      fun tokens => (judge tokens).andThen fun value rest => (loop rest).map (value :: ·) := by
  refine (body.bindConsuming consumes (fun value => loops.map) ?_).congr ?_
  · rintro value back _ after ⟨values, rfl, others⟩ ends
    exact joint others ends
  · intro used values
    constructor
    · rintro ⟨front, value, back, rfl, form, others, rfl, rest⟩
      exact ⟨front, value, back, others, rfl, rfl, form, rest⟩
    · rintro ⟨front, value, back, others, rfl, rfl, form, rest⟩
      exact ⟨front, value, back, rfl, form, others, rfl, rest⟩

/-- A loop that may be repeated as often as there are tokens is known from its steps. -/
theorem ofSteps {loop : Nat → Judge β} {Rest : Phrase β} (shrinks : ∀ fuel, (loop fuel).Shrinks)
    (step : ∀ {fuel smaller}, smaller < bound → (loop fuel).Exact smaller Ends Rest →
      (loop (fuel + 1)).Exact (smaller + 1) Ends Rest) (enough : bound ≤ fuel) :
    (loop fuel).Exact bound Ends Rest := by
  induction fuel generalizing bound with
  | zero =>
    obtain rfl := Nat.le_zero.mp enough
    exact none (shrinks 0)
  | succ fuel ih =>
    cases bound with
    | zero => exact none (shrinks (fuel + 1))
    | succ bound =>
      refine step (Nat.lt_succ_self bound) (ih ?_ (Nat.le_of_succ_le_succ enough))
      exact fun low => step (Nat.lt_succ_of_lt low)

/-- A loop makes a step or stops at once. -/
theorem orEmpty {step loop : Judge (List α)} {Step : Phrase (List α)}
    (exact : step.Exact bound Ends Step) (shrinks : loop.Shrinks)
    (either : ∀ tokens, loop tokens = step tokens ∨ loop tokens ≠ .stuck ∧
      ∀ values after, Ends after → loop tokens = .reads values after → values = [] ∧ after = tokens)
    (whole : ∀ {used values after}, Step used values → step (used ++ after) = .reads values after →
      loop (used ++ after) = .reads values after)
    (empty : ∀ {after}, Ends after → loop after = .reads [] after) :
    loop.Exact bound Ends fun used values => Step used values ∨ used = [] ∧ values = [] where
  shrinks := shrinks
  settled := by
    intro tokens short
    rcases either tokens with same | ⟨settled, -⟩
    · rw [same]
      exact exact.settled short
    · exact settled
  reads := by
    rintro used after values short ends (form | ⟨rfl, rfl⟩)
    · exact whole form (exact.reads short ends form)
    · exact empty ends
  only := by
    intro tokens after values short ends scanned read
    rcases either tokens with same | ⟨-, stops⟩
    · obtain ⟨used, rfl, form⟩ := exact.only short ends scanned (same.symm.trans read)
      exact ⟨used, rfl, .inl form⟩
    · obtain ⟨rfl, rfl⟩ := stops _ _ ends read
      exact ⟨[], rfl, .inr ⟨rfl, rfl⟩⟩

theorem sequence_iff {used : List Token} {values : List α} :
    ((∃ front value back others, used = front ++ back ∧ values = value :: others ∧
        Form front value ∧ Sequence Form back others) ∨ used = [] ∧ values = []) ↔
      Sequence Form used values := by
  constructor
  · rintro (⟨front, value, back, others, rfl, rfl, form, rest⟩ | ⟨rfl, rfl⟩)
    · exact .cons form rest
    · exact .nil
  · intro sequence
    cases sequence with
    | nil => exact .inr ⟨rfl, rfl⟩
    | cons form rest => exact .inl ⟨_, _, _, _, rfl, rfl, form, rest⟩

/-- A repetition goes one round further, unless nothing is left or the next round does not match. -/
theorem judgeMany_step (shrinks : judge.Shrinks) (fuel : Nat) (tokens : List Token) :
    Parser.judgeMany judge (fuel + 1) tokens = (judge tokens).andThen (fun value rest =>
        (Parser.judgeMany judge fuel rest).map (value :: ·)) ∨
      Parser.judgeMany judge (fuel + 1) tokens = .reads [] tokens ∧
        (tokens = [] ∨ judge tokens = .fails tokens tokens) := by
  cases tokens with
  | nil => exact .inr ⟨rfl, .inl rfl⟩
  | cons t more =>
    have within := shrinks (t :: more)
    simp only [Parser.judgeMany]
    cases verdict : judge (t :: more) with
    | fails rest blamed =>
      rw [verdict] at within
      dsimp only
      split
      · rename_i same
        subst same
        obtain rfl := Parser.rest_of_blamed within
        exact .inr ⟨rfl, .inr rfl⟩
      · exact .inl rfl
    | reads | reports | stuck => exact .inl rfl

/-- Phrases are repeated until none is there or the tokens are over. -/
theorem many (body : judge.Exact bound Ends' Form) (consumes : judge.Consumes)
    (stops : ∀ {after}, Ends after →
      Ends' after ∧ (after = [] ∨ judge after = .fails after after))
    (joint : ∀ {used value rest}, Form used value → Ends' (used ++ rest)) (enough : bound ≤ fuel) :
    (Parser.judgeMany judge fuel).Exact bound Ends (Sequence Form) := by
  refine ofSteps (Parser.judgeMany_shrinks body.shrinks) ?_ enough
  intro fuel smaller low loop
  have step := (body.mono low).again consumes loop (by
    intro back values after sequence ends
    cases sequence with
    | nil => exact (stops ends).1
    | cons first others =>
      rw [List.append_assoc]
      exact joint first)
  have either := judgeMany_step body.shrinks fuel
  refine (step.orEmpty (Parser.judgeMany_shrinks body.shrinks _) ?_ ?_ ?_).congr sequence_iff
  · refine fun tokens => (either tokens).imp_right ?_
    rintro ⟨stopped, -⟩
    simp [stopped, eq_comm]
  · intro used values after form read
    obtain ⟨value, middle, first, -⟩ := Verdict.andThen_eq_reads.mp read
    rcases either (used ++ after) with same | ⟨-, ended | refused⟩
    · exact same.trans read
    · have shorter := consumes first
      simp [ended] at shorter
    · exact nomatch first.symm.trans refused
  · intro after ends
    cases after with
    | nil => rfl
    | cons t more =>
      rcases (stops ends).2 with none | refused
      · contradiction
      · simp [Parser.judgeMany, refused]

/-- Phrases are repeated until a token of the kind is before them. -/
theorem manyUntil {kind : TokenKind} (body : judge.Exact bound Ends' Form)
    (consumes : judge.Consumes) (ends : ∀ {t rest}, t.kind = kind → Ends' (t :: rest))
    (joint : ∀ {used value rest}, Form used value →
      Avoids [kind] (used ++ rest) ∧ Ends' (used ++ rest)) (enough : bound ≤ fuel) :
    (Parser.judgeManyUntil judge (Parser.judgeLookahead (Parser.judgeToken kind)) fuel).Exact bound
      (fun after => ∃ t rest, after = t :: rest ∧ t.kind = kind) (Sequence Form) := by
  have shrinks := Parser.judgeManyUntil_shrinks body.shrinks
    (Parser.judgeLookahead_shrinks (Parser.judgeToken kind))
  refine ofSteps shrinks ?_ enough
  intro fuel smaller low loop
  have step := (body.mono low).again consumes loop (by
    rintro back values _ sequence ⟨t, rest, rfl, found⟩
    cases sequence with
    | nil => exact ends found
    | cons first others =>
      rw [List.append_assoc]
      exact (joint first).2)
  have unfolded (t : Token) (more : List Token) :
      Parser.judgeManyUntil judge (Parser.judgeLookahead (Parser.judgeToken kind)) (fuel + 1)
          (t :: more) =
        if t.kind = kind then .reads [] (t :: more)
        else (judge (t :: more)).andThen fun value rest => (Parser.judgeManyUntil judge
          (Parser.judgeLookahead (Parser.judgeToken kind)) fuel rest).map (value :: ·) := by
    by_cases found : t.kind = kind <;>
      simp [Parser.judgeManyUntil, Parser.judgeLookahead, Parser.judgeToken, found]
  refine (step.orEmpty (shrinks _) ?_ ?_ ?_).congr sequence_iff
  · intro tokens
    cases tokens with
    | nil =>
      exact .inr (by simp [Parser.judgeManyUntil, Parser.judgeLookahead, Parser.judgeToken])
    | cons t more =>
      rw [unfolded]
      split
      · exact .inr (by simp [eq_comm])
      · exact .inl rfl
  · rintro used values after ⟨front, value, back, others, rfl, -, form, -⟩ read
    have avoids : Avoids [kind] (front ++ (back ++ after)) := (joint form).1
    rw [← List.append_assoc] at avoids
    generalize front ++ back ++ after = tokens at read avoids ⊢
    cases tokens with
    | nil =>
      obtain ⟨value, middle, first, -⟩ := Verdict.andThen_eq_reads.mp read
      exact absurd (consumes first) (Nat.not_lt_zero _)
    | cons t more => rwa [unfolded, if_neg (by simpa using avoids)]
  · rintro _ ⟨t, rest, rfl, found⟩
    rw [unfolded, if_pos found]

/-- A list with delimiters goes on with a phrase, behind which a delimiter leads to the next one. It
ends where no phrase starts, or where the tokens are over. -/
theorem judgeSeparated_step (shrinks : judge.Shrinks) (kind : TokenKind) (fuel : Nat)
    (tokens : List Token) :
    Parser.judgeSeparated judge (Parser.judgeToken kind) (fuel + 1) tokens =
        (judge tokens).andThen (fun value =>
          Parser.judgeOrElse (fun tokens => (Judge.any [kind] tokens).andThen fun _ rest =>
            (Parser.judgeSeparated judge (Parser.judgeToken kind) fuel rest).map (value :: ·))
            (.reads [value])) ∨
      ∃ rest, Parser.judgeSeparated judge (Parser.judgeToken kind) (fuel + 1) tokens =
          .reads [] rest ∧ (rest = tokens ∨ rest = []) ∧ ∃ blamed, judge tokens = .fails rest blamed := by
  have later := Parser.judgeSeparated_shrinks shrinks (Parser.judgeToken_shrinks kind) fuel
  cases verdict : judge tokens with
  | reads value next =>
    refine .inl (Eq.trans ?_ (orElse_any (fun _ rest => (later rest).map _) _ next).symm)
    simp only [Parser.judgeSeparated, verdict, Verdict.andThen]
    cases next with
    | nil => rfl
    | cons t rest => by_cases found : t.kind = kind <;> simp [Parser.judgeToken, found]
  | fails rest blamed =>
    have within := shrinks tokens
    rw [verdict] at within
    simp only [Parser.judgeSeparated, verdict]
    split
    · rename_i ended
      refine .inr ⟨rest, rfl, ended.imp_left ?_, blamed, rfl⟩
      rintro rfl
      exact Parser.rest_of_blamed within
    · exact .inl rfl
  | reports | stuck => simp [Parser.judgeSeparated, verdict, Verdict.andThen]

/-- Phrases with delimiters between them are read to a token that starts neither. -/
theorem separated {kind : TokenKind} (body : judge.Exact bound Ends' Form)
    (before : ∀ {t rest}, t.kind = kind → Ends' (t :: rest))
    (stops : ∀ {after}, Ends after →
      after ≠ [] ∧ Avoids [kind] after ∧ Ends' after ∧ judge after = .fails after after)
    (enough : bound ≤ fuel) :
    (Parser.judgeSeparated judge (Parser.judgeToken kind) fuel).Exact bound Ends
      (Separated kind Form) := by
  have shrinks := Parser.judgeSeparated_shrinks body.shrinks (Parser.judgeToken_shrinks kind)
  refine ofSteps shrinks ?_ enough
  intro fuel smaller low loop
  have further (value : α) : Judge.Exact (smaller + 1) Ends _ fun tokens =>
      (Judge.any [kind] tokens).andThen fun _ rest =>
        (Parser.judgeSeparated judge (Parser.judgeToken kind) fuel rest).map (value :: ·) :=
    afterAny fun _ => loop.map
  have tail (value : α) := (further value).orElse (any_opens _ [kind]).bind
    (succeed (smaller + 1) Ends [value]) (by
      rintro used values after ⟨rfl, -⟩ ends
      exact (stops ends).2.1)
  have step := (body.mono low).bind tail (by
    rintro value back values after (⟨t, more, rfl, found, -⟩ | ⟨rfl, -⟩) ends
    · exact before (List.mem_singleton.mp found)
    · exact (stops ends).2.2.1)
  have either := judgeSeparated_step body.shrinks kind fuel
  refine (step.orEmpty (shrinks _) ?_ ?_ ?_).congr ?_
  · refine fun tokens => (either tokens).imp_right ?_
    rintro ⟨rest, stopped, place, -⟩
    refine ⟨by simp [stopped], fun values after ends read => ?_⟩
    obtain ⟨rfl, rfl⟩ := Verdict.reads.inj (stopped.symm.trans read)
    exact ⟨rfl, place.resolve_right (stops ends).1⟩
  · intro used values after form read
    obtain ⟨value, middle, first, -⟩ := Verdict.andThen_eq_reads.mp read
    rcases either (used ++ after) with same | ⟨rest, -, -, blamed, refused⟩
    · exact same.trans read
    · exact nomatch first.symm.trans refused
  · intro after ends
    simp [Parser.judgeSeparated, (stops ends).2.2.2]
  · intro used values
    constructor
    · rintro (⟨front, value, back, rfl, form, further | ⟨rfl, rfl⟩⟩ | ⟨rfl, rfl⟩)
      · obtain ⟨t, more, rfl, found, others, rfl, rest⟩ := further
        exact .cons form (List.mem_singleton.mp found) rest
      · simpa using Separated.last form
      · exact .nil
    · intro separated
      cases separated with
      | nil => exact .inr ⟨rfl, rfl⟩
      | last only => exact .inl ⟨_, _, [], by simp, only, .inr ⟨rfl, rfl⟩⟩
      | cons first found others =>
        exact .inl ⟨_, _, _, rfl, first,
          .inl ⟨_, _, rfl, List.mem_singleton.mpr found, _, rfl, others⟩⟩

end Exact
end Judge
end Statecraft
