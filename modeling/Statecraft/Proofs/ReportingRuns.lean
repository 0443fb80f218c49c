import Statecraft.Proofs.GrammarVerdicts

/-! Runs that record something on their way. No parser looks at what has been reported, so a
parser that reads a phrase without a report does so after any reports. A passage is a run over
some tokens with its value and with what it records; passages are put together as parsers are,
and one of them may begin where a token is refused. -/
namespace Statecraft

/-- The context with these reports before its own. -/
def Context.behind (old : List Report) (ctx : Context) : Context :=
  { ctx with reports := old ++ ctx.reports }

/-- What was reported before makes no difference to the runner. -/
def Heedless {α : Type} (run : Runner α) : Prop :=
  ∀ old ctx, run (ctx.behind old) = ((run ctx).1, (run ctx).2.behind old)

namespace Context

variable (old : List Report) (ctx : Context)

@[simp] theorem behind_reader : (ctx.behind old).reader = ctx.reader := rfl

theorem behind_record (r : Report) : (ctx.behind old).record r = (ctx.record r).behind old := by
  simp [behind, record]

theorem behind_advance? : (ctx.behind old).advance? = ctx.advance?.map (behind old) := by
  simp only [advance?, behind_reader]
  cases ctx.reader.advance? with
  | none => rfl
  | some moved => simp [take, behind]

end Context

namespace Parser

variable {Rule : Type → Type} {α β : Type} {run second : Runner α}

theorem ite_behind {c : Prop} [Decidable c] {old : List Report} {a b a' b' : Outcome α × Context}
    (here : a' = (a.1, a.2.behind old)) (there : b' = (b.1, b.2.behind old)) :
    (if c then a' else b') = ((if c then a else b).1, (if c then a else b).2.behind old) := by
  split
  · exact here
  · exact there

theorem runToken_heedless (kind : TokenKind) : Heedless (runToken kind) := by
  intro old ctx
  simp only [runToken, Context.behind_reader, Context.behind_advance?]
  cases ctx.reader.current? with
  | none => rfl
  | some t =>
    dsimp only
    split
    · cases ctx.advance? <;> rfl
    · rfl

theorem runFinish_heedless : Heedless runFinish := by
  intro old ctx
  simp only [runFinish, Context.behind_reader]
  cases ctx.reader.current? <;> rfl

theorem runOrElse_heedless (here : Heedless run) (there : Heedless second) :
    Heedless (runOrElse run second) := by
  intro old ctx
  simp only [runOrElse, here old ctx, Context.behind_reader]
  rcases run ctx with ⟨value | r | cause, after⟩
  · rfl
  · refine ite_behind rfl ?_
    rw [there old after]
    rcases second after with ⟨value | r' | cause, last⟩ <;> rfl
  · rfl

theorem runSkipUntil_heedless (body : Heedless run) (fuel : Nat) :
    Heedless (runSkipUntil run fuel) := by
  induction fuel with
  | zero => exact fun _ _ => rfl
  | succ fuel ih =>
    intro old ctx
    simp only [runSkipUntil, body old ctx]
    rcases run ctx with ⟨value | r | cause, after⟩
    · rfl
    · dsimp only
      rw [Context.behind_advance?]
      cases after.advance? with
      | none => rfl
      | some next => exact ih old next
    · rfl

theorem prepend_behind (value : α) (rest : Outcome (List α) × Context) (old : List Report) :
    prepend value (rest.1, rest.2.behind old) =
      ((prepend value rest).1, (prepend value rest).2.behind old) := rfl

theorem runMany_heedless (body : Heedless run) (fuel : Nat) : Heedless (runMany run fuel) := by
  induction fuel with
  | zero => exact fun _ _ => rfl
  | succ fuel ih =>
    intro old ctx
    simp only [runMany, body old ctx, Context.behind_reader]
    refine ite_behind rfl ?_
    rcases run ctx with ⟨value | r | cause, after⟩
    · dsimp only
      rw [ih old after, prepend_behind]
    · exact ite_behind rfl rfl
    · rfl

theorem runManyUntil_heedless {stop : Runner β} (body : Heedless run) (stops : Heedless stop)
    (fuel : Nat) : Heedless (runManyUntil run stop fuel) := by
  induction fuel with
  | zero => exact fun _ _ => rfl
  | succ fuel ih =>
    intro old ctx
    simp only [runManyUntil, stops old ctx, Context.behind_reader]
    rcases stop ctx with ⟨value | r | cause, after⟩
    · rfl
    · simp only [Context.behind_reader, body old after]
      refine ite_behind rfl ?_
      rcases run after with ⟨value | r' | cause, last⟩
      · dsimp only
        rw [ih old last, prepend_behind]
      · rfl
      · rfl
    · rfl

theorem runSeparated_heedless {delimiter : Runner β} (body : Heedless run)
    (between : Heedless delimiter) (fuel : Nat) : Heedless (runSeparated run delimiter fuel) := by
  induction fuel with
  | zero => exact fun _ _ => rfl
  | succ fuel ih =>
    intro old ctx
    simp only [runSeparated, body old ctx, Context.behind_reader]
    rcases run ctx with ⟨value | r | cause, after⟩
    · simp only [Context.behind_reader, between old after]
      rcases delimiter after with ⟨value | r' | cause, last⟩
      · dsimp only
        rw [ih old last, prepend_behind]
      · exact ite_behind rfl rfl
      · rfl
    · exact ite_behind rfl rfl
    · rfl

theorem runChain_heedless {operator : Runner β} {combine : α → β → α → α} (term : Heedless run)
    (between : Heedless operator) (fuel : Nat) (left : α) :
    Heedless (runChain run operator combine fuel left) := by
  induction fuel generalizing left with
  | zero => exact fun _ _ => rfl
  | succ fuel ih =>
    intro old ctx
    simp only [runChain, between old ctx, Context.behind_reader]
    rcases operator ctx with ⟨op | r | cause, after⟩
    · simp only [term old after]
      rcases run after with ⟨right | r' | cause, last⟩
      · exact ih _ old last
      · rfl
      · rfl
    · exact ite_behind rfl rfl
    · rfl

theorem marked_heedless {finish : Bookmark → Outcome α → Runner α} (body : Heedless run)
    (finishes : ∀ mark outcome, Heedless (finish mark outcome)) : Heedless (marked run finish) := by
  intro old ctx
  have same := body old { ctx with reader := ctx.reader.bookmark.2 }
  simp only [marked, Context.behind_reader]
  rw [show ({ ctx.behind old with reader := ctx.reader.bookmark.2 } : Context) =
    Context.behind old { ctx with reader := ctx.reader.bookmark.2 } from rfl, same]
  simp only [finishes _ _ old]
  rfl

theorem rewind_heedless {mark : Bookmark} {next : Runner α} (heedless : Heedless next) :
    Heedless fun ctx => ctx.rewind mark next := by
  intro old ctx
  simp only [Context.rewind, Context.behind_reader]
  cases ctx.reader.backtrack mark with
  | ok reader => exact heedless old { ctx with reader }
  | error e => rfl

/-- No parser looks at what was reported, if no rule does. -/
theorem runWith_heedless {rules : ∀ {γ : Type}, Rule γ → Runner γ}
    (called : ∀ {γ : Type} (rule : Rule γ), Heedless (rules rule)) (loops : Nat)
    (p : Parser Rule α) : Heedless (p.runWith rules loops) := by
  induction p with
  | token kind => exact runToken_heedless kind
  | succeed | fail => exact fun _ _ => rfl
  | finish => exact runFinish_heedless
  | bind first next ihf ihn =>
    intro old ctx
    simp only [runWith, ihf old ctx]
    rcases first.runWith rules loops ctx with ⟨value | r | cause, after⟩
    · exact ihn value old after
    · rfl
    · rfl
  | orElse first second ihf ihs => exact runOrElse_heedless ihf ihs
  | withKind body kind ih =>
    intro old ctx
    simp only [runWith, ih old ctx]
    rcases body.runWith rules loops ctx with ⟨value | r | cause, after⟩ <;> rfl
  | recover body fallback ihb ihf =>
    intro old ctx
    simp only [runWith, ihb old ctx]
    rcases body.runWith rules loops ctx with ⟨value | r | cause, after⟩
    · rfl
    · -- The report is added at the end, so the older ones stay in front of it.
      dsimp only
      rw [Context.behind_record]
      exact ihf old (after.record r)
    · rfl
  | attempt body ih =>
    refine marked_heedless ih fun mark outcome => ?_
    cases outcome with
    | failed r => exact rewind_heedless fun _ _ => rfl
    | ok | stuck => exact fun _ _ => rfl
  | lookahead body ih =>
    refine marked_heedless ih fun mark outcome => rewind_heedless ?_
    cases outcome <;> exact fun _ _ => rfl
  | skipUntil body ih => exact runSkipUntil_heedless ih loops
  | many body ih => exact runMany_heedless ih loops
  | manyUntil body stop ihb ihs => exact runManyUntil_heedless ihb ihs loops
  | separated body delimiter ihb ihd => exact runSeparated_heedless ihb ihd loops
  | chain term operator combine iht iho =>
    intro old ctx
    simp only [runWith, iht old ctx]
    rcases term.runWith rules loops ctx with ⟨value | r | cause, after⟩
    · exact runChain_heedless iht iho loops value old after
    · rfl
    · rfl
  | call rule => exact called rule

end Parser

theorem Grammar.runRule_heedless {Rule : Type → Type} (grammar : Grammar Rule) (loops depth : Nat)
    {α : Type} (rule : Rule α) : Heedless (grammar.runRule loops depth rule) := by
  induction depth generalizing α with
  | zero => exact fun _ _ => rfl
  | succ depth ih => exact Parser.runWith_heedless ih loops (grammar rule)

/-- From one context to another the reader came before the rest, and these reports were added. -/
structure Context.Moved (tape : Tape) (ctx after : Context) (rest : List Token)
    (new : List Report) : Prop where
  reader : after.reader.Stands tape rest
  marks : after.reader.marks = ctx.reader.marks
  reports : after.reports = ctx.reports ++ new

/-- Before the tokens the run yields the value, leaves the rest and records something. -/
def Passes {α : Type} (tape : Tape) (run : Runner α) (start : List Token) (value : α)
    (rest : List Token) (new : List Report) : Prop :=
  ∀ ⦃ctx : Context⦄, ctx.reader.Stands tape start →
    ∃ after, run ctx = (.ok value, after) ∧ ctx.Moved tape after rest new

/-- The loop passes over the tokens if it may repeat more often than there are tokens. -/
def Repeats {α : Type} (tape : Tape) (loop : Nat → Runner α) (start : List Token) (value : α)
    (rest : List Token) (new : List Report) : Prop :=
  ∀ ⦃fuel : Nat⦄, start.length < fuel → Passes tape (loop fuel) start value rest new

/-- Before the tokens the run fails and blames the first of them. -/
def Refuses {α : Type} (tape : Tape) (run : Runner α) (start : List Token) : Prop :=
  ∀ ⦃ctx : Context⦄, ctx.reader.Stands tape start →
    ∃ r after, run ctx = (.failed r, after) ∧ r.location = ctx.reader.location ∧
      ctx.Moved tape after start []

/-- The report on a token of which only other kinds are accepted. -/
def Report.refusal (expected : List TokenKind) (t : Token) : Report :=
  { kind := .unexpectedToken, selection := t.span, expected, unexpected := some t.kind }

/-- Before a token of another kind the run fails and says which kinds are accepted. -/
def Awaits {α : Type} (tape : Tape) (run : Runner α) (kinds : List TokenKind) : Prop :=
  ∀ ⦃ctx : Context⦄ ⦃t : Token⦄ ⦃rest : List Token⦄, t.kind ∉ kinds →
    ctx.reader.Stands tape (t :: rest) →
      ∃ after, run ctx = (.failed (.refusal kinds t), after) ∧ ctx.Moved tape after (t :: rest) []

variable {tape : Tape} {α β : Type} {run second : Runner α} {kinds others : List TokenKind}
  {start middle rest : List Token} {value : α} {new more : List Report} {t : Token}

theorem Context.Moved.refl {ctx : Context} (stands : ctx.reader.Stands tape start) :
    ctx.Moved tape ctx start [] :=
  ⟨stands, rfl, by simp⟩

theorem Context.Moved.trans {a b c : Context} (first : a.Moved tape b middle new)
    (second : b.Moved tape c rest more) : a.Moved tape c rest (new ++ more) :=
  ⟨second.reader, second.marks.trans first.marks, by
    rw [second.reports, first.reports, List.append_assoc]⟩

theorem Report.mostRelevant_refusal (expected more : List TokenKind) (t : Token) :
    (refusal expected t).mostRelevant (refusal more t) = refusal (expected ++ more) t := by
  simp [mostRelevant, prefer, refusal, merge, severity]

theorem Awaits.refuses (awaits : Awaits tape run kinds) (other : t.kind ∉ kinds) :
    Refuses tape run (t :: rest) := by
  intro ctx stands
  obtain ⟨after, failed, moved⟩ := awaits other stands
  exact ⟨_, after, failed, stands.location.symm, moved⟩

section Verdicts

variable {judge : Judge α} (follows : Follows tape run judge) (heedless : Heedless run)
include follows heedless

/-- A run in any context goes as the verdict says for one without reports. -/
theorem meets_behind {ctx : Context} (stands : ctx.reader.Stands tape start) :
    Meets tape ctx.reader.marks (judge start) (run ⟨ctx.reader, []⟩) ∧
      run ctx = ((run ⟨ctx.reader, []⟩).1, (run ⟨ctx.reader, []⟩).2.behind ctx.reports) := by
  refine ⟨follows.meets ⟨stands, rfl, rfl⟩, ?_⟩
  have framed := heedless ctx.reports ⟨ctx.reader, []⟩
  simpa only [Context.behind, List.append_nil] using framed

theorem passes_of_reads (reads : judge start = .reads value rest) :
    Passes tape run start value rest [] := by
  intro ctx stands
  obtain ⟨meets, framed⟩ := meets_behind follows heedless stands
  rw [reads] at meets
  generalize run ⟨ctx.reader, []⟩ = result at meets framed
  cases meets with
  | @reads _ _ after there =>
    refine ⟨after.behind ctx.reports, framed, there.reader, there.marks, ?_⟩
    simp [Context.behind, there.silent]

theorem refuses_of_fails (fails : judge start = .fails start start) :
    Refuses tape run start := by
  intro ctx stands
  obtain ⟨meets, framed⟩ := meets_behind follows heedless stands
  rw [fails] at meets
  generalize run ⟨ctx.reader, []⟩ = result at meets framed
  cases meets with
  | @fails _ _ r after located there =>
    refine ⟨r, after.behind ctx.reports, framed, located.trans stands.location.symm, there.reader,
      there.marks, ?_⟩
    simp [Context.behind, there.silent]

end Verdicts

namespace Parser

variable {Rule : Type → Type} {rules : ∀ {γ : Type}, Rule γ → Runner γ} {loops : Nat}
  {p q : Parser Rule α} {fuel : Nat} {values : List α} {used : List Token}

theorem token_awaits (kind : TokenKind) :
    Awaits tape ((token kind : Parser Rule Token).runWith rules loops) [kind] := by
  intro ctx t rest other stands
  have current := stands.current?
  simp only [List.head?_cons] at current
  have apart : t.kind ≠ kind := by simpa using other
  refine ⟨ctx, ?_, .refl stands⟩
  simp only [runWith, runToken, current, if_neg apart]
  rfl

theorem bind_awaits {next : α → Parser Rule β} (first : Awaits tape (p.runWith rules loops) kinds) :
    Awaits tape ((p.bind next).runWith rules loops) kinds := by
  intro ctx t rest other stands
  obtain ⟨after, failed, moved⟩ := first other stands
  exact ⟨after, by simp only [runWith, failed], moved⟩

theorem orElse_awaits (here : Awaits tape (p.runWith rules loops) kinds)
    (there : Awaits tape (q.runWith rules loops) others) :
    Awaits tape ((p.orElse q).runWith rules loops) (kinds ++ others) := by
  intro ctx t rest other stands
  have apart : t.kind ∉ kinds := fun member => other (List.mem_append_left _ member)
  have apart' : t.kind ∉ others := fun member => other (List.mem_append_right _ member)
  obtain ⟨after, failed, moved⟩ := here apart stands
  obtain ⟨last, failed', moved'⟩ := there apart' moved.reader
  have unmoved (expected : List TokenKind) :
      progressed ctx.reader.location (.refusal expected t) = false := by
    simp [progressed, Report.location, Report.refusal, stands.location, Tape.place]
  refine ⟨last, ?_, moved.trans moved'⟩
  simp only [runWith, runOrElse, failed, unmoved, Bool.false_eq_true, if_false, failed',
    Report.mostRelevant_refusal]

theorem succeed_passes (value : α) :
    Passes tape ((succeed value : Parser Rule α).runWith rules loops) start value start [] :=
  fun ctx stands => ⟨ctx, rfl, .refl stands⟩

theorem token_passes {kind : TokenKind} (found : t.kind = kind) :
    Passes tape ((token kind : Parser Rule Token).runWith rules loops) (t :: rest) t rest [] := by
  refine passes_of_reads (runToken_follows kind) (runToken_heedless kind) ?_
  simp [judgeToken, found]

theorem bind_passes {next : α → Parser Rule β} {result : β}
    (first : Passes tape (p.runWith rules loops) start value middle new)
    (second : Passes tape ((next value).runWith rules loops) middle result rest more) :
    Passes tape ((p.bind next).runWith rules loops) start result rest (new ++ more) := by
  intro ctx stands
  obtain ⟨after, read, moved⟩ := first stands
  obtain ⟨last, read', moved'⟩ := second moved.reader
  exact ⟨last, by simp only [runWith, read, read'], moved.trans moved'⟩

theorem map_passes (f : α → β) (passes : Passes tape (p.runWith rules loops) start value rest new) :
    Passes tape ((p.map f).runWith rules loops) start (f value) rest new := by
  have both : Passes tape ((p.map f).runWith rules loops) start (f value) rest (new ++ []) :=
    bind_passes passes (succeed_passes (f value))
  simpa using both

theorem orElse_first (passes : Passes tape (p.runWith rules loops) start value rest new) :
    Passes tape ((p.orElse q).runWith rules loops) start value rest new := by
  intro ctx stands
  obtain ⟨after, read, moved⟩ := passes stands
  exact ⟨after, by simp only [runWith, runOrElse, read], moved⟩

theorem orElse_second (refuses : Refuses tape (p.runWith rules loops) start)
    (passes : Passes tape (q.runWith rules loops) start value rest new) :
    Passes tape ((p.orElse q).runWith rules loops) start value rest new := by
  intro ctx stands
  obtain ⟨r, after, failed, located, moved⟩ := refuses stands
  obtain ⟨last, read, moved'⟩ := passes moved.reader
  refine ⟨last, ?_, moved.trans moved'⟩
  have unmoved : progressed ctx.reader.location r = false := by simp [progressed, located]
  simp only [runWith, runOrElse, failed, unmoved, Bool.false_eq_true, if_false, read]

theorem recover_passes (passes : Passes tape (p.runWith rules loops) start value rest new) :
    Passes tape ((p.recover q).runWith rules loops) start value rest new := by
  intro ctx stands
  obtain ⟨after, read, moved⟩ := passes stands
  exact ⟨after, by simp only [runWith, read], moved⟩

theorem recover_refused (awaits : Awaits tape (p.runWith rules loops) kinds)
    (other : t.kind ∉ kinds)
    (passes : Passes tape (q.runWith rules loops) (t :: start) value rest new) :
    Passes tape ((p.recover q).runWith rules loops) (t :: start) value rest
      (.refusal kinds t :: new) := by
  intro ctx stands
  obtain ⟨after, failed, moved⟩ := awaits other stands
  have recorded : ctx.Moved tape (after.record (.refusal kinds t)) (t :: start)
      [.refusal kinds t] :=
    ⟨moved.reader, moved.marks, by simp [Context.record, moved.reports]⟩
  obtain ⟨last, read, moved'⟩ := passes recorded.reader
  exact ⟨last, by simp only [runWith, failed, read], recorded.trans moved'⟩

theorem skipUntil_passes {skipped : List Token}
    (refuses : ∀ t ∈ skipped, ∀ rest, Refuses tape run (t :: rest))
    (passes : Passes tape run start value rest []) (enough : skipped.length < fuel) :
    Passes tape (runSkipUntil run fuel) (skipped ++ start) value rest [] := by
  induction skipped generalizing fuel with
  | nil =>
    obtain ⟨fuel, rfl⟩ := Nat.exists_eq_succ_of_ne_zero (Nat.ne_of_gt enough)
    intro ctx stands
    obtain ⟨after, read, moved⟩ := passes stands
    exact ⟨after, by simp only [runSkipUntil, read], moved⟩
  | cons t skipped ih =>
    obtain ⟨fuel, rfl⟩ := Nat.exists_eq_succ_of_ne_zero (Nat.ne_of_gt (Nat.zero_lt_of_lt enough))
    intro ctx stands
    obtain ⟨r, after, failed, -, moved⟩ := refuses t List.mem_cons_self (skipped ++ start) stands
    obtain ⟨reader, next, there, marks⟩ := Reader.advance_stands moved.reader
    have skips : ctx.Moved tape (after.take (reader, [])) (skipped ++ start) [] :=
      ⟨there, marks.trans moved.marks, by simpa [Context.take] using moved.reports⟩
    obtain ⟨last, read, moved'⟩ := ih (fun u member => refuses u (List.mem_cons_of_mem _ member))
      (Nat.lt_of_succ_lt_succ enough) skips.reader
    refine ⟨last, ?_, skips.trans moved'⟩
    simp only [runSkipUntil, failed, Context.advance?, next, Option.map_some, read]

/-- After something has been read, a loop may repeat often enough for what is left. -/
theorem fuel_left (filled : used ≠ []) (enough : (used ++ middle).length < fuel) :
    ∃ less, fuel = less + 1 ∧ middle.length < less := by
  have positive := List.length_pos_iff.mpr filled
  rw [List.length_append] at enough
  exact ⟨fuel - 1, by omega, by omega⟩

theorem runMany_nil : Repeats tape (runMany run) [] [] [] [] := by
  intro fuel enough ctx stands
  obtain ⟨fuel, rfl⟩ := Nat.exists_eq_succ_of_ne_zero (Nat.ne_of_gt enough)
  exact ⟨ctx, by simp [runMany, stands.atEnd.mpr rfl], .refl stands⟩

theorem runMany_cons (filled : used ≠ [])
    (body : Passes tape run (used ++ middle) value middle new)
    (loop : Repeats tape (runMany run) middle values rest more) :
    Repeats tape (runMany run) (used ++ middle) (value :: values) rest (new ++ more) := by
  intro fuel enough ctx stands
  obtain ⟨fuel, rfl, plenty⟩ := fuel_left filled enough
  have inside : ctx.reader.atEnd = false := by
    rw [← Bool.not_eq_true, stands.atEnd]
    simp [filled]
  obtain ⟨after, read, moved⟩ := body stands
  obtain ⟨last, read', moved'⟩ := loop plenty moved.reader
  refine ⟨last, ?_, moved.trans moved'⟩
  simp only [runMany, inside, Bool.false_eq_true, if_false, read, read', prepend, Outcome.map]

theorem runManyUntil_nil {stop : Runner β} {found : β}
    (stops : Passes tape stop start found rest []) :
    Repeats tape (runManyUntil run stop) start [] rest [] := by
  intro fuel enough ctx stands
  obtain ⟨fuel, rfl⟩ := Nat.exists_eq_succ_of_ne_zero (Nat.ne_of_gt (Nat.zero_lt_of_lt enough))
  obtain ⟨after, read, moved⟩ := stops stands
  exact ⟨after, by simp only [runManyUntil, read], moved⟩

theorem runManyUntil_cons {stop : Runner β} (filled : used ≠ [])
    (missing : Refuses tape stop (used ++ middle))
    (body : Passes tape run (used ++ middle) value middle new)
    (loop : Repeats tape (runManyUntil run stop) middle values rest more) :
    Repeats tape (runManyUntil run stop) (used ++ middle) (value :: values) rest (new ++ more) := by
  intro fuel enough ctx stands
  obtain ⟨fuel, rfl, plenty⟩ := fuel_left filled enough
  obtain ⟨r, after, failed, located, moved⟩ := missing stands
  have unmoved : progressed ctx.reader.location r = false := by simp [progressed, located]
  have inside : after.reader.atEnd = false := by
    rw [← Bool.not_eq_true, moved.reader.atEnd]
    simp [filled]
  obtain ⟨next, read, moved'⟩ := body moved.reader
  obtain ⟨last, read', moved''⟩ := loop plenty moved'.reader
  refine ⟨last, ?_, moved.trans (moved'.trans moved'')⟩
  simp only [runManyUntil, failed, unmoved, inside, Bool.or_self, Bool.false_eq_true, if_false,
    read, read', prepend, Outcome.map]

end Parser

/-- A parser that passes over all tokens of a source makes its value and its reports. -/
theorem Grammar.parse_passes {Rule : Type → Type} {grammar : Grammar Rule} {source : String}
    (clean : ∀ x ∈ Lexeme.scan source, x.stray? = none) {fuel : Nat} {p : Parser Rule α}
    (passes : Passes (.ofSource source) (grammar.run fuel p) (significantTokens source) value []
      new) : grammar.parse fuel p (Lexeme.scan source) = ⟨some value, new⟩ := by
  obtain ⟨strays, stands⟩ := Reader.start_stands 0 clean
  have starts : (Context.start (Lexeme.scan source)).reader.Stands (.ofSource source)
      (significantTokens source) := stands
  obtain ⟨after, read, moved⟩ := passes starts
  have current := moved.reader.current?
  simp only [List.head?_nil] at current
  have silent : (Context.start (Lexeme.scan source)).reports = [] := by
    simp [Context.start, strays]
  simp only [parse, read, current, moved.reports, silent, List.nil_append]

end Statecraft
