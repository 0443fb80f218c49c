import Mathlib.Logic.Relation
import Statecraft.Proofs.Commitment

/-! The course of a run: which parsers it starts in which contexts, and how its loops go
round. No run that is started lies behind the one it belongs to. A run is completed
within its fuel if every loop moves on with each round and every rule it calls is. -/
namespace Statecraft

theorem Context.On.of_advance {tape : Tape} {ctx next : Context} {marks : List Bookmark}
    (on : ctx.On tape marks) (moved : ctx.advance? = some next) :
    next.On tape marks ∧ next.reader.cursor = ctx.reader.cursor + 1 := by
  rcases Nat.lt_or_ge ctx.reader.cursor tape.tokens.length with more | ended
  · obtain ⟨next', moved', there⟩ := on.advance more
    cases moved.symm.trans moved'
    exact there
  · simp [Context.advance?, on.keeps.advance_end ended] at moved

namespace Context.On

variable {tape : Tape} {marks : List Bookmark} {α : Type} {run : Runner α} {ctx mid : Context}
  {r : Report} (on : ctx.On tape marks)
include on

theorem after {outcome : Outcome α} (commits : Commits tape run) (ran : run ctx = (outcome, mid)) :
    mid.On tape marks ∧ ctx.reader.cursor ≤ mid.reader.cursor := by
  have lands := commits on
  rw [ran] at lands
  cases lands with
  | ok there forward | failed there forward | stuck there forward => exact ⟨there, forward⟩

theorem stays (commits : Commits tape run) (ran : run ctx = (.failed r, mid))
    (refused : Parser.progressed ctx.reader.location r = false) :
    mid.reader.cursor = ctx.reader.cursor := by
  have lands := commits on
  rw [ran] at lands
  exact ((lands.committed on).unmoved r rfl refused).1

/-- What fails behind its start is no mere refusal. -/
theorem behind (commits : Commits tape run) (ran : run ctx = (.failed r, mid))
    (moved : ctx.reader.cursor < mid.reader.cursor) :
    Parser.progressed ctx.reader.location r = true := by
  refine Bool.of_not_eq_false fun refused => ?_
  have same := on.stays commits ran refused
  omega

/-- A failure that ends a list has left the reader where it was, or at the end. -/
theorem ends (commits : Commits tape run) (ran : run ctx = (.failed r, mid))
    (ended : Parser.endsList ctx.reader.location r mid = true) :
    mid.reader.cursor = ctx.reader.cursor ∨
      ctx.reader.cursor < mid.reader.cursor ∧ mid.reader.atEnd = true := by
  rcases Nat.eq_or_lt_of_le (on.after commits ran).2 with same | moved
  · exact .inl same.symm
  · exact .inr ⟨moved, by simpa [Parser.endsList, on.behind commits ran moved] using ended⟩

end Context.On

namespace Outcome

/-- Neither is the fuel exhausted nor a bookmark refused. -/
def Settled {α : Type} : Outcome α → Prop
  | .stuck _ => False
  | _ => True

def value? {α : Type} : Outcome α → Option α
  | .ok value => some value
  | _ => none

def report? {α : Type} : Outcome α → Option Report
  | .failed r => some r
  | _ => none

theorem exists_value {α : Type} (result : Outcome α × Context)
    (read : result.1.value?.isSome = true) : ∃ value, result = (.ok value, result.2) := by
  obtain ⟨outcome, after⟩ := result
  cases outcome with
  | ok value => exact ⟨value, rfl⟩
  | failed | stuck => cases read

theorem exists_report {α : Type} (result : Outcome α × Context)
    (failed : result.1.report?.isSome = true) : ∃ r, result = (.failed r, result.2) := by
  obtain ⟨outcome, after⟩ := result
  cases outcome with
  | failed r => exact ⟨r, rfl⟩
  | ok | stuck => cases failed

end Outcome

namespace Parser

section Course

variable {Rule : Type → Type} (rules : ∀ {γ : Type}, Rule γ → Runner γ) (loops : Nat)

/-- One round of a loop leads from one context to another, where the next round begins. -/
def Turns : {α : Type} → Parser Rule α → Context → Context → Prop
  | _, .skipUntil body, a, b =>
      ∃ r mid, body.runWith rules loops a = (.failed r, mid) ∧ mid.advance? = some b
  | _, .many body, a, b =>
      a.reader.atEnd = false ∧ ∃ value, body.runWith rules loops a = (.ok value, b)
  | _, .manyUntil body stop, a, b =>
      ∃ r mid value, stop.runWith rules loops a = (.failed r, mid) ∧
        progressed a.reader.location r = false ∧ mid.reader.atEnd = false ∧
        body.runWith rules loops mid = (.ok value, b)
  | _, .separated body delimiter, a, b =>
      ∃ value between mid, body.runWith rules loops a = (.ok value, mid) ∧
        delimiter.runWith rules loops mid = (.ok between, b)
  | _, .chain term operator _, a, b =>
      ∃ op value mid, operator.runWith rules loops a = (.ok op, mid) ∧
        term.runWith rules loops mid = (.ok value, b)
  | _, _, _, _ => False

/-- A choice or a loop that was entered in one context begins a round in another. A chain
begins its first round behind its first term. -/
inductive Rounds : {α : Type} → Parser Rule α → Context → Context → Prop where
  | orElse {α : Type} {p q : Parser Rule α} {ctx : Context} : Rounds (p.orElse q) ctx ctx
  | skipUntil {α : Type} {body : Parser Rule α} {ctx : Context} : Rounds body.skipUntil ctx ctx
  | many {α : Type} {body : Parser Rule α} {ctx : Context} : Rounds body.many ctx ctx
  | manyUntil {α β : Type} {body : Parser Rule α} {stop : Parser Rule β} {ctx : Context} :
      Rounds (body.manyUntil stop) ctx ctx
  | separated {α β : Type} {body : Parser Rule α} {delimiter : Parser Rule β} {ctx : Context} :
      Rounds (body.separated delimiter) ctx ctx
  | chain {α β : Type} {term : Parser Rule α} {operator : Parser Rule β} {combine : α → β → α → α}
      {ctx mid : Context} {value : α} (read : term.runWith rules loops ctx = (.ok value, mid)) :
      Rounds (term.chain operator combine) ctx mid
  | again {α : Type} {p : Parser Rule α} {ctx a b : Context} (begins : Rounds p ctx a)
      (turns : Turns rules loops p a b) : Rounds p ctx b

/-- The run of a parser starts the run of another one. -/
inductive Starts : {α β : Type} → Parser Rule α → Context → Parser Rule β → Context → Prop where
  | tried {α β : Type} {p : Parser Rule α} {q : Parser Rule β} {ctx a there : Context}
      (begins : Rounds rules loops p ctx a) (tries : Tries rules loops p a q there) :
      Starts p ctx q there
  | first {α β : Type} {first : Parser Rule α} {next : α → Parser Rule β} {ctx : Context} :
      Starts (first.bind next) ctx first ctx
  | next {α β : Type} {first : Parser Rule α} {next : α → Parser Rule β} {ctx mid : Context}
      {value : α} (read : first.runWith rules loops ctx = (.ok value, mid)) :
      Starts (first.bind next) ctx (next value) mid
  | renamed {α : Type} {body : Parser Rule α} {kind : ReportKind} {ctx : Context} :
      Starts (body.withKind kind) ctx body ctx
  | recovered {α : Type} {body fallback : Parser Rule α} {ctx : Context} :
      Starts (body.recover fallback) ctx body ctx
  | fallback {α : Type} {body fallback : Parser Rule α} {ctx mid : Context} {r : Report}
      (failed : body.runWith rules loops ctx = (.failed r, mid)) :
      Starts (body.recover fallback) ctx fallback (mid.record r)
  | attempted {α : Type} {body : Parser Rule α} {ctx : Context} :
      Starts body.attempt ctx body { ctx with reader := ctx.reader.bookmark.2 }
  | ahead {α : Type} {body : Parser Rule α} {ctx : Context} :
      Starts body.lookahead ctx body { ctx with reader := ctx.reader.bookmark.2 }
  | delimiter {α β : Type} {body : Parser Rule α} {delimiter : Parser Rule β} {ctx a mid : Context}
      {value : α} (begins : Rounds rules loops (body.separated delimiter) ctx a)
      (read : body.runWith rules loops a = (.ok value, mid)) :
      Starts (body.separated delimiter) ctx delimiter mid
  | term {α β : Type} {term : Parser Rule α} {operator : Parser Rule β} {combine : α → β → α → α}
      {ctx : Context} : Starts (term.chain operator combine) ctx term ctx
  | operand {α β : Type} {term : Parser Rule α} {operator : Parser Rule β}
      {combine : α → β → α → α} {ctx a mid : Context} {op : β}
      (begins : Rounds rules loops (term.chain operator combine) ctx a)
      (operated : operator.runWith rules loops a = (.ok op, mid)) :
      Starts (term.chain operator combine) ctx term mid

end Course

variable {Rule : Type → Type} {rules : ∀ {γ : Type}, Rule γ → Runner γ} {loops : Nat} {tape : Tape}
  {marks : List Bookmark} {α β : Type} {p : Parser Rule α} {q : Parser Rule β}
  {ctx a b there : Context}

section Forward

variable (commits : ∀ {γ : Type} (rule : Rule γ), Commits tape (rules rule))
include commits

theorem on_of_run {outcome : Outcome α} (on : ctx.On tape marks)
    (ran : p.runWith rules loops ctx = (outcome, there)) :
    there.On tape marks ∧ ctx.reader.cursor ≤ there.reader.cursor := by
  exact on.after (runWith_commits commits loops p) ran

theorem Turns.on (turns : Turns rules loops p a b) (on : a.On tape marks) :
    b.On tape marks ∧ a.reader.cursor ≤ b.reader.cursor := by
  cases p with
  | skipUntil body =>
    obtain ⟨r, mid, failed, moved⟩ := turns
    obtain ⟨on', forward⟩ := on_of_run commits on failed
    obtain ⟨on'', further⟩ := on'.of_advance moved
    exact ⟨on'', by omega⟩
  | many body =>
    obtain ⟨-, value, read⟩ := turns
    exact on_of_run commits on read
  | manyUntil body stop =>
    obtain ⟨r, mid, value, refused, -, -, read⟩ := turns
    obtain ⟨on', forward⟩ := on_of_run commits on refused
    obtain ⟨on'', further⟩ := on_of_run commits on' read
    exact ⟨on'', Nat.le_trans forward further⟩
  | separated | chain =>
    obtain ⟨_, _, mid, first, second⟩ := turns
    obtain ⟨on', forward⟩ := on_of_run commits on first
    obtain ⟨on'', further⟩ := on_of_run commits on' second
    exact ⟨on'', Nat.le_trans forward further⟩
  | _ => exact turns.elim

theorem Rounds.on (begins : Rounds rules loops p ctx a) (on : ctx.On tape marks) :
    a.On tape marks ∧ ctx.reader.cursor ≤ a.reader.cursor := by
  induction begins with
  | orElse | skipUntil | many | manyUntil | separated => exact ⟨on, Nat.le_refl _⟩
  | chain read => exact on_of_run commits on read
  | again _ turns ih =>
    obtain ⟨on', forward⟩ := ih on
    obtain ⟨on'', further⟩ := turns.on commits on'
    exact ⟨on'', Nat.le_trans forward further⟩

/-- What is started is on the tape, and not behind the run it belongs to. -/
theorem Starts.on (starts : Starts rules loops p ctx q there) (on : ctx.On tape marks) :
    (∃ marks, there.On tape marks) ∧ ctx.reader.cursor ≤ there.reader.cursor := by
  cases starts with
  | tried begins tries =>
    obtain ⟨on', forward⟩ := begins.on commits on
    obtain ⟨on'', same⟩ := tries.same commits on'
    exact ⟨⟨_, on''⟩, same ▸ forward⟩
  | first | renamed | recovered | term => exact ⟨⟨_, on⟩, Nat.le_refl _⟩
  | next read =>
    obtain ⟨on', forward⟩ := on_of_run commits on read
    exact ⟨⟨_, on'⟩, forward⟩
  | fallback failed =>
    obtain ⟨on', forward⟩ := on_of_run commits on failed
    exact ⟨⟨_, on'.record _⟩, forward⟩
  | attempted | ahead => exact ⟨⟨_, on.bookmark.1⟩, Nat.le_refl _⟩
  | delimiter begins read =>
    obtain ⟨on', forward⟩ := begins.on commits on
    obtain ⟨on'', further⟩ := on_of_run commits on' read
    exact ⟨⟨_, on''⟩, Nat.le_trans forward further⟩
  | operand begins operated =>
    obtain ⟨on', forward⟩ := begins.on commits on
    obtain ⟨on'', further⟩ := on_of_run commits on' operated
    exact ⟨⟨_, on''⟩, Nat.le_trans forward further⟩

end Forward

/-- A loop whose rounds all move on. -/
def Drives (rules : ∀ {γ : Type}, Rule γ → Runner γ) (loops : Nat) (tape : Tape)
    (p : Parser Rule α) : Prop :=
  ∀ ⦃a b : Context⦄ ⦃marks : List Bookmark⦄, a.On tape marks → Turns rules loops p a b →
    a.reader.cursor < b.reader.cursor

/-- Since every round moves on, there are no more rounds than tokens. -/
theorem Drives.induct (commits : ∀ {γ : Type} (rule : Rule γ), Commits tape (rules rule))
    (drives : Drives rules loops tape p) (on : ctx.On tape marks) {motive : Nat → Context → Prop}
    (round : ∀ fuel a, Rounds rules loops p ctx a →
      (∀ b, Turns rules loops p a b → motive fuel b) → motive (fuel + 1) a)
    {fuel : Nat} (begins : Rounds rules loops p ctx a)
    (enough : tape.tokens.length < a.reader.cursor + fuel) : motive fuel a := by
  induction fuel generalizing a with
  | zero =>
    have inside := (begins.on commits on).1.inside
    omega
  | succ fuel ih =>
    apply round fuel a begins
    intro b turns
    have on' := (begins.on commits on).1
    have further := drives on' turns
    exact ih (begins.again turns) (by omega)

/-- The run is completed. -/
def Settles (run : Runner α) (ctx : Context) : Prop := (run ctx).1.Settled

theorem prepend_settled (value : α) {result : Outcome (List α) × Context}
    (settled : result.1.Settled) : (prepend value result).1.Settled := by
  obtain ⟨outcome, after⟩ := result
  cases outcome with
  | ok | failed => exact trivial
  | stuck => exact settled

section Settling

variable {body fallback : Parser Rule α} {other : Parser Rule β}

theorem bind_settles {next : α → Parser Rule β} (first : Settles (body.runWith rules loops) ctx)
    (later : ∀ value mid, body.runWith rules loops ctx = (.ok value, mid) →
      Settles ((next value).runWith rules loops) mid) :
    Settles ((body.bind next).runWith rules loops) ctx := by
  simp only [Settles, runWith] at *
  generalize body.runWith rules loops ctx = result at *
  obtain ⟨outcome, mid⟩ := result
  cases outcome with
  | ok value => exact later value mid rfl
  | failed r => exact trivial
  | stuck cause => exact first

theorem orElse_settles (first : Settles (body.runWith rules loops) ctx)
    (later : ∀ r mid, body.runWith rules loops ctx = (.failed r, mid) →
      progressed ctx.reader.location r = false → Settles (fallback.runWith rules loops) mid) :
    Settles ((body.orElse fallback).runWith rules loops) ctx := by
  simp only [Settles, runWith, runOrElse] at *
  generalize body.runWith rules loops ctx = result at *
  obtain ⟨outcome, mid⟩ := result
  cases outcome with
  | ok value => exact trivial
  | stuck cause => exact first
  | failed r =>
    cases moved : progressed ctx.reader.location r with
    | true => simp only [moved]; exact trivial
    | false =>
      have second := later r mid rfl moved
      simp only [moved, Bool.false_eq_true, if_false]
      generalize fallback.runWith rules loops mid = result at second
      obtain ⟨outcome, last⟩ := result
      cases outcome with
      | ok | failed => exact trivial
      | stuck cause => exact second

theorem withKind_settles (kind : ReportKind) (inner : Settles (body.runWith rules loops) ctx) :
    Settles ((body.withKind kind).runWith rules loops) ctx := by
  simp only [Settles, runWith] at *
  generalize body.runWith rules loops ctx = result at *
  obtain ⟨outcome, mid⟩ := result
  cases outcome with
  | ok | failed => exact trivial
  | stuck cause => exact inner

theorem recover_settles (first : Settles (body.runWith rules loops) ctx)
    (later : ∀ r mid, body.runWith rules loops ctx = (.failed r, mid) →
      Settles (fallback.runWith rules loops) (mid.record r)) :
    Settles ((body.recover fallback).runWith rules loops) ctx := by
  simp only [Settles, runWith] at *
  generalize body.runWith rules loops ctx = result at *
  obtain ⟨outcome, mid⟩ := result
  cases outcome with
  | ok value => exact trivial
  | failed r => exact later r mid rfl
  | stuck cause => exact first

section Fueled

variable (commits : ∀ {γ : Type} (rule : Rule γ), Commits tape (rules rule))
include commits

theorem attempt_settles (on : ctx.On tape marks)
    (inner : Settles (body.runWith rules loops) { ctx with reader := ctx.reader.bookmark.2 }) :
    Settles (body.attempt.runWith rules loops) ctx := by
  have lands := runWith_commits commits loops body on.bookmark.1
  simp only [Settles, runWith, marked] at *
  generalize body.runWith rules loops _ = result at *
  cases lands with
  | ok => exact trivial
  | stuck => exact inner
  | failed there =>
    obtain ⟨earlier, same, -⟩ := there.rewind on.inside
    dsimp only
    rw [same]
    exact trivial

theorem lookahead_settles (on : ctx.On tape marks)
    (inner : Settles (body.runWith rules loops) { ctx with reader := ctx.reader.bookmark.2 }) :
    Settles (body.lookahead.runWith rules loops) ctx := by
  have lands := runWith_commits commits loops body on.bookmark.1
  simp only [Settles, runWith, marked] at *
  generalize body.runWith rules loops _ = result at *
  cases lands with
  | stuck => exact inner.elim
  | ok there | failed there =>
    obtain ⟨earlier, same, -⟩ := there.rewind on.inside
    rw [same]
    exact trivial

variable (enough : tape.tokens.length < loops) (on : ctx.On tape marks)
include enough on

theorem skipUntil_settles (drives : Drives rules loops tape body.skipUntil)
    (target : ∀ a, Rounds rules loops body.skipUntil ctx a → Settles (body.runWith rules loops) a) :
    Settles (body.skipUntil.runWith rules loops) ctx := by
  refine drives.induct commits on (motive := fun fuel a =>
    Settles (runSkipUntil (body.runWith rules loops) fuel) a) ?_ .skipUntil (by omega)
  intro fuel a begins next
  have first := target a begins
  simp only [Settles, runSkipUntil] at *
  rcases result : body.runWith rules loops a with ⟨value | r | cause, mid⟩
  · exact trivial
  · cases moved : mid.advance? with
    | none => simp only [moved]; exact trivial
    | some b => simp only [moved]; exact next b ⟨r, mid, result, moved⟩
  · rw [result] at first
    exact first

theorem many_settles (drives : Drives rules loops tape body.many)
    (item : ∀ a, Rounds rules loops body.many ctx a → a.reader.atEnd = false →
      Settles (body.runWith rules loops) a) :
    Settles (body.many.runWith rules loops) ctx := by
  refine drives.induct commits on (motive := fun fuel a =>
    Settles (runMany (body.runWith rules loops) fuel) a) ?_ .many (by omega)
  intro fuel a begins next
  simp only [Settles, runMany] at *
  split
  · exact trivial
  · rename_i more
    have first := item a begins (Bool.not_eq_true _ ▸ more)
    rcases result : body.runWith rules loops a with ⟨value | r | cause, mid⟩
    · exact prepend_settled value (next mid ⟨Bool.not_eq_true _ ▸ more, value, result⟩)
    · dsimp only
      split <;> exact trivial
    · rw [result] at first
      exact first

theorem manyUntil_settles (drives : Drives rules loops tape (body.manyUntil other))
    (stop : ∀ a, Rounds rules loops (body.manyUntil other) ctx a →
      Settles (other.runWith rules loops) a)
    (element : ∀ a r mid, Rounds rules loops (body.manyUntil other) ctx a →
      other.runWith rules loops a = (.failed r, mid) → progressed a.reader.location r = false →
      mid.reader.atEnd = false → Settles (body.runWith rules loops) mid) :
    Settles ((body.manyUntil other).runWith rules loops) ctx := by
  refine drives.induct commits on (motive := fun fuel a => Settles
    (runManyUntil (body.runWith rules loops) (other.runWith rules loops) fuel) a) ?_ .manyUntil
    (by omega)
  intro fuel a begins next
  have first := stop a begins
  simp only [Settles, runManyUntil] at *
  rcases stopped : other.runWith rules loops a with ⟨value | missing | cause, mid⟩
  · exact trivial
  · dsimp only
    split
    · exact trivial
    · rename_i goes
      simp only [Bool.or_eq_true, not_or, Bool.not_eq_true] at goes
      have second := element a missing mid begins stopped goes.1 goes.2
      rcases result : body.runWith rules loops mid with ⟨value | r | cause, last⟩
      · exact prepend_settled value
          (next last ⟨missing, mid, value, stopped, goes.1, goes.2, result⟩)
      · exact trivial
      · rw [result] at second
        exact second
  · rw [stopped] at first
    exact first

theorem separated_settles (drives : Drives rules loops tape (body.separated other))
    (entry : ∀ a, Rounds rules loops (body.separated other) ctx a →
      Settles (body.runWith rules loops) a)
    (delimiter : ∀ a value mid, Rounds rules loops (body.separated other) ctx a →
      body.runWith rules loops a = (.ok value, mid) → Settles (other.runWith rules loops) mid) :
    Settles ((body.separated other).runWith rules loops) ctx := by
  refine drives.induct commits on (motive := fun fuel a => Settles
    (runSeparated (body.runWith rules loops) (other.runWith rules loops) fuel) a) ?_ .separated
    (by omega)
  intro fuel a begins next
  have first := entry a begins
  simp only [Settles, runSeparated] at *
  rcases read : body.runWith rules loops a with ⟨value | r | cause, mid⟩
  · have second := delimiter a value mid begins read
    dsimp only
    rcases delimited : other.runWith rules loops mid with ⟨between | r | cause, last⟩
    · exact prepend_settled value (next last ⟨value, between, mid, read, delimited⟩)
    · dsimp only
      split <;> exact trivial
    · rw [delimited] at second
      exact second
  · dsimp only
    split <;> exact trivial
  · rw [read] at first
    exact first

theorem chain_settles {combine : α → β → α → α}
    (drives : Drives rules loops tape (body.chain other combine))
    (term : Settles (body.runWith rules loops) ctx)
    (operator : ∀ a, Rounds rules loops (body.chain other combine) ctx a →
      Settles (other.runWith rules loops) a)
    (operand : ∀ a op mid, Rounds rules loops (body.chain other combine) ctx a →
      other.runWith rules loops a = (.ok op, mid) → Settles (body.runWith rules loops) mid) :
    Settles ((body.chain other combine).runWith rules loops) ctx := by
  rcases read : body.runWith rules loops ctx with ⟨value | r | cause, mid⟩
  · have forward := (on_of_run commits on read).2
    simp only [Settles, runWith, read]
    -- The value read so far plays no part in how long the loop goes on.
    refine drives.induct commits on (motive := fun fuel a => ∀ left, Settles
      (runChain (body.runWith rules loops) (other.runWith rules loops) combine fuel left) a) ?_
      (.chain read) (by omega) value
    intro fuel a begins next left
    have first := operator a begins
    simp only [Settles, runChain] at *
    rcases operated : other.runWith rules loops a with ⟨op | r | cause, mid⟩
    · have second := operand a op mid begins operated
      dsimp only
      rcases read : body.runWith rules loops mid with ⟨right | r | cause, last⟩
      · exact next last ⟨op, right, mid, operated, read⟩ _
      · exact trivial
      · rw [read] at second
        exact second
    · dsimp only
      split <;> exact trivial
    · rw [operated] at first
      exact first
  · simp only [Settles, runWith, read]
    exact trivial
  · simp only [Settles, read] at term
    exact term.elim

end Fueled
end Settling

end Parser
end Statecraft
