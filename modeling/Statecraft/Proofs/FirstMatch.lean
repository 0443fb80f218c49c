import Statecraft.Proofs.Subruns
import Statecraft.Proofs.Locality

/-! Resynchronization. A parser that is sought from a token on is run again behind the token where
its last run has failed. It finds the first token where it matches, if it is run there. That is so
when its failures leave the reader where it was; when they do not, tokens are passed over. -/
namespace Statecraft

namespace Context

def skip (ctx : Context) : Nat → Context
  | 0 => ctx
  | n + 1 =>
      match ctx.advance? with
      | some next => next.skip n
      | none => ctx

def goTo (ctx : Context) (index : Nat) : Context := ctx.skip (index - ctx.reader.cursor)

variable {tape : Tape} {marks : List Bookmark} {ctx : Context}

theorem On.skip (on : ctx.On tape marks) (n : Nat) : (ctx.skip n).On tape marks ∧
    (ctx.skip n).reader.cursor = min (ctx.reader.cursor + n) tape.tokens.length := by
  induction n generalizing ctx with
  | zero => exact ⟨on, (Nat.min_eq_left on.inside).symm⟩
  | succ n ih =>
    simp only [Context.skip]
    rcases Nat.lt_or_ge ctx.reader.cursor tape.tokens.length with more | ended
    · obtain ⟨next, moved, on', cursor⟩ := on.advance more
      obtain ⟨there, same⟩ := ih on'
      rw [moved]
      exact ⟨there, same.trans (by omega)⟩
    · have still : ctx.advance? = none := by
        simp only [Context.advance?, on.keeps.advance_end ended, Option.map_none]
      have inside := on.inside
      rw [still]
      exact ⟨on, by dsimp only; omega⟩

theorem On.goTo (on : ctx.On tape marks) {index : Nat} (ahead : ctx.reader.cursor ≤ index)
    (inside : index ≤ tape.tokens.length) :
    (ctx.goTo index).On tape marks ∧ (ctx.goTo index).reader.cursor = index := by
  obtain ⟨there, same⟩ := on.skip (index - ctx.reader.cursor)
  exact ⟨there, same.trans (by omega)⟩

end Context

namespace Parser

variable {Rule : Type → Type} {tape : Tape} {marks : List Bookmark} {α : Type}

section Search

variable (run : Runner α) (ctx : Context)

/-- From the token with the index the runner succeeds with the value, and there it ends. -/
def Matches (index : Nat) (value : α) (last : Nat) : Prop :=
  ∃ after, run (ctx.goTo index) = (.ok value, after) ∧ after.reader.cursor = last

/-- The runner succeeds from the token with the index and from none before. -/
def MatchesFirst (index : Nat) (value : α) (last : Nat) : Prop :=
  ctx.reader.cursor ≤ index ∧ Matches run ctx index value last ∧
    ∀ earlier value last, ctx.reader.cursor ≤ earlier → earlier < index →
      ¬Matches run ctx earlier value last

/-- A search that has come to one token comes to another. Behind a failure it goes on at the next
token from where the runner has left the reader. -/
inductive Visits : Nat → Nat → Prop where
  | here {index : Nat} : Visits index index
  | next {index later : Nat} {r : Report} {after : Context}
      (failed : run (ctx.goTo index) = (.failed r, after)) (more : after.reader.atEnd = false)
      (further : Visits (after.reader.cursor + 1) later) : Visits index later

/-- A search from a token ends with the match at a token it comes to, or at the end without a match
at any of them. -/
inductive Seeks (index : Nat) : Outcome α × Context → Prop where
  | found {later last : Nat} {value : α} {after : Context} (ahead : index ≤ later)
      (visits : Visits run ctx index later) (matched : Matches run ctx later value last)
      (ends : after.reader.cursor = last) : Seeks index (.ok value, after)
  | missed {r : Report} {after : Context} (spent : after.reader.atEnd = true)
      (none : ∀ later value last, Visits run ctx index later → ¬Matches run ctx later value last) :
      Seeks index (.failed r, after)

/-- The search yields the first match and ends where that ends; it fails at the end if there is
no match. -/
structure FindsFirst (search : Runner α) : Prop where
  found : ∀ index value last, MatchesFirst run ctx index value last →
    ∃ after, search ctx = (.ok value, after) ∧ after.reader.cursor = last
  missed : (∀ index value last, ctx.reader.cursor ≤ index → ¬Matches run ctx index value last) →
    ∃ r after, search ctx = (.failed r, after) ∧ after.reader.atEnd = true

end Search

variable {run : Runner α} {ctx : Context} {i j k last : Nat} {value : α} {r : Report}
  {after : Context}

theorem not_matches (failed : run (ctx.goTo i) = (.failed r, after)) :
    ¬Matches run ctx i value last := by
  rintro ⟨_, read, -⟩
  cases failed.symm.trans read

theorem Visits.of_next (failed : run (ctx.goTo i) = (.failed r, after))
    (visits : Visits run ctx i j) :
    j = i ∨ after.reader.atEnd = false ∧ Visits run ctx (after.reader.cursor + 1) j := by
  cases visits with
  | here => exact .inl rfl
  | next failed' more further =>
    cases failed.symm.trans failed'
    exact .inr ⟨more, further⟩

/-- A search stops at the first match it comes to. -/
theorem Visits.unique {other : α} {last' : Nat} (visits : Visits run ctx i j)
    (matched : Matches run ctx j value last) (visits' : Visits run ctx i k)
    (matched' : Matches run ctx k other last') : j = k := by
  induction visits with
  | here =>
    cases visits' with
    | here => rfl
    | next failed => exact absurd matched (not_matches failed)
  | next failed _ _ ih =>
    rcases visits'.of_next failed with rfl | ⟨-, further⟩
    · exact absurd matched' (not_matches failed)
    · exact ih matched further

section Seeking

variable (commits : Commits tape run) (locals : Local tape run) (on : ctx.On tape marks)
include commits locals on

/-- Where the search stands, it goes on as from the token itself. -/
theorem runSkipUntil_seeks
    (settles : ∀ index, ctx.reader.cursor ≤ index → Settles run (ctx.goTo index)) {fuel : Nat}
    {a : Context} {others : List Bookmark} (here : a.On tape others)
    (ahead : ctx.reader.cursor ≤ a.reader.cursor)
    (enough : tape.tokens.length < a.reader.cursor + fuel) :
    Seeks run ctx a.reader.cursor (runSkipUntil run fuel a) := by
  induction fuel generalizing a with
  | zero =>
    have inside := here.inside
    omega
  | succ fuel ih =>
    obtain ⟨canonical, same⟩ := on.goTo ahead here.inside
    have settled := settles _ ahead
    have concurs := locals ⟨canonical, here, same⟩
    have lands := commits here
    simp only [runSkipUntil]
    generalize ran : run (ctx.goTo a.reader.cursor) = result, run a = result' at concurs lands
    obtain @⟨outcome, after, behind, abreast⟩ := concurs
    cases outcome with
    | ok value => exact .found (Nat.le_refl _) .here ⟨after, ran, abreast.same⟩ rfl
    | stuck cause =>
      rw [Settles, ran] at settled
      exact settled.elim
    | failed r =>
      have forward : a.reader.cursor ≤ behind.reader.cursor := by
        cases lands with
        | failed _ forward => exact forward
      rcases Nat.lt_or_ge behind.reader.cursor tape.tokens.length with more | ended
      · obtain ⟨next, moved, there, cursor⟩ := abreast.there.advance more
        have goes : after.reader.atEnd = false := by
          rw [abreast.atEnd, Bool.eq_false_iff, ne_eq, abreast.there.keeps.atEnd]
          omega
        have seeks := ih there (by omega) (by omega)
        rw [cursor, ← abreast.same] at seeks
        simp only [moved]
        generalize runSkipUntil run fuel next = result at seeks
        cases seeks with
        | found further visits matched ends =>
          exact .found (by have := abreast.same; omega) (.next ran goes visits) matched ends
        | missed spent none =>
          refine .missed spent fun later value last visits => ?_
          rcases visits.of_next ran with rfl | ⟨-, further⟩
          · exact not_matches ran
          · exact none later value last further
      · have spent : behind.reader.atEnd = true := abreast.there.keeps.atEnd.mpr ended
        simp only [Context.advance?, abreast.there.keeps.advance_end ended, Option.map_none]
        refine .missed spent fun later value last visits => ?_
        rcases visits.of_next ran with rfl | ⟨more, -⟩
        · exact not_matches ran
        · rw [abreast.atEnd, spent] at more
          cases more

end Seeking

/-- A search that comes to the first match finds it. -/
theorem findsFirst_of_visits {search : Runner α}
    (seeks : Seeks run ctx ctx.reader.cursor (search ctx))
    (visits : ∀ index value last, MatchesFirst run ctx index value last →
      Visits run ctx ctx.reader.cursor index) : FindsFirst run ctx search := by
  constructor
  · intro index value last first
    have come := visits index value last first
    obtain ⟨-, matched, -⟩ := first
    generalize search ctx = result at seeks
    cases seeks with
    | missed _ none => exact absurd matched (none index value last come)
    | found _ visits' matched' ends =>
      obtain rfl := come.unique matched visits' matched'
      obtain ⟨_, read, rfl⟩ := matched
      obtain ⟨_, read', rfl⟩ := matched'
      cases read.symm.trans read'
      exact ⟨_, rfl, ends⟩
  · intro nowhere
    generalize search ctx = result at seeks
    cases seeks with
    | missed spent => exact ⟨_, _, rfl, spent⟩
    | found ahead _ matched => exact absurd matched (nowhere _ _ _ ahead)

/-- Behind the last token there is nothing new to match. -/
theorem MatchesFirst.inside (first : MatchesFirst run ctx i value last) (locals : Local tape run)
    (on : ctx.On tape marks) : i ≤ tape.tokens.length := by
  refine Nat.le_of_not_lt fun beyond => ?_
  obtain ⟨ahead, ⟨after, read, -⟩, none⟩ := first
  obtain ⟨here, cursor⟩ := on.skip (i - ctx.reader.cursor)
  obtain ⟨there, cursor'⟩ := on.goTo on.inside (Nat.le_refl _)
  have concurs := locals ⟨there, here, by rw [cursor, cursor']; omega⟩
  rw [show run (ctx.skip (i - ctx.reader.cursor)) = (.ok value, after) from read] at concurs
  generalize ran : run (ctx.goTo tape.tokens.length) = result at concurs
  cases concurs with
  | both => exact none _ value _ on.inside beyond ⟨_, ran, rfl⟩

/-- If failures leave the reader where it was, the search comes to every token up to the first
match. -/
theorem visits_of_stays (on : ctx.On tape marks)
    (settles : ∀ index, ctx.reader.cursor ≤ index → Settles run (ctx.goTo index))
    (stays : ∀ index r after, run (ctx.goTo index) = (.failed r, after) →
      after.reader.cursor = (ctx.goTo index).reader.cursor)
    (commits : Commits tape run) (first : MatchesFirst run ctx j value last)
    (ahead : ctx.reader.cursor ≤ i) (before : i ≤ j) (inside : j ≤ tape.tokens.length) :
    Visits run ctx i j := by
  obtain ⟨left, same⟩ : ∃ left, left = j - i := ⟨_, rfl⟩
  induction left generalizing i with
  | zero =>
    obtain rfl : i = j := by omega
    exact .here
  | succ left ih =>
    obtain ⟨here, cursor⟩ := on.goTo ahead (by omega)
    have settled := settles i ahead
    rcases ran : run (ctx.goTo i) with ⟨outcome, after⟩
    cases outcome with
    | ok value => exact absurd ⟨after, ran, rfl⟩ (first.2.2 i value _ ahead (by omega))
    | stuck cause =>
      rw [Settles, ran] at settled
      exact settled.elim
    | failed r =>
      have still := (stays i r after ran).trans cursor
      obtain ⟨there, -⟩ := here.after commits ran
      have more : after.reader.atEnd = false := by
        rw [Bool.eq_false_iff, ne_eq, there.keeps.atEnd]
        omega
      exact .next ran more (still ▸ ih (by omega) (by omega) (by omega))

end Parser

/-- Wherever a reader may be, a search with a parser whose runs come to an end comes to an end: with
the match at the token it comes to first, or where the tokens are over. It finds the first match
if it comes to it, and so it does if no failure of the parser moves the reader. -/
theorem Grammar.run_seeks {Rule : Type → Type} (grammar : Grammar Rule) (loops depth : Nat)
    {id : Nat} {source : String} {moves : List Reader.Move} {session : Reader.Session}
    (reached : (Reader.Session.start id source).run moves = some session) (reports : List Report)
    {α : Type} (p : Parser Rule α) (enough : (significantTokens source).length < loops)
    (settles : ∀ index, session.reader.cursor ≤ index →
      Parser.Settles (p.runWith (fun rule => grammar.runRule loops depth rule) loops)
        (Context.goTo ⟨session.reader, reports⟩ index)) :
    let ctx : Context := ⟨session.reader, reports⟩
    let run := p.runWith (fun rule => grammar.runRule loops depth rule) loops
    let search := p.skipUntil.runWith (fun rule => grammar.runRule loops depth rule) loops
    Parser.Seeks run ctx session.reader.cursor (search ctx) ∧
      ((∀ index value last, Parser.MatchesFirst run ctx index value last →
        Parser.Visits run ctx session.reader.cursor index) → Parser.FindsFirst run ctx search) ∧
      ((∀ index r after, run (ctx.goTo index) = (.failed r, after) →
        after.reader.cursor = (ctx.goTo index).reader.cursor) →
        Parser.FindsFirst run ctx search) := by
  intro ctx run search
  have on := Reader.Session.on reached reports
  have commits : Commits (.ofSource source) run :=
    Parser.runWith_commits (grammar.runRule_commits loops depth) loops p
  have locals : Local (.ofSource source) run :=
    Parser.runWith_local (grammar.runRule_local loops depth) loops p
  have seeks : Parser.Seeks run ctx session.reader.cursor (search ctx) :=
    Parser.runSkipUntil_seeks commits locals on settles on (Nat.le_refl _)
      (Nat.lt_add_left _ enough)
  refine ⟨seeks, Parser.findsFirst_of_visits seeks, fun stays => ?_⟩
  apply Parser.findsFirst_of_visits seeks
  intro index value last first
  exact Parser.visits_of_stays on settles stays commits first (Nat.le_refl _) first.1
    (first.inside locals on)

def closedName : Parser (fun _ => Empty) Token :=
  (Parser.token .identifier).andThen (.token .semicolon)

/-- From the first name the run fails behind it, so the search goes on behind the second name. It
comes to the end, although there is a match at the second name. -/
theorem Grammar.run_seeks_passed :
    let ctx : Context := ⟨(Reader.Session.start 0 "a a ;").reader, []⟩
    let run := closedName.runWith (fun rule => Grammar.runRule nofun 4 4 rule) 4
    let search := closedName.skipUntil.runWith (fun rule => Grammar.runRule nofun 4 4 rule) 4
    Parser.Seeks run ctx 0 (search ctx) ∧ (∃ value, Parser.MatchesFirst run ctx 1 value 3) ∧
      ¬Parser.FindsFirst run ctx search := by
  intro ctx run search
  have token (kind : TokenKind) (ctx : Context) : Parser.Settles (Parser.runToken kind) ctx := by
    simp only [Parser.Settles, Parser.runToken]
    split
    · trivial
    · split <;> trivial
  have settles (ctx : Context) : Parser.Settles run ctx :=
    Parser.bind_settles (token _ ctx) fun _ mid _ => token _ mid
  have reached : (Reader.Session.start 0 "a a ;").run [] = some (.start 0 "a a ;") := rfl
  have seeks := Grammar.run_seeks nofun 4 4 reached [] closedName (by decide +kernel)
    fun _ _ => settles _
  obtain ⟨value, read⟩ := Outcome.exists_value (run (ctx.goTo 1)) (by decide +kernel)
  obtain ⟨r, failed⟩ := Outcome.exists_report (run (ctx.goTo 0)) (by decide +kernel)
  obtain ⟨_, ended⟩ := Outcome.exists_report (search ctx) (by decide +kernel)
  have first : Parser.MatchesFirst run ctx 1 value 3 := by
    refine ⟨Nat.zero_le 1, ⟨_, read, by decide +kernel⟩, fun earlier value last _ before => ?_⟩
    obtain rfl : earlier = 0 := by omega
    exact Parser.not_matches failed
  refine ⟨seeks.1, ⟨value, first⟩, fun finds => ?_⟩
  obtain ⟨after, found, -⟩ := finds.found 1 value 3 first
  cases ended.symm.trans found

end Statecraft
