import Statecraft.Proofs.Subruns
import Statecraft.Proofs.Reading

/-! What repetitions read. When one succeeds, the tokens it has passed are those of its successful
runs, one after the other. A run that fails behind its start fails the repetition, with one
exception: a list with delimiters ends there if the tokens are over, and the tokens of that run
are lost. -/
namespace Statecraft

namespace Tape

variable {tape : Tape} {i j k : Nat}

def between (tape : Tape) (i j : Nat) : List Token := (tape.tokens.take j).drop i

theorem between_self (tape : Tape) (i : Nat) : tape.between i i = [] :=
  List.drop_eq_nil_of_le (List.length_take_le i tape.tokens)

theorem between_append (before : i ≤ j) (behind : j ≤ k) (inside : j ≤ tape.tokens.length) :
    tape.between i j ++ tape.between j k = tape.between i k := by
  have split := (List.take_append_drop j (tape.tokens.take k)).symm
  rw [List.take_take, Nat.min_eq_left behind] at split
  have room : i ≤ (tape.tokens.take j).length := by
    rw [List.length_take]
    omega
  calc tape.between i j ++ tape.between j k
      = (tape.tokens.take j ++ (tape.tokens.take k).drop j).drop i :=
        (List.drop_append_of_le_length room).symm
    _ = tape.between i k := by rw [← split, between]

end Tape

/-- What a successful run has read, with its value if it is the run of an item. -/
structure Portion (α : Type) where
  value? : Option α
  tokens : List Token

namespace Parser

variable {Rule : Type → Type} {rules : ∀ {γ : Type}, Rule γ → Runner γ} {loops : Nat} {tape : Tape}
  {marks : List Bookmark} {α β γ : Type} {item : Runner α} {other : Runner β}
  {ctx mid after : Context} {r : Report}

section Gathering

variable (tape : Tape) (item : Runner α) (other : Runner β)

/-- Runs of two parsers, each from where the one before has ended. Those that succeed read a
portion, and those that fail leave the reader where it is. -/
inductive Gathers : Context → List (Portion α) → Context → Prop where
  | done {ctx : Context} : Gathers ctx [] ctx
  | item {ctx mid last : Context} {value : α} {portions : List (Portion α)}
      (read : item ctx = (.ok value, mid)) (rest : Gathers mid portions last) :
      Gathers ctx (⟨some value, tape.between ctx.reader.cursor mid.reader.cursor⟩ :: portions) last
  | other {ctx mid last : Context} {value : β} {portions : List (Portion α)}
      (read : other ctx = (.ok value, mid)) (rest : Gathers mid portions last) :
      Gathers ctx (⟨none, tape.between ctx.reader.cursor mid.reader.cursor⟩ :: portions) last
  | noItem {ctx mid last : Context} {r : Report} {portions : List (Portion α)}
      (refused : item ctx = (.failed r, mid)) (stays : mid.reader.cursor = ctx.reader.cursor)
      (rest : Gathers mid portions last) : Gathers ctx portions last
  | noOther {ctx mid last : Context} {r : Report} {portions : List (Portion α)}
      (refused : other ctx = (.failed r, mid)) (stays : mid.reader.cursor = ctx.reader.cursor)
      (rest : Gathers mid portions last) : Gathers ctx portions last

/-- The portions with these values are gathered, and together they are all that was passed. -/
def Gathered (ctx : Context) (values : List (Option α)) (last : Context) : Prop :=
  ∃ portions, Gathers tape item other ctx portions last ∧ portions.map Portion.value? = values ∧
    portions.flatMap Portion.tokens = tape.between ctx.reader.cursor last.reader.cursor

/-- A run of either parser fails behind its start where the tokens are over. -/
def Loses (ctx : Context) (r : Report) (last : Context) : Prop :=
  (item ctx = (.failed r, last) ∨ other ctx = (.failed r, last)) ∧
    ctx.reader.cursor < last.reader.cursor ∧ last.reader.atEnd = true

/-- Every item is followed by a delimiter, the last one perhaps by none. -/
def Delimited (values : List α) (portions : List (Option α)) : Prop :=
  portions = values.flatMap (fun v => [some v, none]) ∨
    portions ++ [none] = values.flatMap (fun v => [some v, none])

end Gathering

theorem Delimited.cons {values : List α} {portions : List (Option α)}
    (delimited : Delimited values portions) (value : α) :
    Delimited (value :: values) (some value :: none :: portions) :=
  delimited.imp (congrArg ([some value, none] ++ ·)) (congrArg ([some value, none] ++ ·))

namespace Gathers

variable {portions : List (Portion α)} {last : Context}

theorem on (body : Commits tape item) (others : Commits tape other) (on : ctx.On tape marks)
    (gathers : Gathers tape item other ctx portions last) :
    last.On tape marks ∧ ctx.reader.cursor ≤ last.reader.cursor := by
  induction gathers with
  | done => exact ⟨on, Nat.le_refl _⟩
  | item read _ ih =>
    obtain ⟨there, forward⟩ := on.after body read
    exact ⟨(ih there).1, Nat.le_trans forward (ih there).2⟩
  | other read _ ih =>
    obtain ⟨there, forward⟩ := on.after others read
    exact ⟨(ih there).1, Nat.le_trans forward (ih there).2⟩
  | noItem refused _ _ ih =>
    obtain ⟨there, forward⟩ := on.after body refused
    exact ⟨(ih there).1, Nat.le_trans forward (ih there).2⟩
  | noOther refused _ _ ih =>
    obtain ⟨there, forward⟩ := on.after others refused
    exact ⟨(ih there).1, Nat.le_trans forward (ih there).2⟩

/-- The portions are all that was passed. -/
theorem tokens (body : Commits tape item) (others : Commits tape other) (on : ctx.On tape marks)
    (gathers : Gathers tape item other ctx portions last) :
    portions.flatMap Portion.tokens = tape.between ctx.reader.cursor last.reader.cursor := by
  induction gathers with
  | done => exact (tape.between_self _).symm
  | item read rest ih =>
    obtain ⟨there, forward⟩ := on.after body read
    rw [List.flatMap_cons, ih there]
    exact Tape.between_append forward (rest.on body others there).2 there.inside
  | other read rest ih =>
    obtain ⟨there, forward⟩ := on.after others read
    rw [List.flatMap_cons, ih there]
    exact Tape.between_append forward (rest.on body others there).2 there.inside
  | noItem refused stays _ ih => exact stays ▸ ih (on.after body refused).1
  | noOther refused stays _ ih => exact stays ▸ ih (on.after others refused).1

end Gathers

section Success

variable (body : Commits tape item)
include body

theorem runMany_gathers (fuel : Nat) {values : List α} (on : ctx.On tape marks)
    (read : runMany item fuel ctx = (.ok values, after)) :
    ∃ portions, Gathers tape item other ctx portions after ∧
      portions.map Portion.value? = values.map some := by
  induction fuel generalizing ctx values with
  | zero => cases read
  | succ fuel ih =>
    simp only [runMany] at read
    split at read
    · cases read
      exact ⟨[], .done, rfl⟩
    · split at read
      · rename_i value mid ran
        obtain ⟨more, rest, rfl⟩ := prepend_ok read
        obtain ⟨portions, gathers, shape⟩ := ih (on.after body ran).1 rest
        exact ⟨_ :: portions, .item ran gathers, congrArg (some value :: ·) shape⟩
      · rename_i r mid ran
        split at read <;> cases read
        rename_i refused
        exact ⟨[], .noItem ran (on.stays body ran (Bool.not_eq_true _ ▸ refused)) .done, rfl⟩
      · cases read

variable (others : Commits tape other)
include others

theorem Gathered.of_gathers {portions : List (Portion α)} {last : Context} (on : ctx.On tape marks)
    (gathers : Gathers tape item other ctx portions last) :
    Gathered tape item other ctx (portions.map Portion.value?) last :=
  ⟨portions, gathers, rfl, gathers.tokens body others on⟩

theorem runManyUntil_gathers (fuel : Nat) {values : List α} (on : ctx.On tape marks)
    (read : runManyUntil item other fuel ctx = (.ok values, after)) :
    ∃ portions, Gathers tape item other ctx portions after ∧
      portions.map Portion.value? = values.map some ++ [none] := by
  induction fuel generalizing ctx values with
  | zero => cases read
  | succ fuel ih =>
    simp only [runManyUntil] at read
    split at read
    · rename_i stopped
      cases read
      exact ⟨_, .other stopped .done, rfl⟩
    · cases read
    · rename_i missing mid refused
      split at read
      · cases read
      · rename_i goes
        simp only [Bool.or_eq_true, not_or, Bool.not_eq_true] at goes
        have stays := on.stays others refused goes.1
        have there := (on.after others refused).1
        split at read
        · rename_i value last ran
          obtain ⟨more, rest, rfl⟩ := prepend_ok read
          obtain ⟨portions, gathers, shape⟩ := ih (there.after body ran).1 rest
          exact ⟨_, .noOther refused stays (.item ran gathers), congrArg (some value :: ·) shape⟩
        · cases read
        · cases read

/-- A list with delimiters is what it gathers, or else a run behind that has failed where the
tokens are over. The last item may have no delimiter behind it. -/
theorem runSeparated_gathers (fuel : Nat) {values : List α} (on : ctx.On tape marks)
    (read : runSeparated item other fuel ctx = (.ok values, after)) :
    ∃ portions, Delimited values (portions.map Portion.value?) ∧
      (Gathers tape item other ctx portions after ∨
        ∃ mid r, Gathers tape item other ctx portions mid ∧ Loses item other mid r after) := by
  induction fuel generalizing ctx values with
  | zero => cases read
  | succ fuel ih =>
    simp only [runSeparated] at read
    split at read
    · rename_i r mid failed
      split at read <;> cases read
      refine ⟨[], .inl rfl, ?_⟩
      rcases on.ends body failed ‹_› with same | ⟨moved, spent⟩
      · exact .inl (.noItem failed same .done)
      · exact .inr ⟨ctx, r, .done, .inl failed, moved, spent⟩
    · cases read
    · rename_i value mid ran
      obtain ⟨there, -⟩ := on.after body ran
      split at read
      · rename_i delimited
        obtain ⟨more, rest, rfl⟩ := prepend_ok read
        obtain ⟨portions, shape, gathered⟩ := ih (there.after others delimited).1 rest
        have longer {tokens others : List Token} : Delimited (value :: more)
            ((⟨some value, tokens⟩ :: ⟨none, others⟩ :: portions : List (Portion α)).map
              Portion.value?) := shape.cons value
        rcases gathered with gathers | ⟨last, r, gathers, loses⟩
        · exact ⟨_, longer, .inl (.item ran (.other delimited gathers))⟩
        · exact ⟨_, longer, .inr ⟨last, r, .item ran (.other delimited gathers), loses⟩⟩
      · rename_i r last failed
        split at read <;> cases read
        have single {tokens : List Token} :
            Delimited [value] ([⟨some value, tokens⟩].map Portion.value?) := .inr rfl
        rcases there.ends others failed ‹_› with same | ⟨moved, spent⟩
        · exact ⟨_, single, .inl (.item ran (.noOther failed same .done))⟩
        · exact ⟨_, single, .inr ⟨mid, r, .item ran .done, .inr failed, moved, spent⟩⟩
      · cases read

end Success

section Failure

variable (rules : ∀ {γ : Type}, Rule γ → Runner γ) (loops : Nat)

/-- In a round of a repetition that begins in the first context, a run fails: the second context
is where it starts and the third one where it ends. -/
def Misses : {α : Type} → Parser Rule α → Context → Context → Report → Context → Prop
  | _, .many body, a, there, r, after =>
      a.reader.atEnd = false ∧ there = a ∧ body.runWith rules loops a = (.failed r, after)
  | _, .manyUntil body stop, a, there, r, after =>
      there = a ∧ stop.runWith rules loops a = (.failed r, after) ∨
      ∃ missing, stop.runWith rules loops a = (.failed missing, there) ∧
        progressed a.reader.location missing = false ∧ there.reader.atEnd = false ∧
        body.runWith rules loops there = (.failed r, after)
  | _, .separated body delimiter, a, there, r, after =>
      there = a ∧ body.runWith rules loops a = (.failed r, after) ∨
      ∃ value, body.runWith rules loops a = (.ok value, there) ∧
        delimiter.runWith rules loops there = (.failed r, after)
  | _, _, _, _, _, _ => False

/-- In the course of a repetition a run fails behind its start. -/
def Breaks (p : Parser Rule α) (ctx : Context) (r : Report) (after : Context) : Prop :=
  ∃ a there, Relation.ReflTransGen (Turns rules loops p) ctx a ∧
    Misses rules loops p a there r after ∧ there.reader.cursor < after.reader.cursor

end Failure

section Propagation

variable {body : Parser Rule α} {second : Parser Rule β} {p : Parser Rule γ} {a there : Context}

theorem settled_of_prepend {value : α} {result : Outcome (List α) × Context}
    (settled : (prepend value result).1.Settled) : result.1.Settled := by
  obtain ⟨outcome, after⟩ := result
  cases outcome with
  | ok | failed => exact trivial
  | stuck => exact settled

/-- From a round that fails the failure gets through all the rounds before it. -/
theorem runMany_breaks (course : Relation.ReflTransGen (Turns rules loops body.many) ctx a)
    (more : a.reader.atEnd = false) (failed : body.runWith rules loops a = (.failed r, after))
    (moved : progressed a.reader.location r = true) {fuel : Nat}
    (settled : (runMany (body.runWith rules loops) fuel ctx).1.Settled) :
    runMany (body.runWith rules loops) fuel ctx = (.failed r, after) := by
  induction course using Relation.ReflTransGen.head_induction_on generalizing fuel with
  | refl =>
    cases fuel with
    | zero => exact settled.elim
    | succ fuel => simp [runMany, more, failed, moved]
  | head turns _ ih =>
    cases fuel with
    | zero => exact settled.elim
    | succ fuel =>
      obtain ⟨goes, value, read⟩ := turns
      simp only [runMany, goes, read, Bool.false_eq_true, if_false] at settled ⊢
      rw [ih (settled_of_prepend settled)]
      rfl

theorem runManyUntil_breaks
    (course : Relation.ReflTransGen (Turns rules loops (body.manyUntil second)) ctx a)
    (failed : Misses rules loops (body.manyUntil second) a there r after)
    (moved : progressed a.reader.location r = true) {fuel : Nat}
    (settled : (runManyUntil (body.runWith rules loops) (second.runWith rules loops) fuel
      ctx).1.Settled) :
    runManyUntil (body.runWith rules loops) (second.runWith rules loops) fuel ctx =
      (.failed r, after) := by
  induction course using Relation.ReflTransGen.head_induction_on generalizing fuel with
  | refl =>
    cases fuel with
    | zero => exact settled.elim
    | succ fuel =>
      rcases failed with ⟨-, stopped⟩ | ⟨missing, refused, stays, more, failed⟩
      · simp [runManyUntil, stopped, moved]
      · simp [runManyUntil, refused, stays, more, failed, moved]
  | head turns _ ih =>
    cases fuel with
    | zero => exact settled.elim
    | succ fuel =>
      obtain ⟨missing, mid, value, refused, stays, more, read⟩ := turns
      simp only [runManyUntil, refused, stays, more, read, Bool.or_false, Bool.false_eq_true,
        if_false] at settled ⊢
      rw [ih (settled_of_prepend settled)]
      rfl

/-- The failure gets through if there are tokens left, and is lost otherwise. -/
theorem runSeparated_breaks
    (course : Relation.ReflTransGen (Turns rules loops (body.separated second)) ctx a)
    (failed : Misses rules loops (body.separated second) a there r after)
    (moved : progressed there.reader.location r = true) {fuel : Nat}
    (settled : (runSeparated (body.runWith rules loops) (second.runWith rules loops) fuel
      ctx).1.Settled) :
    (after.reader.atEnd = false → runSeparated (body.runWith rules loops)
      (second.runWith rules loops) fuel ctx = (.failed r, after)) ∧
    (after.reader.atEnd = true → ∃ values, runSeparated (body.runWith rules loops)
      (second.runWith rules loops) fuel ctx = (.ok values, after)) := by
  induction course using Relation.ReflTransGen.head_induction_on generalizing fuel with
  | refl =>
    cases fuel with
    | zero => exact settled.elim
    | succ fuel =>
      rcases failed with ⟨rfl, failed⟩ | ⟨value, read, failed⟩
      · constructor <;> intro ended <;> simp [runSeparated, failed, endsList, moved, ended]
      · constructor <;> intro ended <;> simp [runSeparated, read, failed, endsList, moved, ended]
  | head turns _ ih =>
    cases fuel with
    | zero => exact settled.elim
    | succ fuel =>
      obtain ⟨value, between, mid, read, delimited⟩ := turns
      simp only [runSeparated, read, delimited] at settled ⊢
      obtain ⟨fails, ends⟩ := ih (settled_of_prepend settled)
      constructor
      · intro more
        rw [fails more]
        rfl
      · intro spent
        obtain ⟨values, same⟩ := ends spent
        exact ⟨value :: values, by rw [same]; rfl⟩

variable (commits : ∀ {γ : Type} (rule : Rule γ), Commits tape (rules rule))
include commits

theorem course_on (on : ctx.On tape marks)
    (course : Relation.ReflTransGen (Turns rules loops p) ctx a) : a.On tape marks := by
  induction course with
  | refl => exact on
  | tail _ turns ih => exact (turns.on commits ih).1

theorem many_breaks (on : ctx.On tape marks) (breaks : Breaks rules loops body.many ctx r after)
    (settled : Settles (body.many.runWith rules loops) ctx) :
    body.many.runWith rules loops ctx = (.failed r, after) := by
  obtain ⟨a, there, course, ⟨more, rfl, failed⟩, moved⟩ := breaks
  have here := course_on commits on course
  have behind := here.behind (runWith_commits commits loops body) failed moved
  exact runMany_breaks course more failed behind settled

/-- A run of the stop or of an item starts where its round begins, in terms of tokens. -/
theorem manyUntil_breaks (on : ctx.On tape marks)
    (breaks : Breaks rules loops (body.manyUntil second) ctx r after)
    (settled : Settles ((body.manyUntil second).runWith rules loops) ctx) :
    (body.manyUntil second).runWith rules loops ctx = (.failed r, after) := by
  obtain ⟨a, there, course, misses, moved⟩ := breaks
  have here := course_on commits on course
  refine runManyUntil_breaks course misses ?_ settled
  rcases misses with ⟨rfl, stopped⟩ | ⟨missing, refused, unmoved, -, failed⟩
  · exact here.behind (runWith_commits commits loops second) stopped moved
  · -- The stop has left the reader at the token where the round began.
    have stays := here.stays (runWith_commits commits loops second) refused unmoved
    obtain ⟨there', -⟩ := here.after (runWith_commits commits loops second) refused
    rw [here.keeps.location, ← stays, ← there'.keeps.location]
    exact there'.behind (runWith_commits commits loops body) failed moved

theorem separated_breaks (on : ctx.On tape marks)
    (breaks : Breaks rules loops (body.separated second) ctx r after)
    (settled : Settles ((body.separated second).runWith rules loops) ctx) :
    (after.reader.atEnd = false →
      (body.separated second).runWith rules loops ctx = (.failed r, after)) ∧
    (after.reader.atEnd = true → ∃ values,
      (body.separated second).runWith rules loops ctx = (.ok values, after)) := by
  obtain ⟨a, there, course, misses, moved⟩ := breaks
  have here := course_on commits on course
  refine runSeparated_breaks course misses ?_ settled
  rcases misses with ⟨rfl, failed⟩ | ⟨value, read, failed⟩
  · exact here.behind (runWith_commits commits loops body) failed moved
  · obtain ⟨there', -⟩ := here.after (runWith_commits commits loops body) read
    exact there'.behind (runWith_commits commits loops second) failed moved

end Propagation

/-- What is known of repetitions that start in the context. -/
structure Repeats (rules : ∀ {γ : Type}, Rule γ → Runner γ) (loops : Nat) (tape : Tape)
    (item : Parser Rule α) (other : Parser Rule β) (ctx : Context) : Prop where
  many : ∀ values after, item.many.runWith rules loops ctx = (.ok values, after) →
    Gathered tape (item.runWith rules loops) (other.runWith rules loops) ctx (values.map some) after
  manyUntil : ∀ values after,
    (item.manyUntil other).runWith rules loops ctx = (.ok values, after) →
    Gathered tape (item.runWith rules loops) (other.runWith rules loops) ctx
      (values.map some ++ [none]) after
  separated : ∀ values after,
    (item.separated other).runWith rules loops ctx = (.ok values, after) →
    ∃ portions, Delimited values portions ∧
      (Gathered tape (item.runWith rules loops) (other.runWith rules loops) ctx portions after ∨
        ∃ mid r,
          Gathered tape (item.runWith rules loops) (other.runWith rules loops) ctx portions mid ∧
          Loses (item.runWith rules loops) (other.runWith rules loops) mid r after)
  many_fails : ∀ r after, Breaks rules loops item.many ctx r after →
    Settles (item.many.runWith rules loops) ctx →
    item.many.runWith rules loops ctx = (.failed r, after)
  manyUntil_fails : ∀ r after, Breaks rules loops (item.manyUntil other) ctx r after →
    Settles ((item.manyUntil other).runWith rules loops) ctx →
    (item.manyUntil other).runWith rules loops ctx = (.failed r, after)
  separated_fails : ∀ r after, Breaks rules loops (item.separated other) ctx r after →
    Settles ((item.separated other).runWith rules loops) ctx →
    (after.reader.atEnd = false →
      (item.separated other).runWith rules loops ctx = (.failed r, after)) ∧
    (after.reader.atEnd = true → ∃ values,
      (item.separated other).runWith rules loops ctx = (.ok values, after))

theorem repeats {rules : ∀ {γ : Type}, Rule γ → Runner γ}
    (commits : ∀ {γ : Type} (rule : Rule γ), Commits tape (rules rule)) (on : ctx.On tape marks)
    (item : Parser Rule α) (other : Parser Rule β) : Repeats rules loops tape item other ctx := by
  have body : Commits tape (item.runWith rules loops) := runWith_commits commits loops item
  have others : Commits tape (other.runWith rules loops) := runWith_commits commits loops other
  constructor
  case many =>
    intro values after read
    obtain ⟨portions, gathers, shape⟩ := runMany_gathers body loops on read
    exact shape ▸ .of_gathers body others on gathers
  case manyUntil =>
    intro values after read
    obtain ⟨portions, gathers, shape⟩ := runManyUntil_gathers body others loops on read
    exact shape ▸ .of_gathers body others on gathers
  case separated =>
    intro values after read
    obtain ⟨portions, shape, gathered⟩ := runSeparated_gathers body others loops on read
    refine ⟨_, shape, ?_⟩
    rcases gathered with gathers | ⟨mid, r, gathers, loses⟩
    · exact .inl (.of_gathers body others on gathers)
    · exact .inr ⟨mid, r, .of_gathers body others on gathers, loses⟩
  case many_fails => exact fun r after => many_breaks commits on
  case manyUntil_fails => exact fun r after => manyUntil_breaks commits on
  case separated_fails => exact fun r after => separated_breaks commits on

end Parser

/-- Wherever a reader may be, a repetition that succeeds has read what its successful runs have
read, and a run that fails behind its start fails it. But a list with delimiters does not fail if
the tokens are over: it yields the items so far, and what the last run has passed belongs to
none. -/
theorem Grammar.run_repeats {Rule : Type → Type} (grammar : Grammar Rule) (loops depth : Nat)
    {id : Nat} {source : String} {moves : List Reader.Move} {session : Reader.Session}
    (reached : (Reader.Session.start id source).run moves = some session) (reports : List Report)
    {α β : Type} (item : Parser Rule α) (other : Parser Rule β) :
    Parser.Repeats (fun rule => grammar.runRule loops depth rule) loops (.ofSource source) item
      other ⟨session.reader, reports⟩ :=
  Parser.repeats (grammar.runRule_commits loops depth) (Reader.Session.on reached reports) item
    other

def closedNumber : Parser (fun _ => Empty) Token :=
  (Parser.token .number).followedBy (.token .semicolon)

/-- The second number has no semicolon, which makes its run fail behind the number. The list
succeeds all the same and the number is lost. -/
theorem Grammar.run_repeats_lost :
    ∃ r after values,
      Parser.Breaks (fun rule => Grammar.runRule nofun 3 3 rule) 3
        (closedNumber.separated (.token .comma)) ⟨(Reader.Session.start 0 "1;,2").reader, []⟩ r
        after ∧
      (closedNumber.separated (.token .comma)).runWith
          (fun rule => Grammar.runRule nofun 3 3 rule) 3
          ⟨(Reader.Session.start 0 "1;,2").reader, []⟩ = (.ok values, after) := by
  let run {α : Type} (p : Parser (fun _ => Empty) α) : Runner α :=
    p.runWith (fun rule => Grammar.runRule nofun 3 3 rule) 3
  let start : Context := ⟨(Reader.Session.start 0 "1;,2").reader, []⟩
  let comma : Context := (run closedNumber start).2
  let second : Context := (run (.token .comma) comma).2
  obtain ⟨value, read⟩ :=
    Outcome.exists_value (run closedNumber start) (by decide +kernel)
  obtain ⟨between, delimited⟩ :=
    Outcome.exists_value (run (.token .comma) comma) (by decide +kernel)
  obtain ⟨r, failed⟩ :=
    Outcome.exists_report (run closedNumber second) (by decide +kernel)
  obtain ⟨values, listed⟩ := Outcome.exists_value
    (run (closedNumber.separated (.token .comma)) start) (by decide +kernel)
  have breaks : Parser.Breaks (fun rule => Grammar.runRule nofun 3 3 rule) 3
      (closedNumber.separated (.token .comma)) start r (run closedNumber second).2 :=
    ⟨second, second, .single ⟨value, between, comma, read, delimited⟩, .inl ⟨rfl, failed⟩,
      by decide +kernel⟩
  have reached : (Reader.Session.start 0 "1;,2").run [] = some (.start 0 "1;,2") := rfl
  have repeats := Grammar.run_repeats nofun 3 3 reached [] closedNumber (.token .comma)
  have settled : Parser.Settles (run (closedNumber.separated (.token .comma))) start := by
    rw [Parser.Settles, listed]
    trivial
  obtain ⟨values, lost⟩ := (repeats.separated_fails r _ breaks settled).2 (by decide +kernel)
  exact ⟨r, _, values, breaks, lost⟩

end Statecraft
