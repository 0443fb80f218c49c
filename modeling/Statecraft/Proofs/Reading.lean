import Statecraft.Proofs.ParserInvariants

/-! What parsers yield. What a parser yields without an error follows from what the
parsers it is made of yield, and for the rules of a grammar from what their parsers
yield. -/
namespace Statecraft

/-- What the runner yields has the property, unless there is an error. -/
def Yields {α : Type} (Good : Token → Prop) (run : Runner α) (Post : α → Prop) : Prop :=
  ∀ ⦃ctx after : Context⦄ ⦃value : α⦄, ctx.reader.Offers Good → run ctx = (.ok value, after) →
    Quiet after.reports → Post value

namespace Parser

variable {Rule : Type → Type} {Good : Token → Prop} {α β : Type} {run : Runner α}

section Values

variable {Post : α → Prop} {Also : β → Prop}

theorem prepend_ok {value : α} {rest : Outcome (List α) × Context} {values : List α}
    {after : Context} (same : prepend value rest = (.ok values, after)) :
    ∃ more, rest = (.ok more, after) ∧ values = value :: more := by
  obtain ⟨outcome, last⟩ := rest
  cases outcome with
  | ok more =>
    cases same
    exact ⟨more, rfl, rfl⟩
  | failed | stuck => cases same

theorem runOrElse_yields {second : Runner α} (steady : Steady Good run)
    (here : Yields Good run Post) (there : Yields Good second Post) :
    Yields Good (runOrElse run second) Post := by
  intro ctx after value offers result quiet
  simp only [runOrElse] at result
  split at result
  · rename_i failed
    split at result
    · cases result
    · split at result
      · cases result
      · exact there ((steady.to_after failed).offers offers) result quiet
  · exact here offers result quiet

theorem runMany_yields (steady : Steady Good run) (body : Yields Good run Post) (fuel : Nat) :
    Yields Good (runMany run fuel) fun xs => ∀ x ∈ xs, Post x := by
  induction fuel with
  | zero => exact fun _ _ _ _ result => by cases result
  | succ fuel ih =>
    intro ctx after values offers result quiet
    simp only [runMany] at result
    split at result
    · cases result
      simp
    · split at result
      · rename_i same
        obtain ⟨more, rest, rfl⟩ := prepend_ok result
        have grown := ((runMany_steady steady fuel).to_after rest).reports
        exact List.forall_mem_cons.mpr ⟨body offers same (quiet.of_prefix grown),
          ih ((steady.to_after same).offers offers) rest quiet⟩
      · split at result <;> cases result
        simp
      · cases result

theorem runManyUntil_yields {stop : Runner β} (steady : Steady Good run)
    (stops : Steady Good stop) (body : Yields Good run Post) (fuel : Nat) :
    Yields Good (runManyUntil run stop fuel) fun xs => ∀ x ∈ xs, Post x := by
  induction fuel with
  | zero => exact fun _ _ _ _ result => by cases result
  | succ fuel ih =>
    intro ctx after values offers result quiet
    simp only [runManyUntil] at result
    split at result
    · cases result
      simp
    · cases result
    · rename_i missing
      split at result
      · cases result
      · have offers := (stops.to_after missing).offers offers
        split at result
        · rename_i same
          obtain ⟨more, rest, rfl⟩ := prepend_ok result
          have grown := ((runManyUntil_steady steady stops fuel).to_after rest).reports
          exact List.forall_mem_cons.mpr ⟨body offers same (quiet.of_prefix grown),
            ih ((steady.to_after same).offers offers) rest quiet⟩
        · cases result
        · cases result

theorem runSeparated_yields {delimiter : Runner β} (steady : Steady Good run)
    (delimits : Steady Good delimiter) (body : Yields Good run Post) (fuel : Nat) :
    Yields Good (runSeparated run delimiter fuel) fun xs => ∀ x ∈ xs, Post x := by
  induction fuel with
  | zero => exact fun _ _ _ _ result => by cases result
  | succ fuel ih =>
    intro ctx after values offers result quiet
    simp only [runSeparated] at result
    split at result
    · split at result <;> cases result
      simp
    · cases result
    · rename_i value mid same
      have next := (steady.to_after same).offers offers
      split at result
      · rename_i delimited
        obtain ⟨more, rest, rfl⟩ := prepend_ok result
        have grown := (delimits.to_after delimited).trans
          ((runSeparated_steady steady delimits fuel).to_after rest)
        exact List.forall_mem_cons.mpr ⟨body offers same (quiet.of_prefix grown.reports),
          ih ((delimits.to_after delimited).offers next) rest quiet⟩
      · rename_i ended
        split at result <;> cases result
        have grown := (delimits.to_after ended).reports
        simpa using body offers same (quiet.of_prefix grown)
      · cases result

theorem runChain_yields {operator : Runner β} {combine : α → β → α → α}
    (steady : Steady Good run) (operates : Steady Good operator) (term : Yields Good run Post)
    (operators : Yields Good operator Also)
    (combines : ∀ left op right, Post left → Also op → Post right → Post (combine left op right))
    (fuel : Nat) {left : α} (here : Post left) :
    Yields Good (runChain run operator combine fuel left) Post := by
  induction fuel generalizing left with
  | zero => exact fun _ _ _ _ result => by cases result
  | succ fuel ih =>
    intro ctx after value offers result quiet
    simp only [runChain] at result
    split at result
    · split at result <;> cases result
      exact here
    · cases result
    · rename_i op mid operated
      have next := (operates.to_after operated).offers offers
      split at result
      · rename_i right last same
        have grown := (runChain_steady steady operates combine fuel _).to_after result
        have earlier := (steady.to_after same).trans grown
        refine ih (combines left op right here ?_ ?_) ((steady.to_after same).offers next) result
          quiet
        · exact operators offers operated (quiet.of_prefix earlier.reports)
        · exact term next same (quiet.of_prefix grown.reports)
      · rename_i other
        exact absurd result (other _ _)

end Values

/-- Rules that lose nothing and yield what is promised of them. -/
structure Serves (Good : Token → Prop) (Promise : (γ : Type) → Rule γ → γ → Prop)
    (rules : ∀ {γ : Type}, Rule γ → Runner γ) : Prop where
  steady : ∀ {γ : Type} (rule : Rule γ), Steady Good (rules rule)
  yields : ∀ {γ : Type} (rule : Rule γ), Yields Good (rules rule) (Promise γ rule)

/-- What the parser yields has the property, if rules yield what is promised of them. -/
def Ensures (Good : Token → Prop) (Promise : (γ : Type) → Rule γ → γ → Prop)
    (p : Parser Rule α) (Post : α → Prop) : Prop :=
  ∀ ⦃rules : ∀ {γ : Type}, Rule γ → Runner γ⦄ ⦃loops : Nat⦄, Serves Good Promise rules →
    Yields Good (p.runWith rules loops) Post

namespace Ensures

variable {Promise : (γ : Type) → Rule γ → γ → Prop} {Post : α → Prop} {Mid : β → Prop}
  {p q : Parser Rule α} {r : Parser Rule β}

theorem trivial (p : Parser Rule α) : Ensures Good Promise p fun _ => True :=
  fun _ _ _ _ _ _ _ _ _ => True.intro

theorem token {kind : TokenKind} {Post : Token → Prop}
    (holds : ∀ t, Good t → t.kind = kind → Post t) :
    Ensures Good Promise (.token kind) Post := by
  intro rules loops serves ctx after value offers result quiet
  simp only [runWith, runToken] at result
  split at result
  · cases result
  · rename_i current
    split at result
    · rename_i same
      cases result
      exact holds _ (Reader.current?_good offers current) same
    · cases result

theorem succeed {value : α} (holds : Post value) : Ensures Good Promise (.succeed value) Post := by
  intro rules loops serves ctx after other offers result quiet
  cases result
  exact holds

theorem bind {next : β → Parser Rule α} (first : Ensures Good Promise r Mid)
    (later : ∀ b, Mid b → Ensures Good Promise (next b) Post) :
    Ensures Good Promise (r.bind next) Post := by
  intro rules loops serves ctx after value offers result quiet
  simp only [runWith] at result
  split at result
  · rename_i b mid same
    have grown := ((runWith_steady serves.steady loops (next b)).to_after result).reports
    have kept := (runWith_steady serves.steady loops r).to_after same
    exact later b (first serves offers same (quiet.of_prefix grown)) serves (kept.offers offers)
      result quiet
  · cases result
  · cases result

theorem map {f : β → α} (here : Ensures Good Promise r Mid) (holds : ∀ b, Mid b → Post (f b)) :
    Ensures Good Promise (r.map f) Post :=
  here.bind fun b mid => succeed (holds b mid)

theorem andThen (here : Ensures Good Promise p Post) (r : Parser Rule β) :
    Ensures Good Promise (r.andThen p) Post :=
  (trivial r).bind fun _ _ => here

theorem followedBy (here : Ensures Good Promise p Post) (r : Parser Rule β) :
    Ensures Good Promise (p.followedBy r) Post :=
  here.bind fun _ post => (trivial r).map fun _ _ => post

theorem orElse (here : Ensures Good Promise p Post) (there : Ensures Good Promise q Post) :
    Ensures Good Promise (p.orElse q) Post :=
  fun _ loops serves => runOrElse_yields (runWith_steady serves.steady loops p) (here serves)
    (there serves)

theorem oneOf {others : List (Parser Rule α)} (here : Ensures Good Promise p Post)
    (there : ∀ q ∈ others, Ensures Good Promise q Post) :
    Ensures Good Promise (oneOf p others) Post := by
  induction others generalizing p with
  | nil => exact here
  | cons q rest ih =>
    exact ih (here.orElse (there q List.mem_cons_self))
      fun q' member => there q' (List.mem_cons_of_mem _ member)

theorem recover (here : Ensures Good Promise p Post) (there : Ensures Good Promise q Post) :
    Ensures Good Promise (p.recover q) Post := by
  intro rules loops serves ctx after value offers result quiet
  simp only [runWith] at result
  split at result
  · rename_i failed
    have kept := (runWith_steady serves.steady loops p).to_after failed
    exact there serves ((kept.trans (.record _ _)).offers offers) result quiet
  · exact here serves offers result quiet

/-- Nothing has to be said about the fallback for failures that are errors. -/
theorem recover_grave (here : Ensures Good Promise p Post)
    (grave : ∀ {rules : ∀ {γ : Type}, Rule γ → Runner γ} {loops ctx r after},
      p.runWith rules loops ctx = (.failed r, after) → r.isError = true) (q : Parser Rule α) :
    Ensures Good Promise (p.recover q) Post := by
  intro rules loops serves ctx after value offers result quiet
  simp only [runWith] at result
  split at result
  · rename_i r mid failed
    have grown := ((runWith_steady serves.steady loops q).to_after result).reports
    have recorded := quiet.of_prefix grown
    simp [Context.record, grave failed] at recorded
  · exact here serves offers result quiet

theorem recoverAs {kind : ReportKind} (severity : kind.severity = .error)
    (here : Ensures Good Promise p Post) (q : Parser Rule α) :
    Ensures Good Promise (p.recoverAs kind q) Post := by
  refine recover_grave ?_ ?_ q
  · intro rules loops serves ctx after value offers result quiet
    simp only [runWith] at result
    split at result
    · cases result
    · exact here serves offers result quiet
  · intro rules loops ctx r after failed
    simp only [runWith] at failed
    split at failed
    · cases failed
      simp [Report.isError, Report.severity, severity]
    · rename_i other
      exact absurd failed (other _ _)

theorem fail_recover {kind : ReportKind} (severity : kind.severity = .error) (q : Parser Rule α) :
    Ensures Good Promise ((Parser.fail kind).recover q) Post := by
  refine recover_grave ?_ ?_ q
  · intro rules loops serves ctx after value offers result quiet
    cases result
  · intro rules loops ctx r after failed
    cases failed
    simp [Report.isError, Report.severity, severity]

theorem many (body : Ensures Good Promise p Post) :
    Ensures Good Promise (.many p) fun xs => ∀ x ∈ xs, Post x :=
  fun _ loops serves => runMany_yields (runWith_steady serves.steady loops p) (body serves) loops

theorem manyUntil (body : Ensures Good Promise p Post) (stop : Parser Rule β) :
    Ensures Good Promise (.manyUntil p stop) fun xs => ∀ x ∈ xs, Post x :=
  fun _ loops serves => runManyUntil_yields (runWith_steady serves.steady loops p)
    (runWith_steady serves.steady loops stop) (body serves) loops

theorem separated (body : Ensures Good Promise p Post) (delimiter : Parser Rule β) :
    Ensures Good Promise (.separated p delimiter) fun xs => ∀ x ∈ xs, Post x :=
  fun _ loops serves => runSeparated_yields (runWith_steady serves.steady loops p)
    (runWith_steady serves.steady loops delimiter) (body serves) loops

theorem chain {combine : α → β → α → α} (term : Ensures Good Promise p Post)
    (operator : Parser Rule β)
    (combines : ∀ left op right, Post left → Post right → Post (combine left op right)) :
    Ensures Good Promise (.chain p operator combine) Post := by
  intro rules loops serves ctx after value offers result quiet
  have terms := runWith_steady serves.steady loops p
  have operators := runWith_steady serves.steady loops operator
  simp only [runWith] at result
  split at result
  · rename_i left mid same
    have grown := ((runChain_steady terms operators combine loops left).to_after result).reports
    have first := term serves offers same (quiet.of_prefix grown)
    refine runChain_yields terms operators (term serves) (trivial operator serves)
      (fun l op r here _ there => combines l op r here there) loops first
      ((terms.to_after same).offers offers) result quiet
  · exact term serves offers result quiet

theorem call (rule : Rule α) : Ensures Good Promise (.call rule) (Promise α rule) :=
  fun _ _ serves => serves.yields rule

end Ensures
end Parser

namespace Grammar

variable {Rule : Type → Type} {Good : Token → Prop} {Promise : (γ : Type) → Rule γ → γ → Prop}
  {grammar : Grammar Rule} {α : Type} {p : Parser Rule α} {Post : α → Prop}

/-- The rules of a grammar keep their promises if their parsers do. -/
theorem runRule_serves
    (kept : ∀ {γ : Type} (rule : Rule γ), (grammar rule).Ensures Good Promise (Promise γ rule))
    (loops depth : Nat) :
    Parser.Serves Good Promise (fun rule => runRule grammar loops depth rule) := by
  induction depth with
  | zero => exact ⟨fun _ => Context.Extends.refl, fun _ _ _ _ _ result => by cases result⟩
  | succ depth ih =>
    exact ⟨fun rule => Parser.runWith_steady ih.steady loops (grammar rule),
      fun rule => kept rule ih⟩

/-- What is read without an error from good tokens has the property. -/
theorem parse_yields
    (kept : ∀ {γ : Type} (rule : Rule γ), (grammar rule).Ensures Good Promise (Promise γ rule))
    (ensures : p.Ensures Good Promise Post) (fuel : Nat) {lexemes : List Lexeme}
    (good : ∀ x ∈ lexemes, ∀ t ∈ x.significant?, Good t)
    (quiet : Quiet (grammar.parse fuel p lexemes).reports) {value : α}
    (parsed : (grammar.parse fuel p lexemes).value = some value) : Post value := by
  have offers : (Context.start lexemes).reader.Offers Good :=
    Reader.fill_offers (r := ⟨0, lexemes, .first, [], 0, 0, [], 0⟩) ⟨by simp, good⟩
  have yields : Yields Good (grammar.run fuel p) Post := ensures (runRule_serves kept fuel fuel)
  simp only [parse] at quiet parsed
  split at parsed
  · rename_i other after same
    simp only [same] at quiet
    split at parsed <;> rename_i current <;> rw [current] at quiet <;> cases parsed
    · exact yields offers same quiet
    · refine yields offers same (quiet.of_prefix ?_)
      exact (List.prefix_append _ _).trans (List.prefix_append _ _)
  · cases parsed
  · cases parsed

end Grammar
end Statecraft
