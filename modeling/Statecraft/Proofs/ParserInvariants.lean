import Statecraft.Parser.Run
import Statecraft.Proofs.Expression

/-! Running a parser loses nothing: the reader comes to tokens of the source only, and
no report is taken back. -/
namespace Statecraft

/-- Every token that the reader can still come to has the property. -/
def Reader.Offers (Good : Token → Prop) (r : Reader) : Prop :=
  (∀ t ∈ r.window, Good t) ∧ ∀ x ∈ r.pending, ∀ t ∈ x.significant?, Good t

namespace Reader

variable {Good : Token → Prop} {r : Reader}

theorem pull_good (frontier : Location) (lexemes : List Lexeme)
    (good : ∀ x ∈ lexemes, ∀ t ∈ x.significant?, Good t) :
    (∀ t ∈ (pull frontier lexemes).token?, Good t) ∧
      ∀ x ∈ (pull frontier lexemes).pending, ∀ t ∈ x.significant?, Good t := by
  induction lexemes generalizing frontier with
  | nil => simp [pull]
  | cons x rest ih =>
    have later : ∀ y ∈ rest, ∀ t ∈ y.significant?, Good t :=
      fun y member => good y (List.mem_cons_of_mem _ member)
    simp only [pull]
    split
    · rename_i t found
      refine ⟨?_, later⟩
      rintro _ ⟨⟩
      exact good x List.mem_cons_self t found
    · exact ih x.next later

theorem fill_offers (offers : r.Offers Good) : r.fill.1.Offers Good := by
  simp only [fill]
  split
  · obtain ⟨token, pending⟩ := pull_good r.frontier r.pending offers.2
    refine ⟨?_, pending⟩
    intro t member
    rcases List.mem_append.mp member with old | new
    · exact offers.1 t old
    · exact token t (Option.mem_toList.mp new)
  · exact offers

theorem prune_offers (offers : r.Offers Good) : r.prune.Offers Good :=
  ⟨fun t member => offers.1 t (List.mem_of_mem_drop member), offers.2⟩

theorem discard_offers (mark : Bookmark) (offers : r.Offers Good) :
    (r.discard mark).Offers Good := by
  simp only [discard]
  split
  · exact prune_offers offers
  · exact offers

theorem current?_good {t : Token} (offers : r.Offers Good) (current : r.current? = some t) :
    Good t := by
  simp only [current?] at current
  split at current
  · contradiction
  · exact offers.1 t (List.mem_of_getElem? current)

end Reader

/-- Nothing is lost from one context to another: the tokens stay good and no report is
taken back. -/
structure Context.Extends (Good : Token → Prop) (ctx after : Context) : Prop where
  offers : ctx.reader.Offers Good → after.reader.Offers Good
  reports : ctx.reports <+: after.reports

namespace Context.Extends

variable {Good : Token → Prop} {a b c : Context}

theorem refl (ctx : Context) : ctx.Extends Good ctx := ⟨id, List.prefix_refl _⟩

theorem trans (first : a.Extends Good b) (second : b.Extends Good c) : a.Extends Good c :=
  ⟨fun offers => second.offers (first.offers offers), first.reports.trans second.reports⟩

theorem record (ctx : Context) (r : Report) : ctx.Extends Good (ctx.record r) :=
  ⟨id, List.prefix_append _ _⟩

theorem advance {next : Context} (moved : a.advance? = some next) : a.Extends Good next := by
  simp only [Context.advance?, Reader.advance?, Option.map_eq_some_iff] at moved
  obtain ⟨_, moved, rfl⟩ := moved
  split at moved
  · contradiction
  · cases moved
    refine ⟨fun offers => Reader.prune_offers (Reader.fill_offers ?_), List.prefix_append _ _⟩
    exact ⟨offers.1, offers.2⟩

theorem rewind {α : Type} (ctx : Context) (mark : Bookmark) {next : Runner α}
    (later : ∀ ctx : Context, ctx.Extends Good (next ctx).2) :
    ctx.Extends Good (ctx.rewind mark next).2 := by
  simp only [Context.rewind, Reader.backtrack]
  split
  · rename_i reader back
    split at back
    · contradiction
    · split at back
      · contradiction
      · cases back
        refine trans ?_ (later _)
        exact ⟨fun offers => ⟨offers.1, offers.2⟩, List.prefix_refl _⟩
  · exact refl ctx

end Context.Extends

/-- Whatever the runner does, nothing is lost. -/
def Steady {α : Type} (Good : Token → Prop) (run : Runner α) : Prop :=
  ∀ ctx : Context, ctx.Extends Good (run ctx).2

theorem Steady.to_after {α : Type} {Good : Token → Prop} {run : Runner α} {ctx after : Context}
    {outcome : Outcome α} (steady : Steady Good run) (same : run ctx = (outcome, after)) :
    ctx.Extends Good after := by
  have extended := steady ctx
  rwa [same] at extended

namespace Parser

variable {Rule : Type → Type} {Good : Token → Prop} {α β : Type} {run : Runner α}

theorem marked_steady {finish : Bookmark → Outcome α → Runner α} (first : Steady Good run)
    (second : ∀ mark outcome, Steady Good (finish mark outcome)) :
    Steady Good (marked run finish) := by
  intro ctx
  let opened : Context := { ctx with reader := ctx.reader.bookmark.2 }
  have opens : ctx.Extends Good opened :=
    ⟨fun offers => ⟨offers.1, offers.2⟩, List.prefix_refl _⟩
  refine (opens.trans (first opened)).trans ?_
  refine (second ctx.reader.bookmark.1 (run opened).1 (run opened).2).trans ?_
  exact ⟨Reader.discard_offers _, List.prefix_refl _⟩

theorem runToken_steady (kind : TokenKind) : Steady Good (runToken kind) := by
  intro ctx
  simp only [runToken]
  split
  · exact .refl ctx
  · split
    · cases moved : ctx.advance? with
      | none => exact .refl ctx
      | some next => exact .advance moved
    · exact .refl ctx

theorem runFinish_steady : Steady Good runFinish := by
  intro ctx
  simp only [runFinish]
  split <;> exact .refl ctx

theorem runOrElse_steady {second : Runner α} (here : Steady Good run)
    (there : Steady Good second) : Steady Good (runOrElse run second) := by
  intro ctx
  have first := here ctx
  simp only [runOrElse]
  split
  · rename_i r after failed
    rw [failed] at first
    split
    · exact first
    · have both := first.trans (there after)
      split
      · rename_i failed'
        rwa [failed'] at both
      · exact both
  · exact first

theorem runSkipUntil_steady (body : Steady Good run) (fuel : Nat) :
    Steady Good (runSkipUntil run fuel) := by
  induction fuel with
  | zero => exact Context.Extends.refl
  | succ fuel ih =>
    intro ctx
    have first := body ctx
    simp only [runSkipUntil]
    split
    · rename_i failed
      rw [failed] at first
      split
      · rename_i moved
        exact first.trans ((Context.Extends.advance moved).trans (ih _))
      · exact first
    · exact first

theorem runMany_steady (body : Steady Good run) (fuel : Nat) :
    Steady Good (runMany run fuel) := by
  induction fuel with
  | zero => exact Context.Extends.refl
  | succ fuel ih =>
    intro ctx
    have first := body ctx
    simp only [runMany]
    split
    · exact .refl ctx
    · split <;> rename_i same <;> rw [same] at first
      · exact first.trans (ih _)
      · split <;> exact first
      · exact first

theorem runManyUntil_steady {stop : Runner β} (body : Steady Good run) (stops : Steady Good stop)
    (fuel : Nat) : Steady Good (runManyUntil run stop fuel) := by
  induction fuel with
  | zero => exact Context.Extends.refl
  | succ fuel ih =>
    intro ctx
    have first := stops ctx
    simp only [runManyUntil]
    split <;> rename_i after same <;> rw [same] at first
    · exact first
    · exact first
    · split
      · exact first
      · have both := first.trans (body after)
        split <;> rename_i same <;> rw [same] at both
        · exact both.trans (ih _)
        · exact both
        · exact both

theorem runSeparated_steady {delimiter : Runner β} (body : Steady Good run)
    (delimits : Steady Good delimiter) (fuel : Nat) :
    Steady Good (runSeparated run delimiter fuel) := by
  induction fuel with
  | zero => exact Context.Extends.refl
  | succ fuel ih =>
    intro ctx
    have first := body ctx
    simp only [runSeparated]
    split <;> rename_i after same <;> rw [same] at first
    · split <;> exact first
    · exact first
    · have both := first.trans (delimits after)
      split <;> rename_i same <;> rw [same] at both
      · exact both.trans (ih _)
      · split <;> exact both
      · exact both

theorem runChain_steady {operator : Runner β} (term : Steady Good run)
    (operates : Steady Good operator) (combine : α → β → α → α) (fuel : Nat) (left : α) :
    Steady Good (runChain run operator combine fuel left) := by
  induction fuel generalizing left with
  | zero => exact Context.Extends.refl
  | succ fuel ih =>
    intro ctx
    have first := operates ctx
    simp only [runChain]
    split <;> rename_i after same <;> rw [same] at first
    · split <;> exact first
    · exact first
    · have both := first.trans (term after)
      split
      · rename_i same
        rw [same] at both
        exact both.trans (ih _ _)
      · exact both

/-- No parser loses anything, if no rule does. -/
theorem runWith_steady {rules : ∀ {γ : Type}, Rule γ → Runner γ}
    (steady : ∀ {γ : Type} (rule : Rule γ), Steady Good (rules rule)) (loops : Nat)
    (p : Parser Rule α) : Steady Good (p.runWith rules loops) := by
  induction p with
  | token kind => exact runToken_steady kind
  | succeed | fail => exact Context.Extends.refl
  | finish => exact runFinish_steady
  | bind first next ihf ihn =>
    intro ctx
    have here := ihf ctx
    simp only [runWith]
    split <;> rename_i same <;> rw [same] at here
    · exact here.trans (ihn _ _)
    · exact here
    · exact here
  | orElse first second ihf ihs => exact runOrElse_steady ihf ihs
  | withKind body kind ih =>
    intro ctx
    have here := ih ctx
    simp only [runWith]
    split
    · rename_i same
      rwa [same] at here
    · exact here
  | recover body fallback ihb ihf =>
    intro ctx
    have here := ihb ctx
    simp only [runWith]
    split
    · rename_i same
      rw [same] at here
      exact here.trans ((Context.Extends.record _ _).trans (ihf _))
    · exact here
  | attempt body ih =>
    refine marked_steady ih fun mark outcome ctx => ?_
    split
    · exact .rewind ctx mark .refl
    · exact .refl ctx
  | lookahead body ih =>
    refine marked_steady ih fun mark outcome ctx => .rewind ctx mark fun ctx => ?_
    split <;> exact .refl ctx
  | skipUntil body ih => exact runSkipUntil_steady ih loops
  | many body ih => exact runMany_steady ih loops
  | manyUntil body stop ihb ihs => exact runManyUntil_steady ihb ihs loops
  | separated body delimiter ihb ihd => exact runSeparated_steady ihb ihd loops
  | chain term operator combine iht iho =>
    intro ctx
    have here := iht ctx
    simp only [runWith]
    split
    · rename_i same
      rw [same] at here
      exact here.trans (runChain_steady iht iho combine loops _ _)
    · exact here
  | call rule => exact steady rule

end Parser
end Statecraft
