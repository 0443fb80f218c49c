import Statecraft.Proofs.StrayReports
import Statecraft.Proofs.Extent
import Statecraft.Proofs.Reading

/-! Where the trees stand that are read from a source. What a parser yields is laid out on the
tokens it has passed. A choice starts again from the same token, a failure that is recovered from
only leaves a gap, and so this is read off the parsers part by part. -/
namespace Statecraft

/-- Whatever the runner yields from the index on has the property, together with the index it
ends at. -/
def Delivers {α : Type} (tape : Tape) (start : Nat) (run : Runner α) (Post : Nat → α → Prop) :
    Prop :=
  ∀ ⦃ctx after : Context⦄ ⦃marks : List Bookmark⦄ ⦃value : α⦄, ctx.On tape marks →
    ctx.reader.cursor = start → run ctx = (.ok value, after) → Post after.reader.cursor value

theorem Delivers.weaken {α : Type} {tape : Tape} {start : Nat} {run : Runner α}
    {Post Post' : Nat → α → Prop} (delivers : Delivers tape start run Post)
    (holds : ∀ j value, Post j value → Post' j value) : Delivers tape start run Post' :=
  fun _ _ _ _ on here read => holds _ _ (delivers on here read)

namespace Parser

variable {Rule : Type → Type} {rules : ∀ {γ : Type}, Rule γ → Runner γ} {loops : Nat} {tape : Tape}
  {α β : Type} {p q : Parser Rule α} {r : Parser Rule β} {i : Nat} {Post : Nat → α → Prop}
  {Mid : Nat → β → Prop}

theorem succeed_delivers {value : α} (holds : Post i value) :
    Delivers tape i ((succeed value : Parser Rule α).runWith rules loops) Post := by
  intro ctx after marks other on here read
  cases read
  exact here ▸ holds

/-- A token is the one at the index. -/
theorem token_delivers (kind : TokenKind) :
    Delivers tape i ((token kind : Parser Rule Token).runWith rules loops) fun j t =>
      t.kind = kind ∧ i < j ∧ tape.tokens[i]? = some t := by
  intro ctx after marks t on here read
  have gains := token_gains kind on here read
  simp only [runWith, runToken] at read
  cases found : ctx.reader.current? with
  | none => simp [found] at read
  | some u =>
    have current := on.keeps.current?
    simp only [found] at read current
    split at read
    · cases read
      exact ⟨‹_›, gains, here ▸ current.symm⟩
    · cases read

section Combinators

variable (commits : ∀ {γ : Type} (rule : Rule γ), Commits tape (rules rule))
include commits

/-- Whatever is read, the reader does not go back. -/
theorem delivers_forward (p : Parser Rule α) :
    Delivers tape i (p.runWith rules loops) fun j _ => i ≤ j :=
  fun _ _ _ _ on here read => here ▸ (on_of_run commits on read).2

theorem bind_delivers {next : β → Parser Rule α}
    (first : Delivers tape i (r.runWith rules loops) Mid)
    (later : ∀ j value, Mid j value → Delivers tape j ((next value).runWith rules loops) Post) :
    Delivers tape i ((r.bind next).runWith rules loops) Post := by
  intro ctx after marks value on here read
  simp only [runWith] at read
  rcases ran : r.runWith rules loops ctx with ⟨mid | report | cause, between⟩
  all_goals
    simp only [ran] at read
  · exact later _ mid (first on here ran) (on_of_run commits on ran).1 rfl read
  · cases read
  · cases read

theorem map_delivers {f : β → α} (first : Delivers tape i (r.runWith rules loops) Mid)
    (holds : ∀ j value, Mid j value → Post j (f value)) :
    Delivers tape i ((r.map f).runWith rules loops) Post :=
  bind_delivers commits first fun j value mid => succeed_delivers (holds j value mid)

theorem andThen_delivers (first : Delivers tape i (r.runWith rules loops) Mid)
    (later : ∀ j value, Mid j value → Delivers tape j (p.runWith rules loops) Post) :
    Delivers tape i ((r.andThen p).runWith rules loops) Post :=
  bind_delivers commits first later

theorem followedBy_delivers (first : Delivers tape i (p.runWith rules loops) Post)
    (widens : ∀ j k value, j ≤ k → Post j value → Post k value) (r : Parser Rule β) :
    Delivers tape i ((p.followedBy r).runWith rules loops) Post :=
  bind_delivers commits first fun j value post =>
    map_delivers commits (delivers_forward commits r) fun k _ further =>
      widens j k value further post

theorem orElse_delivers (first : Delivers tape i (p.runWith rules loops) Post)
    (second : Delivers tape i (q.runWith rules loops) Post) :
    Delivers tape i ((p.orElse q).runWith rules loops) Post := by
  intro ctx after marks value on here read
  simp only [runWith, runOrElse] at read
  rcases tried : p.runWith rules loops ctx with ⟨found | report | cause, mid⟩
  all_goals
    simp only [tried] at read
  · cases read
    exact first on here tried
  · cases moved : progressed ctx.reader.location report with
    | true => simp [moved] at read
    | false =>
      obtain ⟨on', same⟩ := (Tries.second (q := q) tried moved).same commits on
      simp only [moved, Bool.false_eq_true, if_false] at read
      rcases next : q.runWith rules loops mid with ⟨found | report' | cause, last⟩
      all_goals
        simp only [next] at read
      · cases read
        exact second on' (same.trans here) next
      · cases read
      · cases read
  · cases read

theorem oneOf_delivers {others : List (Parser Rule α)}
    (first : Delivers tape i (p.runWith rules loops) Post)
    (later : ∀ q ∈ others, Delivers tape i (q.runWith rules loops) Post) :
    Delivers tape i ((oneOf p others).runWith rules loops) Post :=
  oneOf_induction (motive := fun p => Delivers tape i (p.runWith rules loops) Post)
    (fun _ _ => orElse_delivers commits) first later

theorem anyToken_delivers (first : TokenKind) (others : List TokenKind) :
    Delivers tape i ((anyToken first others : Parser Rule Token).runWith rules loops) fun j t =>
      i < j ∧ tape.tokens[i]? = some t :=
  anyToken_induction
    (motive := fun p => Delivers tape i (p.runWith rules loops) fun j t =>
      i < j ∧ tape.tokens[i]? = some t)
    (fun kind => (token_delivers kind).weaken fun _ _ found => found.2)
    (fun _ _ => orElse_delivers commits) first others

/-- What is recovered from leaves a gap before the fallback. -/
theorem recover_delivers (first : Delivers tape i (p.runWith rules loops) Post)
    (fallback : ∀ j, i ≤ j → Delivers tape j (q.runWith rules loops) Post) :
    Delivers tape i ((p.recover q).runWith rules loops) Post := by
  intro ctx after marks value on here read
  simp only [runWith] at read
  rcases tried : p.runWith rules loops ctx with ⟨found | report | cause, mid⟩
  all_goals
    simp only [tried] at read
  · cases read
    exact first on here tried
  · obtain ⟨on', forward⟩ := on_of_run commits on tried
    exact fallback _ (here ▸ forward) (on'.record report) rfl read
  · cases read

theorem recoverAs_delivers {kind : ReportKind}
    (first : Delivers tape i (p.runWith rules loops) Post)
    (fallback : ∀ j, i ≤ j → Delivers tape j (q.runWith rules loops) Post) :
    Delivers tape i ((p.recoverAs kind q).runWith rules loops) Post := by
  refine recover_delivers commits ?_ fallback
  intro ctx after marks value on here read
  simp only [runWith] at read
  split at read
  · cases read
  · exact first on here read

section Loops

variable {Laid : Nat → Nat → α → Prop}
  (body : ∀ i, Delivers tape i (p.runWith rules loops) fun j x => Laid i j x)
include body

theorem many_delivers :
    Delivers tape i (p.many.runWith rules loops) fun j xs => Row Laid i j xs := by
  have rounds (fuel : Nat) : ∀ i, Delivers tape i (runMany (p.runWith rules loops) fuel) fun j xs =>
      Row Laid i j xs := by
    induction fuel with
    | zero => exact fun i ctx after marks values on here read => by cases read
    | succ fuel ih =>
      intro i ctx after marks values on here read
      simp only [runMany] at read
      split at read
      · cases read
        exact Nat.le_of_eq here.symm
      · split at read
        · rename_i x mid ran
          obtain ⟨more, rest, rfl⟩ := prepend_ok read
          obtain ⟨on', forward⟩ := on_of_run commits on ran
          exact ⟨i, _, Nat.le_refl i, here ▸ forward, body i on here ran, ih _ on' rfl rest⟩
        · rename_i ran
          split at read <;> cases read
          exact here ▸ (on_of_run commits on ran).2
        · cases read
  exact rounds loops i

theorem manyUntil_delivers (stop : Parser Rule β) :
    Delivers tape i ((p.manyUntil stop).runWith rules loops) fun j xs => Row Laid i j xs := by
  have rounds (fuel : Nat) : ∀ i, Delivers tape i
      (runManyUntil (p.runWith rules loops) (stop.runWith rules loops) fuel) fun j xs =>
        Row Laid i j xs := by
    induction fuel with
    | zero => exact fun i ctx after marks values on here read => by cases read
    | succ fuel ih =>
      intro i ctx after marks values on here read
      simp only [runManyUntil] at read
      split at read
      · rename_i ended
        cases read
        exact here ▸ (on_of_run commits on ended).2
      · cases read
      · rename_i missing
        obtain ⟨on', forward⟩ := on_of_run commits on missing
        split at read
        · cases read
        · split at read
          · rename_i x mid ran
            obtain ⟨more, rest, rfl⟩ := prepend_ok read
            obtain ⟨on'', further⟩ := on_of_run commits on' ran
            exact ⟨_, _, here ▸ forward, further, body _ on' rfl ran, ih _ on'' rfl rest⟩
          · cases read
          · cases read
  exact rounds loops i

theorem separated_delivers (delimiter : Parser Rule β) :
    Delivers tape i ((p.separated delimiter).runWith rules loops) fun j xs => Row Laid i j xs := by
  have rounds (fuel : Nat) : ∀ i, Delivers tape i
      (runSeparated (p.runWith rules loops) (delimiter.runWith rules loops) fuel) fun j xs =>
        Row Laid i j xs := by
    induction fuel with
    | zero => exact fun i ctx after marks values on here read => by cases read
    | succ fuel ih =>
      intro i ctx after marks values on here read
      simp only [runSeparated] at read
      split at read
      · rename_i ran
        split at read <;> cases read
        exact here ▸ (on_of_run commits on ran).2
      · cases read
      · rename_i x mid ran
        have laid := body i on here ran
        obtain ⟨on', forward⟩ := on_of_run commits on ran
        split at read
        · rename_i delimited
          obtain ⟨more, rest, rfl⟩ := prepend_ok read
          obtain ⟨on'', further⟩ := on_of_run commits on' delimited
          exact ⟨i, _, Nat.le_refl i, here ▸ forward, laid, (ih _ on'' rfl rest).since further⟩
        · rename_i ended
          split at read <;> cases read
          exact ⟨i, _, Nat.le_refl i, here ▸ forward, laid, (on_of_run commits on' ended).2⟩
        · cases read
  exact rounds loops i

theorem chain_delivers {operator : Parser Rule β} {combine : α → β → α → α}
    {Sign : Nat → Nat → β → Prop}
    (operators : ∀ i, Delivers tape i (operator.runWith rules loops) fun j op => Sign i j op)
    (joins : ∀ {i j k l left op right}, Laid i j left → Sign j k op → Laid k l right →
      Laid i l (combine left op right))
    (widens : ∀ {i j k x}, Laid i j x → j ≤ k → Laid i k x) :
    Delivers tape i ((p.chain operator combine).runWith rules loops) fun j x => Laid i j x := by
  have rounds (fuel : Nat) : ∀ j left, Laid i j left → Delivers tape j
      (runChain (p.runWith rules loops) (operator.runWith rules loops) combine fuel left) fun k x =>
        Laid i k x := by
    induction fuel with
    | zero => exact fun j left _ ctx after marks value on here read => by cases read
    | succ fuel ih =>
      intro j left laid ctx after marks value on here read
      simp only [runChain] at read
      split at read
      · rename_i ran
        split at read <;> cases read
        exact widens laid (here ▸ (on_of_run commits on ran).2)
      · cases read
      · rename_i op mid ran
        have sign := operators j on here ran
        obtain ⟨on', -⟩ := on_of_run commits on ran
        split at read
        · rename_i right last ran'
          have joined := joins laid sign (body _ on' rfl ran')
          exact ih _ _ joined (on_of_run commits on' ran').1 rfl read
        · rename_i other
          exact absurd read (other _ _)
  intro ctx after marks value on here read
  simp only [runWith] at read
  split at read
  · rename_i left mid ran
    exact rounds loops _ left (body i on here ran) (on_of_run commits on ran).1 rfl read
  · rename_i other
    exact absurd read (other _ _)

end Loops

end Combinators
end Parser

namespace Source
namespace Grammar

open Statecraft.Parser

variable {source : String} {run : ∀ {γ : Type}, Rule γ → Runner γ} {loops i : Nat}

theorem among_delivers (kind : TokenKind) :
    Delivers (.ofSource source) i ((token kind : Parser Rule Token).runWith run loops) fun j t =>
      t.kind = kind ∧ t.Among source i j :=
  (token_delivers kind).weaken fun _ _ found =>
    ⟨found.1, ⟨i, Nat.le_refl i, found.2.1, found.2.2⟩⟩

section Rules

variable (commits : ∀ {γ : Type} (rule : Rule γ), Commits (.ofSource source) (run rule))
include commits

theorem anyAmong_delivers (first : TokenKind) (others : List TokenKind) :
    Delivers (.ofSource source) i ((anyToken first others : Parser Rule Token).runWith run loops)
      fun j t => t.Among source i j :=
  (anyToken_delivers commits first others).weaken fun _ _ found =>
    ⟨i, Nat.le_refl i, found.1, found.2⟩

theorem name_delivers :
    Delivers (.ofSource source) i (name.runWith run loops) fun j n => n.Laid source i j :=
  map_delivers commits (among_delivers _) fun _ t found => ⟨t, found.2, found.1, rfl, rfl⟩

section Expressions

theorem literal_delivers :
    Delivers (.ofSource source) i (literal.runWith run loops) fun j e => e.Laid source i j := by
  refine oneOf_delivers commits ?_ ?_
  · refine map_delivers commits (among_delivers _) fun j t found => ?_
    simp only [Expr.ofNumber]
    split
    · exact found.2.spans
    · exact Nat.le_of_lt found.2.spans.lt
  · simp only [List.forall_mem_cons]
    refine ⟨?_, ?_, ?_, by simp⟩
    · exact map_delivers commits (among_delivers _) fun j t found => found.2.spans
    · exact map_delivers commits (among_delivers _) fun j t found => found.2.spans
    · exact map_delivers commits (among_delivers _) fun j t found =>
        ⟨t, found.2, found.1, rfl, rfl⟩

variable (expressions : ∀ i, Delivers (.ofSource source) i (run .expression) fun j e =>
  e.Laid source i j)
include expressions

/-- Parentheses take tokens of their own around the expression. -/
theorem primary_delivers :
    Delivers (.ofSource source) i (primary.runWith run loops) fun j e => e.Laid source i j := by
  refine orElse_delivers commits ?_ ?_
  · refine andThen_delivers commits (delivers_forward commits _) fun k opening before => ?_
    refine bind_delivers commits (expressions k) fun l inner laid => ?_
    have closes (j : Nat) (further : l ≤ j) : inner.Laid source i j := laid.widen before further
    refine recover_delivers commits ?_ fun j further => succeed_delivers (closes j further)
    exact map_delivers commits (delivers_forward commits _) fun j _ further => closes j further
  · exact recoverAs_delivers commits (literal_delivers commits) fun j further =>
      succeed_delivers further

omit expressions

variable {operand : Parser Rule Expr}
  (operands : ∀ i, Delivers (.ofSource source) i (operand.runWith run loops) fun j e =>
    e.Laid source i j)
include operands

theorem signed_delivers (first : TokenKind) (others : List TokenKind) :
    Delivers (.ofSource source) i ((signed operand first others).runWith run loops) fun j e =>
      e.Laid source i j := by
  refine orElse_delivers commits ?_ (operands i)
  refine bind_delivers commits (anyAmong_delivers commits first others) fun k op among => ?_
  exact map_delivers commits (operands k) fun j e laid => ⟨k, among.spans, laid⟩

theorem level_delivers (first : TokenKind) (others : List TokenKind) :
    Delivers (.ofSource source) i ((level operand first others).runWith run loops) fun j e =>
      e.Laid source i j := by
  refine chain_delivers commits operands (fun _ => anyAmong_delivers commits first others) ?_ ?_
  · exact fun left among right => ⟨_, _, left, among.spans, right⟩
  · exact fun laid further => laid.widen (Nat.le_refl _) further

omit operands
include expressions

theorem expression_delivers :
    Delivers (.ofSource source) i (expression.runWith run loops) fun j e => e.Laid source i j := by
  have terms (i : Nat) : Delivers (.ofSource source) i (term.runWith run loops) fun j e =>
      e.Laid source i j := by
    refine level_delivers commits (fun _ => level_delivers commits (fun _ => ?_) _ _) _ _
    exact signed_delivers commits (fun _ => primary_delivers commits expressions) _ _
  have relations (i : Nat) : Delivers (.ofSource source) i (relation.runWith run loops) fun j e =>
      e.Laid source i j := by
    refine bind_delivers commits (terms i) fun k left laid => ?_
    refine orElse_delivers commits ?_ (succeed_delivers laid)
    refine bind_delivers commits (anyAmong_delivers commits _ _) fun l op among => ?_
    exact map_delivers commits (terms l) fun j right laid' => ⟨k, l, laid, among.spans, laid'⟩
  refine level_delivers commits (fun _ => level_delivers commits (fun _ => ?_) _ _) _ _
  exact signed_delivers commits relations _ _

theorem condition_delivers :
    Delivers (.ofSource source) i (condition.runWith run loops) fun j e => e.Laid source i j := by
  refine orElse_delivers commits ?_ (expressions i)
  refine andThen_delivers commits (delivers_forward commits _) fun j _ further => ?_
  refine recover_delivers commits ?_ fun k further' =>
    succeed_delivers (Nat.le_trans further further')
  intro ctx after marks value on here read
  cases read

theorem statementValue_delivers :
    Delivers (.ofSource source) i (statementValue.runWith run loops) fun j e =>
      e.Laid source i j :=
  followedBy_delivers commits (expressions i)
    (fun _ _ _ further laid => laid.widen (Nat.le_refl i) further) _

end Expressions

theorem assigned_delivers :
    Delivers (.ofSource source) i (assigned.runWith run loops) fun j n => n.Laid source i j :=
  followedBy_delivers commits (name_delivers commits)
    (fun _ _ _ further laid => laid.widen (Nat.le_refl i) further) _

theorem transition_delivers :
    Delivers (.ofSource source) i (transition.runWith run loops) fun j a =>
      a.Laid source i j := by
  refine bind_delivers commits (followedBy_delivers commits (among_delivers _)
    (fun _ _ _ further found => ⟨found.1, found.2.widen (Nat.le_refl i) further⟩) _)
    fun k keyword found => ?_
  refine map_delivers commits (followedBy_delivers commits (name_delivers commits)
    (fun _ _ _ further laid => laid.widen (Nat.le_refl k) further) _) fun j target laid => ?_
  simp only [Action.Laid]
  exact ⟨k, found.2.spans, laid⟩

section Blocks

variable (expressions : ∀ i, Delivers (.ofSource source) i (run .expression) fun j e =>
    e.Laid source i j)
  (blocks : ∀ i, Delivers (.ofSource source) i (run .block) fun j b => b.Laid source i j)
include blocks

/-- A branch that may be missing. -/
theorem otherwise_delivers :
    Delivers (.ofSource source) i ((((token .elseWord).andThen
      ((call .block).map some)).optional none : Parser Rule (Option Block)).runWith run loops)
      fun j other => i ≤ j ∧ ∀ b ∈ other, b.Laid source i j := by
  refine orElse_delivers commits ?_ (succeed_delivers ⟨Nat.le_refl i, by simp⟩)
  refine andThen_delivers commits (delivers_forward commits _) fun k _ before => ?_
  refine map_delivers commits (blocks k) fun j b laid => ?_
  have laid := laid.since before
  refine ⟨Nat.le_of_lt laid.spans.lt, ?_⟩
  rintro _ ⟨⟩
  exact laid

include expressions

theorem conditional_delivers :
    Delivers (.ofSource source) i (conditional.runWith run loops) fun j a =>
      a.Laid source i j := by
  refine bind_delivers commits (among_delivers _) fun k keyword found => ?_
  refine bind_delivers commits (condition_delivers commits expressions) fun l test laid => ?_
  refine bind_delivers commits (blocks l) fun m body laid' => ?_
  refine map_delivers commits (otherwise_delivers commits blocks) fun j other last => ?_
  cases other with
  | none =>
    simp only [Action.Laid]
    exact ⟨k, l, m, found.2.spans, laid, laid', last.1⟩
  | some other =>
    simp only [Action.Laid]
    exact ⟨k, l, m, found.2.spans, laid, laid', last.2 other rfl⟩

theorem action_delivers :
    Delivers (.ofSource source) i (action.runWith run loops) fun j a => a.Laid source i j := by
  refine oneOf_delivers commits (transition_delivers commits) ?_
  simp only [List.forall_mem_cons]
  refine ⟨conditional_delivers commits expressions blocks, ?_, ?_, ?_, by simp⟩
  · refine bind_delivers commits (among_delivers _) fun k keyword found => ?_
    refine map_delivers commits (followedBy_delivers commits
      (condition_delivers commits expressions)
      (fun _ _ _ further laid => laid.widen (Nat.le_refl k) further) _) fun j test laid => ?_
    simp only [Action.Laid]
    exact ⟨k, found.2.spans, laid⟩
  · refine map_delivers commits (blocks i) fun j b laid => ?_
    simpa only [Action.Laid] using laid
  · refine bind_delivers commits (assigned_delivers commits) fun k target named => ?_
    refine map_delivers commits (statementValue_delivers commits expressions) fun j value laid => ?_
    simp only [Action.Laid]
    exact ⟨k, named, laid⟩

omit expressions blocks

/-- What was skipped has left nothing. -/
theorem recovered_delivers {α : Type} {p : Parser Rule α} {Laid : Nat → Nat → α → Prop}
    (items : ∀ i, Delivers (.ofSource source) i (p.runWith run loops) fun j x => Laid i j x)
    (resync : Parser Rule Unit) :
    Delivers (.ofSource source) i (((p.map some).recover (resync.as none)).runWith run loops)
      fun j found => ∀ x ∈ found, Laid i j x := by
  refine recover_delivers commits (map_delivers commits (items i) fun j x laid => ?_) fun j _ => ?_
  · rintro _ ⟨⟩
    exact laid
  · exact map_delivers commits (delivers_forward commits _) (by simp)

include expressions blocks

theorem block_delivers :
    Delivers (.ofSource source) i (block.runWith run loops) fun j b => b.Laid source i j := by
  refine bind_delivers commits (among_delivers _) fun k opening found => ?_
  refine bind_delivers commits (manyUntil_delivers commits (fun _ => recovered_delivers commits
    (fun _ => action_delivers commits expressions blocks) _) _) fun l actions row => ?_
  refine map_delivers commits (among_delivers _) fun j closing found' => ?_
  simp only [Block.Laid, Action.allLaid_iff]
  exact ⟨k, l, found.2.spans, row.filterMap_id, found'.2.spans⟩

omit expressions blocks

theorem stateEntry_delivers :
    Delivers (.ofSource source) i (stateEntry.runWith run loops) fun j s =>
      s.Laid source i j := by
  have annotations (i : Nat) : Delivers (.ofSource source) i (annotated.runWith run loops)
      fun j a => a.Laid source i j := by
    refine andThen_delivers commits (delivers_forward commits _) fun k _ before => ?_
    refine followedBy_delivers commits ?_ (fun _ _ _ further laid => ?_) _
    · refine bind_delivers commits (name_delivers commits) fun l label named => ?_
      exact map_delivers commits (among_delivers _) fun j value found =>
        ⟨l, named.widen before (Nat.le_refl l), found.2.spans⟩
    · obtain ⟨l, named, value⟩ := laid
      exact ⟨l, named, value.widen (Nat.le_refl l) further⟩
  refine bind_delivers commits (many_delivers commits annotations) fun k attributes row => ?_
  exact map_delivers commits (name_delivers commits) fun j label named => ⟨k, row, named⟩

theorem stateEntries_delivers :
    Delivers (.ofSource source) i (((token .openBrace).andThen
      (separated stateEntry (token .comma)) : Parser Rule (List StateEntry)).runWith run loops)
      fun j states => Row (StateEntry.Laid source) i j states :=
  andThen_delivers commits (delivers_forward commits _) fun _ _ before =>
    (separated_delivers commits (fun _ => stateEntry_delivers commits) _).weaken
      fun _ _ row => row.since before

include expressions blocks

theorem definition_delivers :
    Delivers (.ofSource source) i (definition.runWith run loops) fun j d =>
      d.Laid source i j := by
  have declarations (kind : TokenKind) (storage : Storage) : Delivers (.ofSource source) i
      ((declaration kind storage).runWith run loops) fun j d => d.Laid source i j := by
    refine bind_delivers commits (among_delivers _) fun k keyword found => ?_
    refine bind_delivers commits (assigned_delivers commits) fun l target named => ?_
    exact map_delivers commits (statementValue_delivers commits expressions) fun j value laid =>
      ⟨k, l, found.2.spans, named, laid⟩
  refine oneOf_delivers commits ?_ ?_
  · refine bind_delivers commits (among_delivers _) fun k keyword found => ?_
    refine bind_delivers commits (stateEntries_delivers commits) fun l states row => ?_
    exact map_delivers commits (among_delivers _) fun j closing found' =>
      ⟨k, l, found.2.spans, row, found'.2.spans⟩
  · simp only [List.forall_mem_cons]
    refine ⟨declarations _ _, declarations _ _, ?_, by simp⟩
    refine bind_delivers commits (among_delivers _) fun k keyword found => ?_
    refine bind_delivers commits (name_delivers commits) fun l state named => ?_
    exact map_delivers commits (blocks l) fun j body laid =>
      ⟨k, l, found.2.spans, named, laid⟩

theorem program_delivers :
    Delivers (.ofSource source) i (program.runWith run loops) fun j p =>
      Row (Definition.Laid source) i j p :=
  map_delivers commits (many_delivers commits fun _ => recovered_delivers commits
    (fun _ => definition_delivers commits expressions blocks) _) fun _ _ row => row.filterMap_id

end Blocks
end Rules

/-- Expressions and blocks are laid out on the tokens they are read from. -/
theorem runRule_delivers (source : String) (loops depth : Nat) :
    (∀ i, Delivers (.ofSource source) i (rules.runRule loops depth .expression) fun j e =>
        e.Laid source i j) ∧
      ∀ i, Delivers (.ofSource source) i (rules.runRule loops depth .block) fun j b =>
        b.Laid source i j := by
  induction depth with
  | zero =>
    constructor
    · exact fun i ctx after marks value on here read => by cases read
    · exact fun i ctx after marks value on here read => by cases read
  | succ depth ih =>
    have commits {γ : Type} (rule : Rule γ) :
        Commits (.ofSource source) (rules.runRule loops depth rule) :=
      rules.runRule_commits loops depth rule
    constructor
    · intro i
      rw [Statecraft.Grammar.runRule_succ]
      exact expression_delivers commits ih.1
    · intro i
      rw [Statecraft.Grammar.runRule_succ]
      exact block_delivers commits ih.1 ih.2

end Grammar

/-- A value was read by a run of the parser. -/
theorem Grammar.run_of_parsed {α : Type} {p : Parser Rule α} {fuel : Nat} {lexemes : List Lexeme}
    {value : α} (parsed : (Grammar.rules.parse fuel p lexemes).value = some value) :
    ∃ after, Grammar.rules.run fuel p (.start lexemes) = (.ok value, after) := by
  simp only [Statecraft.Grammar.parse] at parsed
  split at parsed
  · rename_i other after ran
    split at parsed <;> cases parsed <;> exact ⟨after, ran⟩
  · cases parsed
  · cases parsed

/-- The definitions of a program are laid out on the tokens of its source. -/
theorem parse_laid (source : String) :
    ∃ j, Row (Definition.Laid source) 0 j (parse source).value := by
  cases parsed : (Grammar.rules.parse (Grammar.fuel (Lexeme.scan source)) Grammar.program
      (Lexeme.scan source)).value with
  | none => exact ⟨0, by simp only [parse, parsed]; exact Nat.le_refl 0⟩
  | some definitions =>
    obtain ⟨after, ran⟩ := Grammar.run_of_parsed parsed
    obtain ⟨expressions, blocks⟩ := Grammar.runRule_delivers source
      (Grammar.fuel (Lexeme.scan source)) (Grammar.fuel (Lexeme.scan source))
    have start : (Context.start (Lexeme.scan source)).reader.cursor = 0 := by
      simp [Context.start, Reader.start]
    have row := Grammar.program_delivers (Grammar.rules.runRule_commits _ _) expressions blocks
      (Context.start_on source) start ran
    exact ⟨after.reader.cursor, by simpa only [parse, parsed, Option.getD_some] using row⟩

end Source
end Statecraft
