import Statecraft.Grammar.Program
import Statecraft.Proofs.Reading
import Statecraft.Proofs.Tiling

/-! What is read from a source without an error. The states have names that scanning
makes, and where every number can be read, no expression is missing. -/
namespace Statecraft

/-- Could be an identifier, as far as the first character goes. -/
def Plain (name : String) : Prop := name.toList.head? ≠ some '$'

def Token.Named (t : Token) : Prop := t.kind = .identifier → Plain t.text

def Token.Readable (t : Token) : Prop :=
  t.kind = .number → (Double.ofLiteral? t.text).isSome = true

namespace Lexeme

theorem firstMatch?_identifier {c : Char} {rest : List Char} {n : Nat}
    (found : TokenKind.firstMatch? (c :: rest) = some (.identifier, n)) : isNameStart c = true := by
  obtain ⟨rfl, covers⟩ := TokenKind.firstMatch?_covers found
  simp only [TokenKind.matchLength, TokenKind.pattern, Pattern.length] at covers
  split at covers
  · assumption
  · contradiction

theorem scanFrom_named (start : Location) (cs : List Char) :
    ∀ x ∈ scanFrom start cs, ∀ t ∈ x.significant?, t.Named := by
  fun_induction scanFrom start cs with
  | case1 => simp
  | case2 start c rest kind n found tail ih =>
    refine List.forall_mem_cons.mpr ⟨?_, ih⟩
    intro t scanned identifier
    simp only [ofChars, significant?] at scanned
    split at scanned
    · contradiction
    · cases scanned
      obtain rfl : kind = .identifier := identifier
      have starts := firstMatch?_identifier found
      simp only [Plain, String.toList_ofList, List.head?_cons, ne_eq, Option.some.injEq]
      rintro rfl
      contradiction
  | case3 start c rest missing ih =>
    exact List.forall_mem_cons.mpr ⟨by simp [significant?], ih⟩

end Lexeme

namespace Source

/-- The states have names that scanning makes. -/
def Definition.Named : Definition → Prop
  | .states list => ∀ s ∈ list.states, Plain s.name.text
  | .declaration _ | .whenBlock _ => True

namespace Grammar

open Statecraft.Parser (Ensures)

variable {α : Type} {Good : Token → Prop} {Promise : (γ : Type) → Rule γ → γ → Prop}

/-- What stands where nothing had to be skipped. -/
theorem recovered_ensures {p : Parser Rule α} {Post : α → Prop}
    (here : p.Ensures Good Promise Post) (resync : Parser Rule Unit) :
    ((p.map some).recover (resync.as none)).Ensures Good Promise fun found =>
      ∀ x ∈ found, Post x := by
  refine .recover (here.map fun x post => ?_) ((Ensures.trivial _).map fun _ _ => nofun)
  rintro _ ⟨⟩
  exact post

theorem forall_mem_found {found : List (Option α)} {Post : α → Prop}
    (posts : ∀ o ∈ found, ∀ x ∈ o, Post x) : ∀ x ∈ found.filterMap id, Post x := by
  intro x member
  obtain ⟨o, here, same⟩ := List.mem_filterMap.mp member
  exact posts o here x same

theorem program_ensures {Post : Definition → Prop}
    (here : definition.Ensures Good Promise Post) :
    program.Ensures Good Promise fun p => ∀ d ∈ p, Post d :=
  (recovered_ensures here _).many.map fun _ => forall_mem_found

section Names

/-- Nothing has to be said about expressions and blocks. -/
def Anything (γ : Type) : Rule γ → γ → Prop := fun _ _ => True

theorem name_plain : name.Ensures Token.Named Anything fun n => Plain n.text :=
  .map (.token fun _ named identifier => named identifier) fun _ plain => plain

theorem definition_named : definition.Ensures Token.Named Anything Definition.Named := by
  refine .oneOf ?_ ?_
  · refine (Ensures.trivial _).bind fun keyword _ => ?_
    refine (Ensures.andThen (.separated ?_ _) _).bind fun states plain =>
      (Ensures.trivial _).map fun _ _ => plain
    exact (Ensures.trivial _).bind fun _ _ => name_plain.map fun _ plain => plain
  · simp only [List.forall_mem_cons]
    refine ⟨?_, ?_, ?_, by simp⟩
    · exact (Ensures.trivial _).bind fun _ _ => (Ensures.trivial _).bind fun _ _ =>
        (Ensures.trivial _).map fun _ _ => trivial
    · exact (Ensures.trivial _).bind fun _ _ => (Ensures.trivial _).bind fun _ _ =>
        (Ensures.trivial _).map fun _ _ => trivial
    · exact (Ensures.trivial _).bind fun _ _ => (Ensures.trivial _).bind fun _ _ =>
        (Ensures.trivial _).map fun _ _ => trivial

end Names

section Completeness

/-- Expressions and blocks are complete. -/
def Whole : (γ : Type) → Rule γ → γ → Prop
  | _, .expression => Expr.Complete
  | _, .block => Block.Complete

theorem expression_called :
    (Parser.call Rule.expression).Ensures Token.Readable Whole Expr.Complete :=
  Ensures.call Rule.expression

theorem block_called : (Parser.call Rule.block).Ensures Token.Readable Whole Block.Complete :=
  Ensures.call Rule.block

theorem literal_complete : literal.Ensures Token.Readable Whole Expr.Complete := by
  refine .oneOf (.map (.token fun t readable => readable) ?_) ?_
  · intro t readable
    obtain ⟨value, read⟩ := Option.isSome_iff_exists.mp readable
    simp only [Expr.ofNumber, read]
    trivial
  · simp only [List.forall_mem_cons]
    refine ⟨?_, ?_, ?_, by simp⟩
    · exact (Ensures.trivial _).map fun _ _ => trivial
    · exact (Ensures.trivial _).map fun _ _ => trivial
    · exact (Ensures.trivial _).map fun _ _ => trivial

theorem primary_complete : primary.Ensures Token.Readable Whole Expr.Complete := by
  refine .orElse (.andThen ?_ _) (literal_complete.recoverAs rfl _)
  refine expression_called.bind fun inner complete => ?_
  exact .recover ((Ensures.trivial _).map fun _ _ => complete) (.succeed complete)

variable {operand : Parser Rule Expr} {first : TokenKind} {others : List TokenKind}

theorem signed_complete (complete : operand.Ensures Token.Readable Whole Expr.Complete) :
    (signed operand first others).Ensures Token.Readable Whole Expr.Complete := by
  refine .orElse ?_ complete
  exact (Ensures.trivial _).bind fun op _ => complete.map fun e complete => complete

theorem level_complete (complete : operand.Ensures Token.Readable Whole Expr.Complete) :
    (level operand first others).Ensures Token.Readable Whole Expr.Complete :=
  complete.chain _ fun _ _ _ left right => ⟨left, right⟩

theorem expression_complete : expression.Ensures Token.Readable Whole Expr.Complete := by
  have term : term.Ensures Token.Readable Whole Expr.Complete :=
    level_complete (level_complete (signed_complete primary_complete))
  have relation : relation.Ensures Token.Readable Whole Expr.Complete := by
    refine term.bind fun left complete => .orElse ?_ (.succeed complete)
    exact (Ensures.trivial _).bind fun op _ => term.map fun right complete' =>
      ⟨complete, complete'⟩
  exact level_complete (level_complete (signed_complete relation))

theorem condition_complete : condition.Ensures Token.Readable Whole Expr.Complete :=
  .orElse (.andThen (.fail_recover rfl _) _) expression_called

theorem statementValue_complete :
    statementValue.Ensures Token.Readable Whole Expr.Complete :=
  expression_called.followedBy _

/-- A branch that may be missing. -/
theorem otherwise_complete :
    (((Parser.token .elseWord).andThen ((Parser.call Rule.block).map some)).optional none).Ensures
      Token.Readable Whole fun other => ∀ b ∈ other, b.Complete := by
  refine .orElse (.andThen (block_called.map fun b complete => ?_) _) (.succeed nofun)
  rintro _ ⟨⟩
  exact complete

theorem action_complete : action.Ensures Token.Readable Whole Action.Complete := by
  refine .oneOf ?_ ?_
  · exact (Ensures.trivial _).bind fun _ _ => (Ensures.trivial _).map fun _ _ => trivial
  · simp only [List.forall_mem_cons]
    refine ⟨?_, ?_, ?_, ?_, by simp⟩
    · refine (Ensures.trivial _).bind fun keyword _ => ?_
      refine condition_complete.bind fun test complete => ?_
      refine block_called.bind fun body complete' => ?_
      refine otherwise_complete.map fun other complete'' => ?_
      cases other with
      | none => exact ⟨complete, complete', trivial⟩
      | some b => exact ⟨complete, complete', complete'' b rfl⟩
    · exact (Ensures.trivial _).bind fun _ _ => (condition_complete.followedBy _).map
        fun _ complete => complete
    · exact block_called.map fun _ complete => complete
    · exact (Ensures.trivial _).bind fun _ _ => statementValue_complete.map
        fun _ complete => complete

theorem allComplete_of_forall {actions : List Action} (complete : ∀ a ∈ actions, a.Complete) :
    Action.AllComplete actions := by
  induction actions with
  | nil => trivial
  | cons a rest ih =>
    obtain ⟨here, there⟩ := List.forall_mem_cons.mp complete
    exact ⟨here, ih there⟩

theorem block_complete : block.Ensures Token.Readable Whole Block.Complete := by
  refine (Ensures.trivial _).bind fun opening _ => ?_
  refine ((recovered_ensures action_complete _).manyUntil _).bind fun found complete => ?_
  exact (Ensures.trivial _).map fun _ _ => allComplete_of_forall (forall_mem_found complete)

theorem definition_complete : definition.Ensures Token.Readable Whole Definition.Complete := by
  have declaration (kind : TokenKind) (storage : Storage) :
      (declaration kind storage).Ensures Token.Readable Whole Definition.Complete :=
    (Ensures.trivial _).bind fun _ _ => (Ensures.trivial _).bind fun _ _ =>
      statementValue_complete.map fun _ complete => complete
  refine .oneOf ?_ ?_
  · exact (Ensures.trivial _).bind fun _ _ => (Ensures.trivial _).bind fun _ _ =>
      (Ensures.trivial _).map fun _ _ => trivial
  · simp only [List.forall_mem_cons]
    refine ⟨declaration _ _, declaration _ _, ?_, by simp⟩
    exact (Ensures.trivial _).bind fun _ _ => (Ensures.trivial _).bind fun _ _ =>
      block_called.map fun _ complete => complete

end Completeness

end Grammar

variable {source : String}

/-- What holds of every definition that can be read from the tokens of a source. -/
theorem parse_ensures {Good : Token → Prop} {Promise : (γ : Type) → Rule γ → γ → Prop}
    {Post : Definition → Prop}
    (kept : ∀ {γ : Type} (rule : Rule γ),
      (Grammar.rules rule).Ensures Good Promise (Promise γ rule))
    (here : Grammar.definition.Ensures Good Promise Post)
    (good : ∀ t ∈ significantTokens source, Good t) (quiet : Quiet (parse source).reports) :
    ∀ d ∈ (parse source).value, Post d := by
  cases parsed : (Grammar.rules.parse (Grammar.fuel (Lexeme.scan source)) Grammar.program
      (Lexeme.scan source)).value with
  | none => simp [parse, parsed]
  | some p =>
    simp only [parse, parsed, Option.getD_some]
    refine Grammar.parse_yields kept (Grammar.program_ensures here) _ ?_ quiet parsed
    intro x member t token
    exact good t (List.mem_filterMap.mpr ⟨x, member, token⟩)

theorem parse_named (quiet : Quiet (parse source).reports) :
    ∀ d ∈ (parse source).value, d.Named := by
  refine parse_ensures (fun _ => .trivial _) Grammar.definition_named ?_ quiet
  intro t member
  obtain ⟨x, scanned, token⟩ := List.mem_filterMap.mp member
  exact Lexeme.scanFrom_named _ _ x scanned t token

/-- Where every number can be read, no expression is missing without an error. -/
theorem parse_complete (readable : ∀ t ∈ significantTokens source, t.Readable)
    (quiet : Quiet (parse source).reports) : (parse source).value.Complete := by
  refine parse_ensures ?_ Grammar.definition_complete readable quiet
  intro γ rule
  cases rule with
  | expression => exact Grammar.expression_complete
  | block => exact Grammar.block_complete

end Source
end Statecraft
