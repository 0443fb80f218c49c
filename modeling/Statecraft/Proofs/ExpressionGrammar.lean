import Statecraft.Grammar.Expr
import Statecraft.Proofs.Literals
import Statecraft.Proofs.Phrase
import Statecraft.Source.Definition

/-! The grammar of expressions. It is a ladder, with rungs from the loosest to the tightest; a
derivation says which tokens stand for which tree. The leaves are made from their tokens, unless a
number is too large for a double: such a number has no tree and derives all the same. -/
namespace Statecraft.Source

open Phrase (Chain)

/-- The rungs of the grammar, named by what joins or marks their operands. -/
inductive Rung where
  | or | and | not | relation | term | factor | sign | primary

namespace Rung

def joins : Rung → List (TokenKind × BinaryOp)
  | or => [(.orWord, .or)]
  | and => [(.andWord, .and)]
  | relation =>
      [(.notEqual, .notEqual), (.equal, .equal), (.lessEqual, .lessOrEqual), (.less, .less),
        (.greaterEqual, .greaterOrEqual), (.greater, .greater)]
  | term => [(.plus, .add), (.minus, .subtract)]
  | factor => [(.times, .multiply), (.divide, .divide), (.modulo, .modulo)]
  | not | sign | primary => []

def marks : Rung → List (TokenKind × UnaryOp)
  | not => [(.notWord, .not)]
  | sign => [(.plus, .plus), (.minus, .negate)]
  | or | and | relation | term | factor | primary => []

end Rung

/-- The tokens derive from a rung as the tree. Operators of one rung group from the
left, and parentheses leave no trace. -/
inductive Derives : Rung → List Token → Expr → Prop where
  -- or = and ("or" and)*
  | disjunct {used : List Token} {e : Expr} (only : Derives .and used e) : Derives .or used e
  | disjunction {front back : List Token} {t : Token} {op : BinaryOp} {left right : Expr}
      (first : Derives .or front left) (operator : (t.kind, op) ∈ Rung.or.joins)
      (last : Derives .and back right) :
      Derives .or (front ++ t :: back) (.binary op t.span left right)
  -- and = not ("and" not)*
  | conjunct {used : List Token} {e : Expr} (only : Derives .not used e) : Derives .and used e
  | conjunction {front back : List Token} {t : Token} {op : BinaryOp} {left right : Expr}
      (first : Derives .and front left) (operator : (t.kind, op) ∈ Rung.and.joins)
      (last : Derives .not back right) :
      Derives .and (front ++ t :: back) (.binary op t.span left right)
  -- not = "not" relation | relation
  | affirmed {used : List Token} {e : Expr} (only : Derives .relation used e) : Derives .not used e
  | negated {used : List Token} {t : Token} {op : UnaryOp} {e : Expr}
      (operator : (t.kind, op) ∈ Rung.not.marks) (operand : Derives .relation used e) :
      Derives .not (t :: used) (.unary op t.span e)
  -- relation = term (relational-operator term)?
  | unrelated {used : List Token} {e : Expr} (only : Derives .term used e) : Derives .relation used e
  | related {front back : List Token} {t : Token} {op : BinaryOp} {left right : Expr}
      (first : Derives .term front left) (operator : (t.kind, op) ∈ Rung.relation.joins)
      (last : Derives .term back right) :
      Derives .relation (front ++ t :: back) (.binary op t.span left right)
  -- term = factor (("+" | "-") factor)*
  | addend {used : List Token} {e : Expr} (only : Derives .factor used e) : Derives .term used e
  | sum {front back : List Token} {t : Token} {op : BinaryOp} {left right : Expr}
      (first : Derives .term front left) (operator : (t.kind, op) ∈ Rung.term.joins)
      (last : Derives .factor back right) :
      Derives .term (front ++ t :: back) (.binary op t.span left right)
  -- factor = sign (("*" | "/" | "%") sign)*
  | multiplicand {used : List Token} {e : Expr} (only : Derives .sign used e) :
      Derives .factor used e
  | product {front back : List Token} {t : Token} {op : BinaryOp} {left right : Expr}
      (first : Derives .factor front left) (operator : (t.kind, op) ∈ Rung.factor.joins)
      (last : Derives .sign back right) :
      Derives .factor (front ++ t :: back) (.binary op t.span left right)
  -- sign = ("+" | "-") primary | primary
  | unsigned {used : List Token} {e : Expr} (only : Derives .primary used e) : Derives .sign used e
  | signed {used : List Token} {t : Token} {op : UnaryOp} {e : Expr}
      (operator : (t.kind, op) ∈ Rung.sign.marks) (operand : Derives .primary used e) :
      Derives .sign (t :: used) (.unary op t.span e)
  -- primary = number | boolean | string | identifier | "(" or ")"
  | number {t : Token} {x : Float} (kind : t.kind = .number) (denotes : Denotes t.text x) :
      Derives .primary [t] (.number x t.span)
  -- a number that no double is near leaves a gap, of which nobody is told
  | oversized {t : Token} (kind : t.kind = .number) (large : Oversized t.text) :
      Derives .primary [t] .invalid
  | boolean {t : Token} (kind : t.kind = .boolean) :
      Derives .primary [t] (.boolean (t.text = "true") t.span)
  | string {t : Token} {content : String} (kind : t.kind = .string)
      (quotes : t.text = "'" ++ content ++ "'") : Derives .primary [t] (.string content t.span)
  | name {t : Token} (kind : t.kind = .identifier) : Derives .primary [t] (.ref ⟨t.text, t.span⟩)
  | parens {used : List Token} {opening closing : Token} {e : Expr}
      (opens : opening.kind = .openParen) (inner : Derives .or used e)
      (closes : closing.kind = .closeParen) :
      Derives .primary (opening :: (used ++ [closing])) e

namespace Rung

def kinds (l : Rung) : List TokenKind := l.joins.map Prod.fst

def signs (l : Rung) : List TokenKind := l.marks.map Prod.fst

/-- The kinds of tokens that would make a phrase of the rung longer. -/
def continues : Rung → List TokenKind
  | primary | sign => []
  | factor => factor.kinds
  | term => term.kinds ++ factor.kinds
  | relation | not => relation.kinds ++ (term.kinds ++ factor.kinds)
  | and => and.kinds ++ (relation.kinds ++ (term.kinds ++ factor.kinds))
  | or => or.kinds ++ (and.kinds ++ (relation.kinds ++ (term.kinds ++ factor.kinds)))

def leaves : List TokenKind := [.number, .boolean, .string, .identifier, .openParen]

def opens : Rung → List TokenKind
  | primary => leaves
  | sign | factor | term | relation => sign.signs ++ leaves
  | not | and | or => not.signs ++ (sign.signs ++ leaves)

/-- The rung of the operands, where any number of them can be joined. -/
def operands? : Rung → Option Rung
  | or => some and
  | and => some not
  | term => some factor
  | factor => some sign
  | not | relation | sign | primary => none

/-- The rung of the operand, where it can be marked. -/
def operand? : Rung → Option Rung
  | not => some relation
  | sign => some primary
  | or | and | relation | term | factor | primary => none

theorem mem_joins {l : Rung} {t : Token} {op : BinaryOp} :
    (t.kind, op) ∈ l.joins ↔ t.kind ∈ l.kinds ∧ op = BinaryOp.ofToken t := by
  cases l <;> simp [joins, kinds] <;> grind [BinaryOp.ofToken]

theorem mem_marks {l : Rung} {t : Token} {op : UnaryOp} :
    (t.kind, op) ∈ l.marks ↔ t.kind ∈ l.signs ∧ op = UnaryOp.ofToken t := by
  cases l <;> simp [marks, signs] <;> grind [UnaryOp.ofToken]

end Rung

namespace Derives

variable {l : Rung} {used : List Token} {e : Expr}

theorem opens (derives : Derives l used e) : ∃ t rest, used = t :: rest ∧ t.kind ∈ l.opens := by
  induction derives with
  | disjunct only ih | conjunct only ih => exact ih
  | multiplicand only ih | addend only ih | unrelated only ih => exact ih
  | affirmed only ih | unsigned only ih =>
    obtain ⟨t, rest, rfl, kind⟩ := ih
    exact ⟨t, rest, rfl, List.mem_append_right _ kind⟩
  | disjunction first _ _ ih | conjunction first _ _ ih | related first _ _ ih | sum first _ _ ih
  | product first _ _ ih =>
    obtain ⟨t, rest, rfl, kind⟩ := ih
    exact ⟨t, _, rfl, kind⟩
  | negated operator | signed operator =>
    exact ⟨_, _, rfl, List.mem_append_left _ (Rung.mem_marks.mp operator).1⟩
  | number kind | oversized kind | boolean kind | string kind | name kind | parens kind =>
    exact ⟨_, _, rfl, by simp [Rung.opens, Rung.leaves, kind]⟩

/-- What joins operands from the left is a chain of them. -/
theorem chain (derives : Derives l used e) {k : Rung} (operands : l.operands? = some k) :
    Chain l.kinds Expr.infixed (Derives k) used e := by
  induction derives with
  | disjunct only | conjunct only | addend only | multiplicand only =>
    obtain rfl := Option.some.inj operands
    exact .operand only
  | disjunction first operator last ih | conjunction first operator last ih
  | sum first operator last ih | product first operator last ih =>
    obtain ⟨kind, rfl⟩ := Rung.mem_joins.mp operator
    obtain rfl := Option.some.inj operands
    exact (ih rfl).join kind last
  | _ => contradiction

/-- Joined from the left, operands are a phrase of the looser rung. -/
theorem iff_chain {k : Rung} (operands : l.operands? = some k) :
    Derives l used e ↔ Chain l.kinds Expr.infixed (Derives k) used e := by
  refine ⟨fun derives => derives.chain operands, fun chain => ?_⟩
  induction chain with
  | operand only =>
    cases l <;> cases operands
    · exact .disjunct only
    · exact .conjunct only
    · exact .addend only
    · exact .multiplicand only
  | join first kind last ih =>
    have operator := Rung.mem_joins.mpr ⟨kind, rfl⟩
    cases l <;> cases operands
    · exact .disjunction ih operator last
    · exact .conjunction ih operator last
    · exact .sum ih operator last
    · exact .product ih operator last

theorem iff_marked {k : Rung} (operand : l.operand? = some k) :
    Derives l used e ↔
      (∃ t rest, used = t :: rest ∧ t.kind ∈ l.signs ∧
        ∃ inner, e = Expr.prefixed t inner ∧ Derives k rest inner) ∨ Derives k used e := by
  constructor
  · intro derives
    cases derives with
    | affirmed only | unsigned only =>
      obtain rfl := Option.some.inj operand
      exact .inr only
    | negated operator inner | signed operator inner =>
      obtain rfl := Option.some.inj operand
      obtain ⟨kind, rfl⟩ := Rung.mem_marks.mp operator
      exact .inl ⟨_, _, rfl, kind, _, rfl, inner⟩
    | _ => contradiction
  · rintro (⟨t, rest, rfl, kind, inner, rfl, derives⟩ | derives)
    · have operator := Rung.mem_marks.mpr ⟨kind, rfl⟩
      cases l <;> cases operand
      · exact .negated operator derives
      · exact .signed operator derives
    · cases l <;> cases operand
      · exact .affirmed derives
      · exact .unsigned derives

theorem relation_iff :
    Derives .relation used e ↔ ∃ front left back, used = front ++ back ∧ Derives .term front left ∧
      ((∃ t rest, back = t :: rest ∧ t.kind ∈ Rung.relation.kinds ∧
          ∃ right, e = Expr.infixed left t right ∧ Derives .term rest right) ∨
        back = [] ∧ e = left) := by
  constructor
  · intro derives
    cases derives with
    | unrelated only => exact ⟨used, e, [], by simp, only, .inr ⟨rfl, rfl⟩⟩
    | related first operator last =>
      obtain ⟨kind, rfl⟩ := Rung.mem_joins.mp operator
      exact ⟨_, _, _, rfl, first, .inl ⟨_, _, rfl, kind, _, rfl, last⟩⟩
  · rintro ⟨front, left, _, rfl, first, ⟨t, rest, rfl, kind, right, rfl, last⟩ | ⟨rfl, rfl⟩⟩
    · exact .related first (Rung.mem_joins.mpr ⟨kind, rfl⟩) last
    · simpa using Derives.unrelated first

end Derives

/-- No part of the tree is missing if and only if a double is near every number. -/
theorem Derives.complete_iff {l : Rung} {used : List Token} {e : Expr} (derives : Derives l used e) :
    e.Complete ↔ ∀ t ∈ used, t.Fits := by
  have joins (l : Rung) : TokenKind.number ∉ l.kinds := by cases l <;> decide
  have marks (l : Rung) : TokenKind.number ∉ l.signs := by cases l <;> decide
  induction derives with
  | disjunct only ih | conjunct only ih | affirmed only ih | unrelated only ih | addend only ih
  | multiplicand only ih | unsigned only ih => exact ih
  | disjunction first operator last ih ih' | conjunction first operator last ih ih'
  | related first operator last ih ih' | sum first operator last ih ih'
  | product first operator last ih ih' =>
    have kind := (Rung.mem_joins.mp operator).1
    have fits := Token.fits_of_ne (ne_of_mem_of_not_mem kind (joins _))
    simp only [Expr.Complete, ih, ih', List.forall_mem_append, List.forall_mem_cons, fits, true_and]
  | negated operator operand ih | signed operator operand ih =>
    have kind := (Rung.mem_marks.mp operator).1
    have fits := Token.fits_of_ne (ne_of_mem_of_not_mem kind (marks _))
    simp only [Expr.Complete, ih, List.forall_mem_cons, fits, true_and]
  | @number t x kind denotes =>
    have fits : t.Fits := fun _ => ⟨x, denotes⟩
    simpa [Expr.Complete] using fits
  | @oversized t kind large =>
    have unfit : ¬t.Fits := by
      intro fits
      obtain ⟨x, denotes⟩ := fits kind
      exact nomatch denotes.read.symm.trans large.unread
    simpa [Expr.Complete] using unfit
  | boolean kind | string kind | name kind => simp [Expr.Complete, Token.fits_of_ne, kind]
  | parens opens inner closes ih =>
    simp [ih, Token.fits_of_ne, opens, closes, or_imp, forall_and]

end Statecraft.Source
