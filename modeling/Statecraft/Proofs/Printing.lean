import Statecraft.Proofs.ExpressionParsing
import Statecraft.Proofs.Scanning
import Statecraft.Proofs.Trees

/-! Parsing undoes printing. The text of an expression has parentheses around every compound part,
so its tokens derive the same expression wherever it is printed before a delimiter; only the places
of the tokens are new. -/
namespace Statecraft.Source

open Lexeme (Spells tokenAt spells_token spells_blank)

namespace Expr

/-- The expression without the places of its tokens. -/
def bare : Expr → Expr
  | number value _ => .number value .absent
  | boolean value _ => .boolean value .absent
  | string value _ => .string value .absent
  | ref name => .ref ⟨name.text, .absent⟩
  | unary op _ operand => .unary op .absent operand.bare
  | binary op _ left right => .binary op .absent left.bare right.bare
  | invalid => .invalid

/-- The expressions whose texts are expressions of the language: names are identifiers, strings hold
no quote, and numbers are written with digits from which they can be read back. -/
inductive Printable : Expr → Prop where
  | number {value : Float} {span : Selection}
      (form : Numeral (Double.Layout.program.text value).toList)
      (reads : Double.ofLiteral? (Double.Layout.program.text value) = some value) :
      Printable (.number value span)
  | boolean {value : Bool} {span : Selection} : Printable (.boolean value span)
  | string {value : String} {span : Selection} (quoteless : '\'' ∉ value.toList) :
      Printable (.string value span)
  | ref {name : Name} (identifies : TokenKind.firstMatch? name.text.toList =
      some (.identifier, name.text.toList.length)) : Printable (.ref name)
  | unary {op : UnaryOp} {span : Selection} {operand : Expr} (declared : op ∈ UnaryOp.all)
      (inner : Printable operand) : Printable (.unary op span operand)
  | binary {op : BinaryOp} {span : Selection} {left right : Expr} (declared : op ∈ BinaryOp.all)
      (first : Printable left) (last : Printable right) : Printable (.binary op span left right)

end Expr

namespace Derives

variable {front back used : List Token} {t : Token} {e left right : Expr}

/-- An operand on its own derives from every rung. -/
theorem climb (only : Derives .primary used e) (r : Rung) : Derives r used e := by
  have sign := Derives.unsigned only
  have factor := Derives.multiplicand sign
  have term := Derives.addend factor
  have relation := Derives.unrelated term
  have not := Derives.affirmed relation
  have and := Derives.conjunct not
  have or := Derives.disjunct and
  cases r <;> assumption

theorem joined {r : Rung} {op : BinaryOp} (operator : (t.kind, op) ∈ r.joins)
    (first : Derives .primary front left) (last : Derives .primary back right) :
    Derives .or (front ++ t :: back) (.binary op t.span left right) := by
  cases r with
  | or => exact .disjunction (first.climb _) operator (last.climb _)
  | and => exact .disjunct (.conjunction (first.climb _) operator (last.climb _))
  | relation =>
    exact .disjunct (.conjunct (.affirmed (.related (first.climb _) operator (last.climb _))))
  | term =>
    exact .disjunct (.conjunct (.affirmed (.unrelated (.sum (first.climb _) operator
      (last.climb _)))))
  | factor =>
    exact .disjunct (.conjunct (.affirmed (.unrelated (.addend (.product (first.climb _) operator
      (last.climb _))))))
  | not | sign | primary => contradiction

theorem marked {r : Rung} {op : UnaryOp} (operator : (t.kind, op) ∈ r.marks)
    (operand : Derives .primary used e) : Derives .or (t :: used) (.unary op t.span e) := by
  cases r with
  | not => exact .disjunct (.conjunct (.negated operator (operand.climb _)))
  | sign =>
    exact .disjunct (.conjunct (.affirmed (.unrelated (.addend (.multiplicand (.signed operator
      operand))))))
  | or | and | relation | term | factor | primary => contradiction

end Derives

/-- Before a delimiter the text is scanned to tokens that derive the expression. -/
def Rereads (r : Rung) (text : List Char) (e : Expr) : Prop :=
  ∀ l rest, Delimits rest → ∃ tokens e', Spells l text tokens rest ∧ Derives r tokens e' ∧
    e'.bare = e.bare

namespace Rereads

variable {text back : List Char} {e left right : Expr} {span : Selection}

theorem ofToken (kind : TokenKind) (visible : kind.ignored = false) (filled : text ≠ [])
    (found : ∀ {rest}, Delimits rest →
      TokenKind.firstMatch? (text ++ rest) = some (kind, text.length))
    (derives : ∀ l, ∃ e', Derives .primary [tokenAt kind l text] e' ∧ e'.bare = e.bare) :
    Rereads .primary text e := by
  intro l rest delimits
  obtain ⟨e', derives, same⟩ := derives l
  exact ⟨_, e', spells_token visible filled (found delimits), derives, same⟩

theorem ofWord (kind : TokenKind) (c : Char) (cs : List Char) (visible : kind.ignored = false)
    (starts : isNameStart c = true)
    (found : TokenKind.firstMatch? (c :: cs) = some (kind, (c :: cs).length))
    (derives : ∀ l, ∃ e', Derives .primary [tokenAt kind l (c :: cs)] e' ∧ e'.bare = e.bare) :
    Rereads .primary (c :: cs) e := by
  refine ofToken kind visible (by simp) ?_ derives
  intro rest delimits
  rw [List.cons_append, TokenKind.firstMatch?_append delimits starts, found]

theorem parens (inner : Rereads .or text e) : Rereads .primary ('(' :: (text ++ [')'])) e := by
  intro l rest delimits
  obtain ⟨tokens, e', spells, derives, same⟩ := inner (l.after ['(']) ([')'] ++ rest)
    (delimits_paren rest)
  have opens : Spells l ['('] [tokenAt .openParen l ['(']] (text ++ [')'] ++ rest) :=
    spells_token rfl (by simp) rfl
  have closes (l : Location) : Spells l [')'] [tokenAt .closeParen l [')']] rest :=
    spells_token rfl (by simp) rfl
  exact ⟨_, e', opens.append (spells.append (closes _)), .parens rfl derives rfl, same⟩

end Rereads

/-- The text before an operand is the token of its operator, with a blank after a word. -/
theorem mark_spells {op : UnaryOp} (declared : op ∈ UnaryOp.all) (l : Location) {rest : List Char}
    (next : rest.head?.any isBlank = false) :
    ∃ (r : Rung) (t : Token), (t.kind, op) ∈ r.marks ∧
      Spells l (op.symbol ++ if op = .not then " " else "").toList [t] rest := by
  simp only [UnaryOp.all, List.mem_cons, List.not_mem_nil, or_false] at declared
  obtain rfl | rfl | rfl := declared
  · exact ⟨.sign, tokenAt .plus l ['+'], by simp [tokenAt, Rung.marks],
      spells_token rfl (by decide) rfl⟩
  · exact ⟨.sign, tokenAt .minus l ['-'], by simp [tokenAt, Rung.marks],
      spells_token rfl (by decide) rfl⟩
  · have word : Spells l ['n', 'o', 't'] [tokenAt .notWord l ['n', 'o', 't']] ([' '] ++ rest) :=
      spells_token rfl (by decide) rfl
    exact ⟨.not, _, by simp [tokenAt, Rung.marks], word.append (spells_blank next)⟩

/-- The symbol of an operator before a blank is the token that joins operands on its rung. -/
theorem symbol_found {op : BinaryOp} (declared : op ∈ BinaryOp.all) :
    ∃ (r : Rung) (kind : TokenKind), (kind, op) ∈ r.joins ∧ kind.ignored = false ∧
      ∀ rest, TokenKind.firstMatch? (op.symbol.toList ++ ' ' :: rest) =
        some (kind, op.symbol.toList.length) := by
  cases op with
  | or => exact ⟨.or, .orWord, by decide, rfl, fun _ => rfl⟩
  | and => exact ⟨.and, .andWord, by decide, rfl, fun _ => rfl⟩
  | equal => exact ⟨.relation, .equal, by decide, rfl, fun _ => rfl⟩
  | notEqual => exact ⟨.relation, .notEqual, by decide, rfl, fun _ => rfl⟩
  | less => exact ⟨.relation, .less, by decide, rfl, fun _ => rfl⟩
  | lessOrEqual => exact ⟨.relation, .lessEqual, by decide, rfl, fun _ => rfl⟩
  | greater => exact ⟨.relation, .greater, by decide, rfl, fun _ => rfl⟩
  | greaterOrEqual => exact ⟨.relation, .greaterEqual, by decide, rfl, fun _ => rfl⟩
  | add => exact ⟨.term, .plus, by decide, rfl, fun _ => rfl⟩
  | subtract => exact ⟨.term, .minus, by decide, rfl, fun _ => rfl⟩
  | multiply => exact ⟨.factor, .times, by decide, rfl, fun _ => rfl⟩
  | divide => exact ⟨.factor, .divide, by decide, rfl, fun _ => rfl⟩
  | modulo => exact ⟨.factor, .modulo, by decide, rfl, fun _ => rfl⟩
  | unlisted code => simp [BinaryOp.all] at declared

theorem join_spells {op : BinaryOp} (declared : op ∈ BinaryOp.all) (l : Location) {rest : List Char}
    (next : rest.head?.any isBlank = false) :
    ∃ (r : Rung) (t : Token), (t.kind, op) ∈ r.joins ∧
      Spells l ([' '] ++ (op.symbol.toList ++ [' '])) [t] rest := by
  have solid : ∀ op ∈ BinaryOp.all, op.symbol.toList ≠ [] ∧
      op.symbol.toList.head?.any isBlank = false := by decide
  obtain ⟨r, kind, joins, visible, found⟩ := symbol_found declared
  obtain ⟨filled, starts⟩ := solid op declared
  have blank : Spells l [' '] [] (op.symbol.toList ++ [' '] ++ rest) := by
    obtain ⟨c, more, symbol⟩ := List.exists_cons_of_ne_nil filled
    rw [symbol] at starts ⊢
    exact spells_blank starts
  have token : Spells (l.after [' ']) op.symbol.toList _ ([' '] ++ rest) :=
    spells_token visible filled (found rest)
  exact ⟨r, _, joins, blank.append (token.append (spells_blank next))⟩

theorem identifier_starts {cs : List Char}
    (identifies : TokenKind.firstMatch? cs = some (.identifier, cs.length)) :
    ∃ c more, cs = c :: more ∧ isNameStart c = true := by
  cases cs with
  | nil => contradiction
  | cons c more => exact ⟨c, more, rfl, Lexeme.firstMatch?_identifier identifies⟩

namespace Expr.Printable

variable {e : Expr}

/-- No text starts with a blank. -/
theorem starts (printable : Printable e) (rest : List Char) :
    (e.text.toList ++ rest).head?.any isBlank = false := by
  cases printable with
  | number form reads =>
    obtain ⟨c, more, shown, digit⟩ := form.starts
    have letter : isNameRest c = true := by simp [isNameRest, Char.isAlphanum, digit]
    simp [text, shown, not_blank letter]
  | @boolean value => cases value <;> simp [text, isBlank]
  | string | unary | binary => simp [text, isBlank]
  | ref identifies =>
    obtain ⟨c, more, shown, letter⟩ := identifier_starts identifies
    simp [text, shown, not_blank (isNameRest_of_start letter)]

theorem rereads (printable : Printable e) : Rereads .primary e.text.toList e := by
  induction printable with
  | @number value span form reads =>
    obtain ⟨c, more, shown, -⟩ := form.starts
    refine .ofToken .number rfl (by simp [text, shown]) (TokenKind.firstMatch?_numeral form) ?_
    intro l
    refine ⟨_, .number rfl ?_, rfl⟩
    simpa [text, tokenAt] using form.denotes reads
  | @boolean value span =>
    rw [text]
    cases value with
    | true =>
      refine .ofWord .boolean 't' ['r', 'u', 'e'] rfl rfl rfl fun l => ⟨_, .boolean rfl, ?_⟩
      simp [tokenAt, bare]
    | false =>
      refine .ofWord .boolean 'f' ['a', 'l', 's', 'e'] rfl rfl rfl fun l => ⟨_, .boolean rfl, ?_⟩
      simp [tokenAt, bare]
  | @string value span quoteless =>
    refine .ofToken .string rfl (by simp [text]) ?_ ?_
    · intro rest delimits
      simpa [text] using TokenKind.firstMatch?_quotation quoteless rest
    · exact fun l => ⟨_, .string rfl String.ofList_toList, rfl⟩
  | @ref name identifies =>
    obtain ⟨c, more, shown, letter⟩ := identifier_starts identifies
    rw [shown] at identifies
    rw [text, shown]
    refine .ofWord .identifier c more rfl letter identifies fun l => ⟨_, .name rfl, ?_⟩
    simp [tokenAt, bare, ← shown]
  | @unary op span operand declared inner ih =>
    -- The operator stands in parentheses, where expressions of any level are read.
    have operated : Rereads .or ((op.symbol ++ if op = .not then " " else "").toList ++
        operand.text.toList) (.unary op span operand) := by
      intro l rest delimits
      obtain ⟨r, t, marks, before⟩ := mark_spells declared l (inner.starts rest)
      obtain ⟨tokens, e', spells, derives, same⟩ := ih _ rest delimits
      exact ⟨_, _, before.append spells, .marked marks derives, by simp [bare, same]⟩
    simpa [text] using operated.parens
  | @binary op span left right declared first last ihl ihr =>
    have operated : Rereads .or (left.text.toList ++ ([' '] ++ (op.symbol.toList ++ [' ']) ++
        right.text.toList)) (.binary op span left right) := by
      intro l rest delimits
      obtain ⟨front, left', spells, derives, same⟩ := ihl l
        ([' '] ++ (op.symbol.toList ++ [' ']) ++ right.text.toList ++ rest) (delimits_blank _)
      obtain ⟨r, t, joins, between⟩ := join_spells declared (l.after left.text.toList)
        (last.starts rest)
      obtain ⟨back, right', spells', derives', same'⟩ := ihr _ rest delimits
      exact ⟨_, _, spells.append (between.append spells'), .joined joins derives derives',
        by simp [bare, same, same']⟩
    simpa [text] using operated.parens

end Expr.Printable

/-- The text of an expression is parsed without a report, and the expression returned differs from
the one printed in the places of its tokens only. -/
theorem parseExpression_text (e : Expr) (printable : e.Printable) :
    (parseExpression e.text).reports = [] ∧ (parseExpression e.text).value.bare = e.bare := by
  obtain ⟨tokens, e', ⟨lexemes, scanned, clean, rfl⟩, derives, same⟩ := printable.rereads .first []
    delimits_nil
  have whole : Lexeme.scan e.text = lexemes := by
    simpa [Lexeme.scan, Lexeme.scanFrom] using scanned
  rw [← whole] at clean derives
  have enough : (significantTokens e.text).length < Grammar.fuel (Lexeme.scan e.text) :=
    Nat.lt_succ_self _
  have exact : (Statecraft.Grammar.judge Grammar.rules (Grammar.fuel (Lexeme.scan e.text))
      (.call Rule.expression)).Exact _ (Avoids Rung.or.continues) (Derives .or) :=
    Grammar.expression_exact (Nat.le_refl _)
  obtain ⟨accepts, returns⟩ := Statecraft.Grammar.parse_exact clean exact enough (avoids_nil _)
  have derived : Derives .or (significantTokens e.text) e' := derives.climb .or
  refine ⟨accepts.mpr ⟨e', derived⟩, ?_⟩
  simpa only [parseExpression, returns e' derived, Option.getD_some] using same

def everyLeaf : Expr :=
  .unary .not .absent (.binary .lessOrEqual .absent
    (.binary .subtract .absent (.ref ⟨"stately", .absent⟩) (.number 1.5 .absent))
    (.unary .negate .absent (.string "(a b" .absent)))

theorem parseExpression_text_everyLeaf :
    everyLeaf.Printable ∧ everyLeaf.text = "(not ((stately - 1.5) <= (-'(a b')))" ∧
      (parseExpression everyLeaf.text).reports = [] ∧
      (parseExpression everyLeaf.text).value.bare = everyLeaf.bare := by
  have shown : Double.Layout.program.text 1.5 = "1.5" := by decide +kernel
  have decimal : Numeral (['1'] ++ '.' :: ['5']) :=
    .decimal (by decide) (by decide) (by decide) (by decide)
  have number : Numeral (Double.Layout.program.text 1.5).toList := by
    rw [shown]
    exact decimal
  have reads : Double.ofLiteral? (Double.Layout.program.text 1.5) = some 1.5 := by
    rw [shown]
    rfl
  have printable : everyLeaf.Printable :=
    .unary (by decide) (.binary (by decide)
      (.binary (by decide) (.ref rfl) (.number number reads))
      (.unary (by decide) (.string (by decide))))
  refine ⟨printable, ?_, parseExpression_text everyLeaf printable⟩
  simp [everyLeaf, Expr.text, shown, UnaryOp.symbol, BinaryOp.symbol]

end Statecraft.Source
