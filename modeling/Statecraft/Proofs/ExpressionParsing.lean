import Statecraft.Grammar.Program
import Statecraft.Proofs.ExactRepetition
import Statecraft.Proofs.ExpressionGrammar

/-! Expressions are read by their grammar. A source without stray characters is accepted as an
expression if and only if its tokens derive from the loosest rung, and the tree returned is the only
one they derive. -/
namespace Statecraft.Source

theorem unquoted_of_quotes {text content : String} (quotes : text = "'" ++ content ++ "'") :
    unquoted text = content := by
  simp [unquoted, quotes]

namespace Expr

variable {t : Token} {x : Float} {content : String}

theorem ofNumber_of_denotes (denotes : Denotes t.text x) : ofNumber t = .number x t.span := by
  rw [ofNumber, denotes.read]

theorem ofNumber_of_oversized (large : Oversized t.text) : ofNumber t = .invalid := by
  rw [ofNumber, large.unread]

theorem ofString_of_quotes (quotes : t.text = "'" ++ content ++ "'") :
    ofString t = .string content t.span := by
  rw [ofString, unquoted_of_quotes quotes]

theorem ofNumber_derives (spelt : t.Spelt) (kind : t.kind = .number) :
    Derives .primary [t] (ofNumber t) := by
  have numeral := spelt.number kind
  cases read : Double.ofLiteral? t.text with
  | some x =>
    have denotes := numeral.denotes read
    rw [ofNumber_of_denotes denotes]
    exact .number kind denotes
  | none =>
    have large := numeral.oversized read
    rw [ofNumber_of_oversized large]
    exact .oversized kind large

theorem ofString_derives (spelt : t.Spelt) (kind : t.kind = .string) :
    Derives .primary [t] (ofString t) := by
  obtain ⟨content, quotes⟩ := spelt.string kind
  rw [ofString_of_quotes quotes]
  exact .string kind quotes

end Expr

namespace Grammar

open Judge (Exact any_opens)

variable {rules : ∀ {γ : Type}, Rule γ → Judge γ} {loops bound : Nat} {p : Parser Rule Expr}
  {first : TokenKind} {others : List TokenKind} {l k : Rung}

/-- A parser reads exactly the phrases of a rung, where they cannot go on. -/
def Climbs (rules : ∀ {γ : Type}, Rule γ → Judge γ) (loops bound : Nat) (l : Rung)
    (p : Parser Rule Expr) : Prop :=
  (p.judgeWith rules loops).Exact bound (Avoids l.continues) (Derives l)

theorem level_climbs (operand : Climbs rules loops bound k p) (operands : l.operands? = some k)
    (kinds : first :: others = l.kinds) (enough : bound ≤ loops) :
    Climbs rules loops bound l (level p first others) := by
  obtain ⟨continues, apart⟩ : l.continues = l.kinds ++ k.continues ∧
      ∀ kind ∈ l.kinds, kind ∉ k.continues := by
    cases l <;> cases operands <;> decide
  have same := Parser.judgeWith_anyToken rules loops first others
  rw [kinds] at same
  simp only [Climbs, level, Parser.judgeWith, same]
  refine (Exact.chain operand ?_ ?_ enough).congr (Derives.iff_chain operands).symm
  · intro after avoids
    rw [continues] at avoids
    exact ⟨avoids.anti (List.subset_append_left _ _), avoids.anti (List.subset_append_right _ _)⟩
  · exact fun kind => avoids_cons.mpr (apart _ kind)

theorem signed_climbs (inner : Climbs rules loops bound k p) (operand : l.operand? = some k)
    (kinds : first :: others = l.signs) : Climbs rules loops bound l (signed p first others) := by
  obtain ⟨continues, apart⟩ : l.continues = k.continues ∧ ∀ kind ∈ k.opens, kind ∉ l.signs := by
    cases l <;> cases operand <;> decide
  have same := Parser.judgeWith_anyToken rules loops first others
  rw [kinds] at same
  simp only [Climbs, signed, Parser.map, Parser.judgeWith, same, continues]
  have marked (t : Token) := Exact.map (f := Expr.prefixed t) inner
  refine (((Exact.afterAny marked).mono (Nat.le_succ bound)).orElse (any_opens _ l.signs).bind inner
    ?_).congr (Derives.iff_marked operand).symm
  intro used e after derives _
  obtain ⟨t, rest, rfl, kind⟩ := derives.opens
  exact avoids_cons.mpr (apart _ kind)

theorem relation_climbs (operand : Climbs rules loops bound .term term) :
    Climbs rules loops bound .relation relation := by
  have same := Parser.judgeWith_anyToken rules loops .notEqual
    [.equal, .lessEqual, .less, .greaterEqual, .greater]
  simp only [Climbs, relation, Parser.optional, Parser.map, Parser.judgeWith, same]
  have operand' : (term.judgeWith rules loops).Exact bound (Avoids Rung.relation.continues)
    (Derives .term) := operand.narrow fun avoids => avoids.anti (List.subset_append_right _ _)
  have compared (left : Expr) (t : Token) := Exact.map (f := Expr.infixed left t) operand'
  refine (operand.bind (fun left => ((Exact.afterAny (compared left)).mono (Nat.le_succ bound)).orElse
    (any_opens _ Rung.relation.kinds).bind (Exact.succeed bound _ left) ?_) ?_).congr
    Derives.relation_iff.symm
  · rintro used e after ⟨rfl, -⟩ avoids
    exact avoids.anti (List.subset_append_left _ _)
  · rintro left back e after (⟨t, rest, rfl, kind, -⟩ | ⟨rfl, -⟩) avoids
    · have apart : ∀ kind ∈ Rung.relation.kinds, kind ∉ Rung.term.continues := by decide
      exact avoids_cons.mpr (apart _ kind)
    · exact avoids.anti (List.subset_append_right _ _)

/-- A token that is a tree of its own. -/
theorem leaf_exact (Ends : List Token → Prop) (kind : TokenKind) (tree : Token → Expr) :
    (((Parser.token kind).map tree).judgeWith rules loops).Exact bound Ends
      fun used e => ∃ t, e = tree t ∧ used = [t] ∧ t.kind = kind :=
  (Exact.token bound Ends kind).map

theorem leaf_opens (kind : TokenKind) (tree : Token → Expr) :
    (((Parser.token kind).map tree).judgeWith rules loops).Opens bound [kind] :=
  (Judge.token_opens bound kind).bind

/-- A literal or a name is an operand without parentheses. -/
theorem literal_exact (Ends : List Token → Prop) :
    (literal.judgeWith rules loops).Exact bound Ends fun used e =>
      Derives .primary used e ∧ Avoids [.openParen] used := by
  refine (Exact.orElse (Exact.orElse (Exact.orElse (leaf_exact Ends _ _) (leaf_opens _ _)
    (leaf_exact Ends _ _) ?_) ((leaf_opens _ _).orElse (leaf_opens _ _)) (leaf_exact Ends _ _) ?_)
    (((leaf_opens _ _).orElse (leaf_opens _ _)).orElse (leaf_opens _ _))
    (leaf_exact Ends _ _) ?_).congrSpelt ?_ ?_
  iterate 3
    rintro used e after ⟨t, rfl, rfl, kind⟩ _
    simp [kind]
  · rintro used e ⟨derives, other⟩
    cases derives with
    | number kind denotes =>
      exact .inl (.inl (.inl ⟨_, (Expr.ofNumber_of_denotes denotes).symm, rfl, kind⟩))
    | oversized kind large =>
      exact .inl (.inl (.inl ⟨_, (Expr.ofNumber_of_oversized large).symm, rfl, kind⟩))
    | boolean kind => exact .inl (.inl (.inr ⟨_, rfl, rfl, kind⟩))
    | string kind quotes => exact .inl (.inr ⟨_, (Expr.ofString_of_quotes quotes).symm, rfl, kind⟩)
    | name kind => exact .inr ⟨_, rfl, rfl, kind⟩
    | parens opens => simp [opens] at other
  · intro used e scanned leaf
    rcases leaf with ((⟨t, rfl, rfl, kind⟩ | ⟨t, rfl, rfl, kind⟩) | ⟨t, rfl, rfl, kind⟩) |
      ⟨t, rfl, rfl, kind⟩
    · exact ⟨Expr.ofNumber_derives (scanned t (by simp)) kind, by simp [kind]⟩
    · exact ⟨.boolean kind, by simp [kind]⟩
    · exact ⟨Expr.ofString_derives (scanned t (by simp)) kind, by simp [kind]⟩
    · exact ⟨.name kind, by simp [kind]⟩

theorem parenthesized_exact (Ends : List Token → Prop)
    (inner : (rules Rule.expression).Exact bound (Avoids Rung.or.continues) (Derives .or)) :
    (parenthesized.judgeWith rules loops).Exact (bound + 1) Ends fun used e =>
      ∃ opening closing inside, used = opening :: (inside ++ [closing]) ∧
        opening.kind = .openParen ∧ closing.kind = .closeParen ∧ Derives .or inside e := by
  have closes (e : Expr) := (Exact.map (f := fun _ => e) (Exact.token bound Ends .closeParen)).recover
  refine (Exact.afterToken fun _ => inner.bind closes ?_).congr ?_
  · rintro e back _ after ⟨closing, rfl, rfl, kind⟩ _
    refine avoids_cons.mpr ?_
    rw [kind]
    decide
  · intro used e
    constructor
    · rintro ⟨opening, _, rfl, opens, inside, _, _, rfl, derives, closing, rfl, rfl, closes⟩
      exact ⟨opening, closing, inside, rfl, opens, closes, derives⟩
    · rintro ⟨opening, closing, inside, rfl, opens, closes, derives⟩
      exact ⟨opening, _, rfl, opens, inside, e, _, rfl, derives, closing, rfl, rfl, closes⟩

theorem primary_climbs
    (inner : (rules Rule.expression).Exact bound (Avoids Rung.or.continues) (Derives .or)) :
    Climbs rules loops (bound + 1) .primary primary := by
  have opens := Judge.token_opens (bound + 1) .openParen
  refine ((parenthesized_exact _ inner).orElse opens.bind (literal_exact _).recover ?_).congr ?_
  · rintro used e after ⟨derives, other⟩ _
    obtain ⟨t, rest, rfl, -⟩ := derives.opens
    simpa using other
  · intro used e
    constructor
    · rintro (⟨opening, closing, inside, rfl, opens, closes, derives⟩ | ⟨derives, -⟩)
      · exact .parens opens derives closes
      · exact derives
    · intro derives
      cases derives with
      | parens opens derives closes => exact .inl ⟨_, _, _, rfl, opens, closes, derives⟩
      | number kind denotes => exact .inr ⟨.number kind denotes, by simp [kind]⟩
      | oversized kind large => exact .inr ⟨.oversized kind large, by simp [kind]⟩
      | boolean kind => exact .inr ⟨.boolean kind, by simp [kind]⟩
      | string kind quotes => exact .inr ⟨.string kind quotes, by simp [kind]⟩
      | name kind => exact .inr ⟨.name kind, by simp [kind]⟩

/-- From the expressions in parentheses to the expressions around them. -/
theorem expression_climbs (enough : bound < loops)
    (inner : (rules Rule.expression).Exact bound (Avoids Rung.or.continues) (Derives .or)) :
    Climbs rules loops (bound + 1) .or expression := by
  have sign : Climbs rules loops (bound + 1) .sign sign :=
    signed_climbs (primary_climbs inner) rfl rfl
  have factor : Climbs rules loops (bound + 1) .factor factor := level_climbs sign rfl rfl enough
  have term : Climbs rules loops (bound + 1) .term term := level_climbs factor rfl rfl enough
  have negation : Climbs rules loops (bound + 1) .not negation :=
    signed_climbs (relation_climbs term) rfl rfl
  have conjunction : Climbs rules loops (bound + 1) .and conjunction :=
    level_climbs negation rfl rfl enough
  exact level_climbs conjunction rfl rfl enough

/-- Calls of the rule read expressions, as long as they can be nested deep enough. -/
theorem expression_exact {depth : Nat} (enough : depth ≤ loops) :
    (Statecraft.Grammar.judgeRule Grammar.rules loops depth Rule.expression).Exact depth
      (Avoids Rung.or.continues) (Derives .or) := by
  induction depth with
  | zero => exact .none (Statecraft.Grammar.judgeRule_shrinks _ _ _ _)
  | succ depth ih => exact expression_climbs enough (ih (Nat.le_of_succ_le enough))

end Grammar

/-- A source without stray characters is accepted as an expression if and only if its
tokens derive from the loosest rung of the ladder; the tree returned is then the tree
of the derivation, so there is no other. It has all its leaves if and only if every number of the
source is one that a double is near. -/
theorem parseExpression_iff (source : String)
    (clean : ∀ x ∈ Lexeme.scan source, x.stray? = none) :
    ((parseExpression source).reports = [] ↔ ∃ e, Derives .or (significantTokens source) e) ∧
      ∀ e, Derives .or (significantTokens source) e →
        (parseExpression source).value = e ∧
          (e.Complete ↔ ∀ t ∈ significantTokens source, t.Fits) := by
  have enough : (significantTokens source).length < Grammar.fuel (Lexeme.scan source) :=
    Nat.lt_succ_self _
  have exact : (Statecraft.Grammar.judge Grammar.rules (Grammar.fuel (Lexeme.scan source))
      (.call Rule.expression)).Exact _ (Avoids Rung.or.continues) (Derives .or) :=
    Grammar.expression_exact (Nat.le_refl _)
  obtain ⟨accepts, returns⟩ := Statecraft.Grammar.parse_exact clean exact enough (avoids_nil _)
  refine ⟨accepts, ?_⟩
  intro e derives
  refine ⟨?_, derives.complete_iff⟩
  simp only [parseExpression, returns e derives, Option.getD_some]

/-- Differences group from the left, and the parentheses leave no trace. -/
theorem parseExpression_iff_differences :
    (∀ x ∈ Lexeme.scan "12 - 'b' - (c)", x.stray? = none) ∧
      (parseExpression "12 - 'b' - (c)").reports = [] ∧
      (parseExpression "12 - 'b' - (c)").value.Complete ∧
      (parseExpression "12 - 'b' - (c)").value =
        .binary .subtract (.char ⟨1, 10⟩)
          (.binary .subtract (.char ⟨1, 4⟩) (.number 12 ⟨⟨1, 1⟩, ⟨1, 2⟩⟩)
            (.string "b" ⟨⟨1, 6⟩, ⟨1, 8⟩⟩))
          (.ref ⟨"c", .char ⟨1, 13⟩⟩) := by
  have clean : ∀ x ∈ Lexeme.scan "12 - 'b' - (c)", x.stray? = none := by decide +kernel
  obtain ⟨accepts, returns⟩ := parseExpression_iff "12 - 'b' - (c)" clean
  have tokens : significantTokens "12 - 'b' - (c)" =
      ([⟨.number, "12", ⟨⟨1, 1⟩, ⟨1, 2⟩⟩⟩] ++ ⟨.minus, "-", .char ⟨1, 4⟩⟩ ::
        [⟨.string, "'b'", ⟨⟨1, 6⟩, ⟨1, 8⟩⟩⟩]) ++ ⟨.minus, "-", .char ⟨1, 10⟩⟩ ::
        ⟨.openParen, "(", .char ⟨1, 12⟩⟩ :: ([⟨.identifier, "c", .char ⟨1, 13⟩⟩] ++
          [⟨.closeParen, ")", .char ⟨1, 14⟩⟩]) := by
    decide +kernel
  have operand {used : List Token} {e : Expr} (only : Derives .primary used e) :
      Derives .factor used e := .multiplicand (.unsigned only)
  have numeral : Numeral "12".toList := .whole (by decide) (by decide)
  have denotes : Denotes "12" 12 := numeral.denotes rfl
  have number (s : Selection) : Derives .factor [⟨.number, "12", s⟩] (.number 12 s) :=
    operand (.number rfl denotes)
  have string (s : Selection) : Derives .factor [⟨.string, "'b'", s⟩] (.string "b" s) :=
    operand (.string rfl rfl)
  have name (s : Selection) : Derives .factor [⟨.identifier, "c", s⟩] (.ref ⟨"c", s⟩) :=
    operand (.name rfl)
  have inner : Derives .or [⟨.identifier, "c", .char ⟨1, 13⟩⟩] (.ref ⟨"c", .char ⟨1, 13⟩⟩) :=
    .disjunct (.conjunct (.affirmed (.unrelated (.addend (name _)))))
  have difference : Derives .term
      ([⟨.number, "12", ⟨⟨1, 1⟩, ⟨1, 2⟩⟩⟩] ++ ⟨.minus, "-", .char ⟨1, 4⟩⟩ ::
        [⟨.string, "'b'", ⟨⟨1, 6⟩, ⟨1, 8⟩⟩⟩])
      (.binary .subtract (.char ⟨1, 4⟩) (.number 12 ⟨⟨1, 1⟩, ⟨1, 2⟩⟩)
        (.string "b" ⟨⟨1, 6⟩, ⟨1, 8⟩⟩)) :=
    .sum (.addend (number _)) (by decide) (string _)
  have derives : Derives .or (significantTokens "12 - 'b' - (c)")
      (.binary .subtract (.char ⟨1, 10⟩)
        (.binary .subtract (.char ⟨1, 4⟩) (.number 12 ⟨⟨1, 1⟩, ⟨1, 2⟩⟩)
          (.string "b" ⟨⟨1, 6⟩, ⟨1, 8⟩⟩))
        (.ref ⟨"c", .char ⟨1, 13⟩⟩)) := by
    rw [tokens]
    refine .disjunct (.conjunct (.affirmed (.unrelated (.sum difference (by decide) ?_))))
    exact operand (.parens rfl inner rfl)
  obtain ⟨same, -⟩ := returns _ derives
  have complete : (parseExpression "12 - 'b' - (c)").value.Complete := by
    simp [same, Expr.Complete]
  exact ⟨clean, accepts.mpr ⟨_, derives⟩, complete, same⟩

end Statecraft.Source
