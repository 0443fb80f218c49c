import Statecraft.Compile.Expr
import Statecraft.Proofs.Meaning
import Statecraft.Proofs.Situation

/-! The code of an expression. An expression about which nothing is reported has a
type, it has a value of that type wherever the stored values have the types of their
symbols, and its code pushes that value and changes nothing else. -/
namespace Statecraft

theorem UnaryOp.apply_type {op : UnaryOp} {v : Value} {meaning : UnaryMeaning}
    (defined : op.meaning? v.type = some meaning) : (meaning.apply v).type = meaning.result := by
  cases op <;> cases v <;>
    simp only [UnaryOp.meaning?, Value.type, Option.some.injEq, reduceCtorEq] at defined <;>
    subst defined <;> rfl

theorem BinaryOp.apply_type {op : BinaryOp} {l r : Value} {meaning : BinaryMeaning}
    (defined : op.meaning? l.type r.type = some meaning) :
    (meaning.apply l r).type = meaning.result := by
  cases op <;> cases l <;> cases r <;>
    simp only [BinaryOp.meaning?, Value.type, Option.some.injEq, reduceCtorEq] at defined <;>
    subst defined <;> rfl

theorem UnaryOp.result_valid {op : UnaryOp} {t : Ty} {meaning : UnaryMeaning}
    (defined : op.meaning? t = some meaning) : meaning.result.isValid = true := by
  cases op <;> cases t <;>
    simp only [UnaryOp.meaning?, Option.some.injEq, reduceCtorEq] at defined <;>
    subst defined <;> rfl

theorem BinaryOp.result_valid {op : BinaryOp} {left right : Ty} {meaning : BinaryMeaning}
    (defined : op.meaning? left right = some meaning) : meaning.result.isValid = true := by
  cases op <;> cases left <;> cases right <;>
    simp only [BinaryOp.meaning?, Option.some.injEq, reduceCtorEq] at defined <;>
    subst defined <;> rfl

def Quiet (reports : List Report) : Prop := ∀ r ∈ reports, r.isError = false

@[simp] theorem quiet_nil : Quiet [] := by simp [Quiet]

@[simp] theorem quiet_append {a b : List Report} : Quiet (a ++ b) ↔ Quiet a ∧ Quiet b := by
  simp only [Quiet, List.mem_append, or_imp, forall_and]

@[simp] theorem quiet_cons {r : Report} {rest : List Report} :
    Quiet (r :: rest) ↔ r.isError = false ∧ Quiet rest := by
  simp only [Quiet, List.mem_cons, forall_eq_or_imp]

theorem quiet_iff {reports : List Report} : Quiet reports ↔ reports.any Report.isError = false := by
  simp [Quiet]

theorem Quiet.of_prefix {a b : List Report} (quiet : Quiet b) (shorter : a <+: b) : Quiet a :=
  fun r member => quiet r (shorter.subset member)

/-- Every variable and constant has a type with values. -/
def Symbols.Typed (symbols : Symbols) : Prop :=
  ∀ name s, Compile.valueSymbol? symbols name = some s → s.type.isValid = true

/-- Every variable and constant is stored with a value of its type. -/
def Store.Fits (store : Store) (symbols : Symbols) : Prop :=
  ∀ name s, Compile.valueSymbol? symbols name = some s →
    ∃ v, store.find? name = some v ∧ v.type = s.type

namespace Compile

variable {symbols : Symbols} {store : Store} {p : Program}

open Source (Expr)

@[simp] theorem undefinedVariable_isError (name : Source.Name) :
    (undefinedVariable name).isError = true := rfl

@[simp] theorem undefinedOperator_isError (e : Expr) (description : String) :
    (undefinedOperator e description).isError = true := rfl

/-- A complete expression about which nothing is reported has a type. -/
theorem expr_valid (typed : symbols.Typed) {e : Expr} (complete : e.Complete)
    (quiet : Quiet (expr symbols e).reports) : (expr symbols e).type.isValid = true := by
  induction e with
  | number | boolean | string => rfl
  | ref name =>
    cases found : valueSymbol? symbols name.text with
    | none => simp [expr, found] at quiet
    | some s => simpa only [expr, found] using typed _ _ found
  | unary op opSpan operand ih =>
    simp only [expr] at quiet ⊢
    cases valid : (expr symbols operand).type.isValid with
    | false =>
      simp only [valid, Bool.not_false, if_true] at quiet
      exact absurd (ih complete quiet) (by simp [valid])
    | true =>
      simp only [valid, Bool.not_true, Bool.false_eq_true, if_false] at quiet ⊢
      cases defined : op.meaning? (expr symbols operand).type with
      | none => simp [defined] at quiet
      | some meaning => exact UnaryOp.result_valid defined
  | binary op opSpan left right ihl ihr =>
    have operands : Quiet ((expr symbols left).reports ++ (expr symbols right).reports) := by
      simp only [expr] at quiet
      split at quiet
      · exact quiet
      · split at quiet
        · exact quiet
        · exact (quiet_append.mp quiet).1
    have valid := ihl complete.1 (quiet_append.mp operands).1
    have valid' := ihr complete.2 (quiet_append.mp operands).2
    simp only [expr, valid, valid', Bool.not_true, Bool.or_self, Bool.false_eq_true, if_false]
      at quiet ⊢
    cases defined : op.meaning? (expr symbols left).type (expr symbols right).type with
    | none => simp [defined] at quiet
    | some meaning => exact BinaryOp.result_valid defined
  | invalid => exact complete.elim

/-- What makes the type of a prefix operator valid. -/
theorem expr_unary {op : UnaryOp} {opSpan : Selection} {operand : Expr}
    (valid : (expr symbols (.unary op opSpan operand)).type.isValid = true) :
    (expr symbols operand).type.isValid = true ∧
      ∃ meaning, op.meaning? (expr symbols operand).type = some meaning ∧
        (expr symbols (.unary op opSpan operand)).type = meaning.result ∧
        (expr symbols (.unary op opSpan operand)).code =
          (expr symbols operand).code ++ [.unary op (expr symbols operand).type] := by
  simp only [expr] at valid ⊢
  split at valid
  · contradiction
  · rename_i inner
    split at valid
    · rename_i meaning defined
      have inner : (expr symbols operand).type.isValid = true := by simpa using inner
      exact ⟨inner, meaning, defined, by simp [inner]⟩
    · contradiction

/-- What makes the type of an infix operator valid. -/
theorem expr_binary {op : BinaryOp} {opSpan : Selection} {left right : Expr}
    (valid : (expr symbols (.binary op opSpan left right)).type.isValid = true) :
    (expr symbols left).type.isValid = true ∧ (expr symbols right).type.isValid = true ∧
      ∃ meaning, op.meaning? (expr symbols left).type (expr symbols right).type = some meaning ∧
        (expr symbols (.binary op opSpan left right)).type = meaning.result ∧
        (expr symbols (.binary op opSpan left right)).code =
          (expr symbols left).code ++ (expr symbols right).code ++
            [.binary op (expr symbols left).type (expr symbols right).type] := by
  simp only [expr] at valid ⊢
  split at valid
  · contradiction
  · rename_i inner
    split at valid
    · rename_i meaning defined
      obtain ⟨l, r⟩ : (expr symbols left).type.isValid = true ∧
          (expr symbols right).type.isValid = true := by simpa using inner
      exact ⟨l, r, meaning, defined, by simp [l, r]⟩
    · contradiction

/-- An expression with a type has a value of that type. -/
theorem expr_value (fits : store.Fits symbols) {e : Expr}
    (valid : (expr symbols e).type.isValid = true) :
    ∃ v, e.value? store = some v ∧ v.type = (expr symbols e).type := by
  induction e with
  | number | boolean | string => exact ⟨_, rfl, rfl⟩
  | ref name =>
    cases found : valueSymbol? symbols name.text with
    | none =>
      simp only [expr, found] at valid
      contradiction
    | some s =>
      simp only [expr, found]
      exact fits _ _ found
  | unary op opSpan operand ih =>
    obtain ⟨inner, meaning, defined, type, -⟩ := expr_unary valid
    obtain ⟨v, value, vtype⟩ := ih inner
    rw [← vtype] at defined
    refine ⟨meaning.apply v, by simp [Expr.value?, value, defined], ?_⟩
    rw [type, UnaryOp.apply_type defined]
  | binary op opSpan left right ihl ihr =>
    obtain ⟨l, r, meaning, defined, type, -⟩ := expr_binary valid
    obtain ⟨lv, lvalue, ltype⟩ := ihl l
    obtain ⟨rv, rvalue, rtype⟩ := ihr r
    rw [← ltype, ← rtype] at defined
    refine ⟨meaning.apply lv rv, by simp [Expr.value?, lvalue, rvalue, defined], ?_⟩
    rw [type, BinaryOp.apply_type defined]
  | invalid => contradiction

/-- The code of an expression with a type pushes its value. -/
theorem expr_leads (fits : store.Fits symbols) {e : Expr}
    (valid : (expr symbols e).type.isValid = true) {v : Value} (value : e.value? store = some v)
    {ip : Nat} (segment : p.Segment ip (expr symbols e).code) (stack : List Value)
    (state : String) :
    p.Leads ⟨ip, stack, store, state⟩ (expr symbols e).code.length []
      ⟨ip + (expr symbols e).code.length, v :: stack, store, state⟩ := by
  induction e generalizing ip stack v with
  | number | boolean | string =>
    cases value
    exact Program.leads_push segment.head
  | ref name =>
    cases found : valueSymbol? symbols name.text with
    | none =>
      simp only [expr, found] at valid
      contradiction
    | some s =>
      simp only [expr, found] at segment ⊢
      exact Program.leads_load segment.head value
  | unary op opSpan operand ih =>
    obtain ⟨inner, meaning, defined, -, code⟩ := expr_unary valid
    rw [code] at segment
    obtain ⟨w, operandValue, type⟩ := expr_value fits inner
    have leads := ih inner operandValue segment.left stack
    rw [← type] at defined segment
    obtain rfl : meaning.apply w = v := by simpa [Expr.value?, operandValue, defined] using value
    rw [code, List.length_append]
    exact leads.trans (Program.leads_unary segment.right.head defined)
  | binary op opSpan left right ihl ihr =>
    obtain ⟨l, r, meaning, defined, -, code⟩ := expr_binary valid
    rw [code] at segment
    obtain ⟨lv, lvalue, ltype⟩ := expr_value fits l
    obtain ⟨rv, rvalue, rtype⟩ := expr_value fits r
    have first := ihl l lvalue segment.left.left stack
    have second := ihr r rvalue segment.left.right (lv :: stack)
    rw [← ltype, ← rtype] at defined segment
    obtain rfl : meaning.apply lv rv = v := by
      simpa [Expr.value?, lvalue, rvalue, defined] using value
    have here := segment.right.head
    rw [List.length_append, ← Nat.add_assoc] at here
    rw [code, List.length_append, List.length_append, ← Nat.add_assoc, ← Nat.add_assoc]
    exact (first.trans second).trans (Program.leads_binary here defined)
  | invalid => contradiction

end Compile
end Statecraft
