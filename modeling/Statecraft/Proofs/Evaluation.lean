import Statecraft.Proofs.Expression

/-! Running the code of an expression. It is executed from its front to its end, one step an
instruction, whatever else the program holds and whatever is on the stack. Behind it the value of
the expression is the operand on top, and nothing else of the machine has changed. -/
namespace Statecraft
namespace Machine

/-- So many instructions were executed in a row, and they left one more operand. -/
def pushed (m : Machine) (count : Nat) (v : Value) : Machine :=
  { m with ip := m.ip + count, stack := v :: m.stack, steps := m.steps + count }

variable {m : Machine} {a b : Nat} {v left right : Value}

@[simp] theorem pushed_program : (m.pushed a v).program = m.program := rfl

@[simp] theorem pushed_ip : (m.pushed a v).ip = m.ip + a := rfl

@[simp] theorem pushed_stack : (m.pushed a v).stack = v :: m.stack := rfl

@[simp] theorem pushed_store : (m.pushed a v).store = m.store := rfl

@[simp] theorem pushed_stopped : (m.pushed a v).stopped = m.stopped := rfl

theorem stepped_push (running : m.stopped = false)
    (current : m.program.code[m.ip]? = some (.push v)) : m.stepped = m.pushed 1 v :=
  stepped_of_ok running current rfl

theorem stepped_load {name : String} (running : m.stopped = false)
    (current : m.program.code[m.ip]? = some (.load name)) (found : m.store.find? name = some v) :
    m.stepped = m.pushed 1 v := by
  have executed : m.execute (.load name) = .ok { m.next with stack := v :: m.stack } := by
    simp only [execute, found]
  exact stepped_of_ok running current executed

/-- The operand that was pushed last is replaced by the result. -/
theorem stepped_unary {op : UnaryOp} {meaning : UnaryMeaning} (running : m.stopped = false)
    (current : m.program.code[m.ip + a]? = some (.unary op v.type))
    (defined : op.meaning? v.type = some meaning) :
    (m.pushed a v).stepped = m.pushed (a + 1) (meaning.apply v) := by
  have executed : (m.pushed a v).execute (.unary op v.type) =
      .ok { (m.pushed a v).next with stack := meaning.apply v :: m.stack } := by
    simp only [execute, applyUnary, pushed_stack, popTyped, if_true, defined]
  exact stepped_of_ok (m := m.pushed a v) running current executed

/-- The two operands that were pushed last are replaced by the result; the right one is on top. -/
theorem stepped_binary {op : BinaryOp} {meaning : BinaryMeaning} (running : m.stopped = false)
    (current : m.program.code[m.ip + (a + b)]? = some (.binary op left.type right.type))
    (defined : op.meaning? left.type right.type = some meaning) :
    ((m.pushed a left).pushed b right).stepped =
      m.pushed (a + b + 1) (meaning.apply left right) := by
  rw [← Nat.add_assoc] at current
  have executed : ((m.pushed a left).pushed b right).execute (.binary op left.type right.type) =
      .ok { ((m.pushed a left).pushed b right).next with
        stack := meaning.apply left right :: m.stack } := by
    simp only [execute, applyBinary, pushed_stack, popTyped, if_true, defined]
  rw [stepped_of_ok (m := (m.pushed a left).pushed b right) running current executed]
  simp only [pushed, next, Nat.add_assoc]

end Machine

namespace Compile

open Source (Expr)

variable {symbols : Symbols}

/-- The code of an expression with a type pushes its value. -/
theorem expr_pushes {e : Expr} {m : Machine} {v : Value} (fits : m.store.Fits symbols)
    (valid : (expr symbols e).type.isValid = true) (value : e.value? m.store = some v)
    (running : m.stopped = false) (segment : m.program.Segment m.ip (expr symbols e).code) :
    m.after (expr symbols e).code.length = m.pushed (expr symbols e).code.length v := by
  induction e generalizing m v with
  | number | boolean | string =>
    cases value
    exact Machine.stepped_push running segment.head
  | ref name =>
    cases found : valueSymbol? symbols name.text with
    | none =>
      simp only [expr, found] at valid
      contradiction
    | some s =>
      simp only [expr, found] at segment ⊢
      exact Machine.stepped_load running segment.head value
  | unary op opSpan operand ih =>
    obtain ⟨inner, meaning, defined, -, code⟩ := expr_unary valid
    rw [code] at segment
    obtain ⟨w, operandValue, type⟩ := expr_value fits inner
    have first := ih fits inner operandValue running segment.left
    rw [← type] at defined segment
    obtain rfl : meaning.apply w = v := by simpa [Expr.value?, operandValue, defined] using value
    rw [code, List.length_append, Machine.after_add, first]
    exact Machine.stepped_unary running segment.right.head defined
  | binary op opSpan left right ihl ihr =>
    obtain ⟨l, r, meaning, defined, -, code⟩ := expr_binary valid
    rw [code] at segment
    obtain ⟨lv, lvalue, ltype⟩ := expr_value fits l
    obtain ⟨rv, rvalue, rtype⟩ := expr_value fits r
    have first := ihl fits l lvalue running segment.left.left
    -- the right operand is computed above the left one
    have second := ihr (m := m.pushed _ lv) fits r rvalue running segment.left.right
    rw [← ltype, ← rtype] at defined segment
    obtain rfl : meaning.apply lv rv = v := by
      simpa [Expr.value?, lvalue, rvalue, defined] using value
    have here := segment.right.head
    rw [List.length_append] at here
    rw [code, List.length_append, List.length_append, Machine.after_add, Machine.after_add, first,
      second]
    exact Machine.stepped_binary running here defined
  | invalid => contradiction

/-- An expression with a type, about which nothing was reported then, has a value of that type
wherever the stored values have the types of their symbols. A machine that comes to its code with
any operands executes it instruction by instruction. Just past it the machine is as it was, but for
the value on top of the stack and the steps that were counted. -/
theorem expr_evaluates {e : Expr} {t : Ty} (type : (expr symbols e).type = t)
    (valid : t.isValid = true) {m : Machine} (fits : m.store.Fits symbols)
    (running : m.stopped = false) (segment : m.program.Segment m.ip (expr symbols e).code) :
    ∃ v, e.value? m.store = some v ∧ v.type = t ∧
      m.after (expr symbols e).code.length =
        { m with
          ip := m.ip + (expr symbols e).code.length
          stack := v :: m.stack
          steps := m.steps + (expr symbols e).code.length } := by
  subst type
  obtain ⟨v, value, type⟩ := expr_value fits valid
  exact ⟨v, value, type, expr_pushes fits valid value running segment⟩

/-- The operands are strings and a name, compared and combined in the middle of a program, above an
operand that was there before. The order of the strings is kept. -/
theorem expr_evaluates_joined :
    let symbols : Symbols :=
      ⟨[⟨"s", .constant, .string, .absent, false⟩, ⟨"done", .mutable, .boolean, .absent, false⟩]⟩
    let e : Expr := .binary .and .absent
      (.binary .equal .absent (.binary .add .absent (.string "a" .absent) (.ref ⟨"s", .absent⟩))
        (.string "ab" .absent))
      (.unary .not .absent (.ref ⟨"done", .absent⟩))
    let code : List Instruction := [.label "A"] ++ (expr symbols e).code ++ [.exit .success]
    let p : Program := ⟨code.toArray, symbols, none, by decide, by decide⟩
    let m : Machine := { Machine.start p with
      ip := 1
      stack := [.string "before"]
      store := ⟨[("s", .string "b"), ("done", .boolean false)]⟩ }
    (expr symbols e).type = .boolean ∧ m.store.Fits symbols ∧
      e.value? m.store = some (.boolean true) ∧
      m.after 8 = { m with ip := 9, stack := [.boolean true, .string "before"], steps := 8 } := by
  intro symbols e code p m
  have fits : m.store.Fits symbols := by
    intro name s found
    obtain ⟨found, -⟩ := Option.filter_eq_some_iff.mp found
    obtain rfl : s.name = name := by simpa using List.find?_some found
    have listed := List.mem_of_find?_eq_some found
    simp only [symbols, List.mem_cons, List.not_mem_nil, or_false] at listed
    rcases listed with rfl | rfl <;> exact ⟨_, rfl, rfl⟩
  have segment : p.Segment 1 (expr symbols e).code :=
    .of_instructions (show p.instructions = [.label "A"] ++ _ ++ [.exit .success] from rfl)
  have type : (expr symbols e).type = .boolean := by decide
  obtain ⟨v, value, -, last⟩ := expr_evaluates type rfl fits rfl segment
  obtain rfl : Value.boolean true = v := Option.some.inj value
  exact ⟨type, fits, value, last⟩

end Compile
end Statecraft
