import Statecraft.Proofs.Labels

/-! The stack depth of compiled code can be read off from one instruction to the next,
without following jumps: it is zero at every label and after every jump, and so at the
start of every action. Such code is balanced. -/
namespace Statecraft
namespace Code

/-- Takes the stack from one depth to another, with no depth at labels and jumps. -/
inductive Level : Nat → List Instruction → Nat → Prop where
  | nil (d : Nat) : Level d [] d
  | cons {d e : Nat} {x : Instruction} {rest : List Instruction} (enough : x.pops ≤ d)
      (label : x.label?.isSome = true → d = 0)
      (jump : x.jumpTarget?.isSome = true → d - x.pops + x.pushes = 0)
      (later : Level (d - x.pops + x.pushes) rest e) : Level d (x :: rest) e

namespace Level

variable {a b code : List Instruction} {x : Instruction} {d e m i j : Nat}

/-- An instruction that neither is a label nor jumps. -/
theorem plain (enough : x.pops ≤ d) (label : x.label? = none) (jump : x.jumpTarget? = none)
    (later : Level (d - x.pops + x.pushes) code e) : Level d (x :: code) e :=
  .cons enough (by simp [label]) (by simp [jump]) later

theorem label (name : String) (later : Level 0 code e) : Level 0 (.label name :: code) e :=
  .cons (Nat.le_refl 0) (fun _ => rfl) (by simp [Instruction.jumpTarget?]) later

theorem jump (target : String) (later : Level 0 code e) : Level 0 (.jump target :: code) e :=
  .cons (Nat.le_refl 0) (by simp [Instruction.label?]) (fun _ => rfl) later

theorem jumpIfNot (target : String) (later : Level 0 code e) :
    Level 1 (.jumpIfNot target :: code) e :=
  .cons (Nat.le_refl 1) (by simp [Instruction.label?]) (fun _ => rfl) later

theorem append (first : Level d a m) (second : Level m b e) : Level d (a ++ b) e := by
  induction first with
  | nil => exact second
  | cons enough label jump _ ih => exact .cons enough label jump (ih second)

theorem split (level : Level d (a ++ b) e) : ∃ m, Level d a m ∧ Level m b e := by
  induction a generalizing d with
  | nil => exact ⟨d, .nil d, level⟩
  | cons x rest ih =>
    cases level with
    | cons enough label jump later =>
      obtain ⟨m, first, second⟩ := ih later
      exact ⟨m, .cons enough label jump first, second⟩

theorem unique (first : Level d a m) (second : Level d a e) : m = e := by
  induction first with
  | nil => cases second; rfl
  | cons _ _ _ _ ih =>
    cases second with
    | cons _ _ _ later => exact ih later

/-- The depth before the instruction at an index. -/
theorem at_index (level : Level d code e) (current : code[i]? = some x) :
    ∃ m, Level d (code.take i) m ∧ x.pops ≤ m ∧ (x.label?.isSome = true → m = 0) ∧
      (x.jumpTarget?.isSome = true → m - x.pops + x.pushes = 0) ∧
      Level d (code.take (i + 1)) (m - x.pops + x.pushes) := by
  obtain ⟨inside, same⟩ := List.getElem?_eq_some_iff.mp current
  rw [← List.take_append_drop i code, List.drop_eq_getElem_cons inside, same] at level
  obtain ⟨m, first, second⟩ := level.split
  cases second with
  | cons enough label jump later =>
    refine ⟨m, first, enough, label, jump, ?_⟩
    rw [List.take_add_one, current]
    exact first.append (.cons enough label jump (.nil _))

/-- Every way has the depth that is read off. -/
theorem of_reaches (level : Level 0 code e) (way : Reaches code i d) : Level 0 (code.take i) d := by
  induction way with
  | start => exact .nil 0
  | @step i j d x here current enough flows ih =>
    obtain ⟨m, before, -, -, jump, next⟩ := level.at_index current
    obtain rfl := before.unique ih
    cases flows with
    | on => exact next
    | away found jumps there =>
      cases found.symm.trans current
      obtain ⟨m', before', -, label, -, -⟩ := level.at_index there
      obtain rfl : m' = 0 := label rfl
      rwa [jump (by simp [jumps])]

theorem balanced (level : Level 0 code e) : Balanced code := by
  refine ⟨?_, fun i d d' x way way' current =>
    (level.of_reaches way).unique (level.of_reaches way')⟩
  intro i d x way current
  obtain ⟨m, before, enough, -⟩ := level.at_index current
  obtain rfl := before.unique (level.of_reaches way)
  exact enough

end Level
end Code

namespace Compile

open Source (Action Block Expr Name WhenBlock)
open Code (Level)

variable {symbols : Symbols} {scope : Scope}

/-- The code of an expression with a type leaves one value. -/
theorem expr_level {e : Expr} (valid : (expr symbols e).type.isValid = true) (d : Nat) :
    Level d (expr symbols e).code (d + 1) := by
  induction e generalizing d with
  | number | boolean | string => exact .plain (Nat.zero_le d) rfl rfl (.nil _)
  | ref name =>
    cases found : valueSymbol? symbols name.text with
    | none =>
      simp only [expr, found] at valid
      contradiction
    | some s =>
      simp only [expr, found]
      exact .plain (Nat.zero_le d) rfl rfl (.nil _)
  | unary op opSpan operand ih =>
    obtain ⟨inner, -, -, -, code⟩ := expr_unary valid
    rw [code]
    exact (ih inner d).append (.plain (Nat.le_add_left 1 d) rfl rfl (.nil _))
  | binary op opSpan left right ihl ihr =>
    obtain ⟨l, r, -, -, -, code⟩ := expr_binary valid
    rw [code]
    refine ((ihl l d).append (ihr r (d + 1))).append ?_
    exact .plain (Nat.le_add_left 2 d) rfl rfl (.nil _)
  | invalid => contradiction

/-- A condition leaves one value for its jump. -/
theorem condition_level (typed : scope.symbols.Typed) {test : Expr} (complete : test.Complete)
    (quiet : Quiet (condition scope.symbols test).reports) :
    Level 0 (condition scope.symbols test).code 1 := by
  have boolean := condition_boolean typed complete quiet
  rw [condition_code]
  exact expr_level (by rw [boolean]; rfl) 0

theorem transition_level (counter : Nat) (a : Action) (target : Name) :
    Level 0 (transition scope counter a target).code 0 := by
  have exits : Level 0 [.exit .finalStateReached] 0 := .plain (Nat.le_refl 0) rfl rfl (.nil 0)
  refine Level.append (m := 0) (.append (m := 0) ?_ ?_) exits
  · exact .plain (Nat.le_refl 0) rfl rfl (.plain (Nat.le_refl 0) rfl rfl (.nil 0))
  · split
    · exact .jump target.text (.nil 0)
    · exact .nil 0

theorem assignment_level (typed : scope.symbols.Typed) {counter : Nat} {a : Action} {name : Name}
    {value : Expr} (complete : value.Complete)
    (quiet : Quiet (assignment scope counter a name value).reports) :
    Level 0 (assignment scope counter a name value).code 0 := by
  have valid : (expr scope.symbols value).type.isValid = true := by
    simp only [assignment, quiet_append] at quiet
    exact expr_valid typed complete quiet.1.2
  refine .plain (Nat.le_refl 0) rfl rfl ?_
  exact (expr_level valid 0).append (.plain (Nat.le_refl 1) rfl rfl (.nil 0))

theorem assertion_level (typed : scope.symbols.Typed) {counter : Nat} {a : Action} {test : Expr}
    (complete : test.Complete) (quiet : Quiet (assertion scope counter a test).reports) :
    Level 0 (assertion scope counter a test).code 0 := by
  refine .plain (Nat.le_refl 0) rfl rfl ?_
  refine (condition_level typed complete quiet).append ?_
  refine .jumpIfNot _ (.jump _ (.label _ ?_))
  exact .plain (Nat.le_refl 0) rfl rfl (.label _ (.nil 0))

theorem conditional_level (typed : scope.symbols.Typed) {counter : Nat} {keyword : Selection}
    {test : Expr} {body otherwise : ActionCode} (complete : test.Complete)
    (quiet : Quiet (condition scope.symbols test).reports) (first : Level 0 body.code 0)
    (second : Level 0 otherwise.code 0) :
    Level 0 (conditional scope counter keyword test body otherwise).code 0 := by
  have start : Level 0 (.location (.hullAll [keyword, test.span]) ::
      (condition scope.symbols test).code) 1 :=
    .plain (Nat.le_refl 0) rfl rfl (condition_level typed complete quiet)
  have upTo (done skip : String) :=
    (start.append (.jumpIfNot skip first)).append (.jump done (.label skip (.nil 0)))
  exact ((upTo _ _).append second).append (.label _ (.nil 0))

mutual

/-- The code of actions without an error leaves nothing on the stack. -/
theorem action_level (typed : scope.symbols.Typed) (a : Action) (counter : Nat)
    (complete : a.Complete) (quiet : Quiet (action scope counter a).reports) :
    Level 0 (action scope counter a).code 0 := by
  cases a with
  | transition keyword target => exact transition_level counter _ target
  | assignment name value => exact assignment_level typed complete quiet
  | assertion keyword test => exact assertion_level typed complete quiet
  | nested body => exact block_level typed body counter complete quiet
  | conditional keyword test body otherwise =>
    cases otherwise with
    | some other =>
      simp only [Action.Complete] at complete
      obtain ⟨test', body', rest⟩ := complete
      simp only [action, conditional, quiet_append] at quiet
      exact conditional_level typed test' quiet.1.1 (block_level typed body _ body' quiet.1.2)
        (block_level typed other _ rest quiet.2)
    | none =>
      simp only [Action.Complete] at complete
      obtain ⟨test', body', -⟩ := complete
      simp only [action, conditional, quiet_append] at quiet
      exact conditional_level typed test' quiet.1.1 (block_level typed body _ body' quiet.1.2)
        (.nil 0)

theorem block_level (typed : scope.symbols.Typed) (b : Block) (counter : Nat)
    (complete : b.Complete) (quiet : Quiet (block scope counter b).reports) :
    Level 0 (block scope counter b).code 0 := by
  obtain ⟨_, body, _⟩ := b
  exact actions_level typed body counter complete quiet

theorem actions_level (typed : scope.symbols.Typed) (as : List Action) (counter : Nat)
    (complete : Action.AllComplete as) (quiet : Quiet (actions scope counter as).reports) :
    Level 0 (actions scope counter as).code 0 := by
  cases as with
  | nil => exact .nil 0
  | cons a rest =>
    obtain ⟨here, there⟩ := complete
    cases terminator : (action scope counter a).terminator with
    | some target =>
      obtain ⟨more, same⟩ := actions_terminated terminator rest
      rw [same] at quiet ⊢
      exact action_level typed a counter here (quiet_append.mp quiet).1
    | none =>
      simp only [actions, terminator, ActionCode.append, quiet_append] at quiet ⊢
      exact (action_level typed a counter here quiet.1).append
        (actions_level typed rest _ there quiet.2)

end

theorem Declared.foldl_level (xs : List Source.Definition) {d : Declared} (typed : d.symbols.Typed)
    (complete : ∀ x ∈ xs, x.Complete) (quiet : Quiet (xs.foldl add d).reports)
    (level : Level 0 d.code 0) :
    (xs.foldl add d).symbols.Typed ∧ Level 0 (xs.foldl add d).code 0 := by
  induction xs generalizing d with
  | nil => exact ⟨typed, level⟩
  | cons x rest ih =>
    have later : ∀ y ∈ rest, y.Complete :=
      fun y member => complete y (List.mem_cons_of_mem _ member)
    have here : Quiet (d.add x).reports := quiet.of_prefix (foldl_reports rest (d.add x))
    cases x with
    | states list =>
      refine ih (states_typed typed list) later quiet ?_
      rwa [add, states_code]
    | whenBlock b => exact ih typed later quiet level
    | declaration x =>
      have first := complete _ List.mem_cons_self
      obtain ⟨valid, code, -⟩ := declaration_quiet typed first here
      refine ih (declaration_typed typed first here) later quiet ?_
      rw [add, code]
      refine level.append (.plain (Nat.le_refl 0) rfl rfl ?_)
      exact (expr_level valid 0).append (.plain (Nat.le_refl 1) rfl rfl (.nil 0))

theorem entry_level (initial : Option String) (withBlock : List String) :
    Level 0 (entry initial withBlock) 0 := by
  have exits : Level 0 [.exit .finalStateReached] 0 := .plain (Nat.le_refl 0) rfl rfl (.nil 0)
  refine Level.append (m := 0) ?_ exits
  split
  · split
    · exact .jump _ (.nil 0)
    · exact .nil 0
  · exact .nil 0

theorem Sections.foldl_level (typed : scope.symbols.Typed) (blocks : List WhenBlock) {s : Sections}
    (complete : ∀ b ∈ blocks, b.body.Complete)
    (quiet : Quiet (blocks.foldl (add scope) s).reports) (level : Level 0 s.code 0) :
    Level 0 (blocks.foldl (add scope) s).code 0 := by
  induction blocks generalizing s with
  | nil => exact level
  | cons b rest ih =>
    have here : Quiet (add scope s b).reports := quiet.of_prefix (foldl_reports scope rest _)
    obtain ⟨same, -, -⟩ := add_quiet here
    refine ih (fun b' member => complete b' (List.mem_cons_of_mem _ member)) quiet ?_
    rw [same] at here ⊢
    rw [compile_code]
    have body := block_level typed b.body s.counter (complete b List.mem_cons_self)
      (quiet_append.mp here).2
    refine level.append (.label _ ?_)
    exact .plain (Nat.le_refl 0) rfl rfl (body.append (.jump _ (.nil 0)))

/-- A complete program without errors compiles to balanced code. -/
theorem sections_balanced {program : Source.Program} {earlier : List Report}
    (complete : program.Complete) (quiet : Quiet (sectionsOf program earlier).reports) :
    Code.Balanced (sectionsOf program earlier).code := by
  obtain ⟨typed, declared⟩ : (Declared.ofProgram program).symbols.Typed ∧
      Level 0 (Declared.ofProgram program).code 0 :=
    Declared.foldl_level program Declared.empty_typed.1 complete (preamble_quiet quiet).2 (.nil 0)
  refine Level.balanced (e := 0) (Sections.foldl_level typed _ ?_ quiet ?_)
  · intro b member
    obtain ⟨d, here, same⟩ := List.mem_filterMap.mp member
    cases d with
    | whenBlock other =>
      cases same
      exact complete _ here
    | states | declaration => contradiction
  · exact declared.append (entry_level _ _)

end Compile
end Statecraft
