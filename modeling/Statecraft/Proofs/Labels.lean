import Statecraft.Proofs.Balance
import Statecraft.Proofs.Sections

/-! The labels of compiled code. A section has the name of its state, and all other
labels are fresh: they start with a dollar sign, which no identifier does, and end in
a number that is used once. So accepted programs can always be assembled. -/
namespace Statecraft
namespace Code.Builder

/-- What a fresh name is made of before its number. It ends in no digit, so that the
number can be told from it. -/
def Stem (stem : String) : Prop :=
  ∃ start last, stem.toList = start ++ [last] ∧ last.isDigit = false

theorem stem_of_last {stem : String} (last : Char)
    (ends : stem.toList.getLast? = some last ∧ last.isDigit = false) : Stem stem := by
  obtain ⟨start, same⟩ := List.getLast?_eq_some_iff.mp ends.1
  exact ⟨start, last, same, ends.2⟩

def numberOf (label : String) : Nat :=
  Nat.ofDigitChars 10 (label.toList.reverse.takeWhile Char.isDigit).reverse 0

theorem toList_freshName (stem : String) (n : Nat) :
    (freshName stem n).toList = '$' :: (stem.toList ++ Nat.toDigits 10 n) := by
  simp [freshName]

theorem numberOf_freshName {stem : String} (stems : Stem stem) (n : Nat) :
    numberOf (freshName stem n) = n := by
  obtain ⟨start, last, same, apart⟩ := stems
  have digits : ∀ c ∈ (Nat.toDigits 10 n).reverse, c.isDigit = true := by
    intro c member
    exact Nat.isDigit_of_mem_toDigits (by omega) (by omega) (List.mem_reverse.mp member)
  rw [numberOf, toList_freshName, same]
  simp only [List.reverse_cons, List.reverse_append, List.append_assoc, List.nil_append,
    List.cons_append]
  rw [List.takeWhile_append_of_pos digits, List.takeWhile_cons_of_neg (by simp [apart]),
    List.append_nil, List.reverse_reverse, Nat.ofDigitChars_ten_toDigits]

/-- Names that were made fresh one after the other, each once, while the counter went
from one value to another. -/
structure Numbered (first last : Nat) (names : List String) : Prop where
  grows : first ≤ last
  distinct : names.Nodup
  fresh : ∀ name ∈ names, ∃ stem n, Stem stem ∧ first < n ∧ n ≤ last ∧ name = freshName stem n

namespace Numbered

variable {a b c : Nat} {first second names : List String}

theorem nil (a : Nat) : Numbered a a [] := ⟨Nat.le_refl a, .nil, nofun⟩

theorem number_bounds (numbered : Numbered a b names) {name : String} (member : name ∈ names) :
    a < numberOf name ∧ numberOf name ≤ b := by
  obtain ⟨stem, n, stems, low, high, rfl⟩ := numbered.fresh name member
  rw [numberOf_freshName stems]
  exact ⟨low, high⟩

theorem append (here : Numbered a b first) (there : Numbered b c second) :
    Numbered a c (first ++ second) := by
  refine ⟨Nat.le_trans here.grows there.grows, ?_, ?_⟩
  · refine List.nodup_append.mpr ⟨here.distinct, there.distinct, ?_⟩
    rintro name early _ late rfl
    have := here.number_bounds early
    have := there.number_bounds late
    omega
  · intro name member
    have := here.grows
    have := there.grows
    rcases List.mem_append.mp member with early | late
    · obtain ⟨stem, n, stems, low, high, same⟩ := here.fresh name early
      exact ⟨stem, n, stems, low, by omega, same⟩
    · obtain ⟨stem, n, stems, low, high, same⟩ := there.fresh name late
      exact ⟨stem, n, stems, by omega, high, same⟩

theorem perm (numbered : Numbered a b first) (same : first.Perm second) : Numbered a b second :=
  ⟨numbered.grows, same.nodup_iff.mp numbered.distinct,
    fun name member => numbered.fresh name (same.mem_iff.mpr member)⟩

/-- Two names made in a row. -/
theorem pair {stem stem' : String} (stems : Stem stem) (stems' : Stem stem') (a : Nat) :
    Numbered a (a + 2) [freshName stem (a + 1), freshName stem' (a + 2)] := by
  refine ⟨Nat.le_add_right a 2, ?_, ?_⟩
  · have apart : freshName stem (a + 1) ≠ freshName stem' (a + 2) := by
      intro same
      have numbers := congrArg numberOf same
      rw [numberOf_freshName stems, numberOf_freshName stems'] at numbers
      omega
    simp [apart]
  · intro name member
    simp only [List.mem_cons, List.not_mem_nil, or_false] at member
    rcases member with rfl | rfl
    · exact ⟨stem, a + 1, stems, by omega, by omega, rfl⟩
    · exact ⟨stem', a + 2, stems', by omega, by omega, rfl⟩

end Numbered
end Code.Builder

namespace Compile

open Source (Action Block Expr Name WhenBlock)
open Code (labels jumpTargets)
open Code.Builder (Numbered freshName stem_of_last)

variable {scope : Scope}

/-- The labels of actions are numbered by the counter, and their jumps lead to these
labels or to sections. -/
structure ActionCode.Closed (scope : Scope) (counter : Nat) (c : ActionCode) : Prop where
  numbered : Numbered counter c.counter (labels c.code)
  targets : ∀ l ∈ jumpTargets c.code, l ∈ labels c.code ∨ l ∈ scope.withBlock

/-- Neither labels nor jumps stand in the code of an expression. -/
theorem expr_plain (symbols : Symbols) (e : Expr) :
    labels (expr symbols e).code = [] ∧ jumpTargets (expr symbols e).code = [] := by
  induction e with
  | number | boolean | string => exact ⟨rfl, rfl⟩
  | ref name =>
    simp only [expr]
    split <;> exact ⟨rfl, rfl⟩
  | unary op opSpan operand ih =>
    simp only [expr]
    split
    · exact ih
    · split
      · simp [ih, Code.labels_cons, Code.jumpTargets_cons, Instruction.label?,
          Instruction.jumpTarget?]
      · exact ih
  | binary op opSpan left right ihl ihr =>
    simp only [expr]
    split
    · simp [ihl, ihr]
    · split <;> simp [ihl, ihr, Code.labels_cons, Code.jumpTargets_cons, Instruction.label?,
        Instruction.jumpTarget?]
  | invalid => exact ⟨rfl, rfl⟩

namespace ActionCode.Closed

variable {counter : Nat} {first second : ActionCode}

theorem none (counter : Nat) : ActionCode.Closed scope counter (.none counter) :=
  ⟨.nil counter, nofun⟩

theorem append (here : first.Closed scope counter) (there : second.Closed scope first.counter) :
    (first.append second).Closed scope counter := by
  refine ⟨?_, ?_⟩
  · rw [ActionCode.append, Code.labels_append]
    exact here.numbered.append there.numbered
  · intro l named
    rw [ActionCode.append, Code.jumpTargets_append, List.mem_append] at named
    rw [ActionCode.append, Code.labels_append, List.mem_append]
    rcases named with early | late
    · exact (here.targets l early).imp_left .inl
    · exact (there.targets l late).imp_left .inr

end ActionCode.Closed

theorem transition_closed (counter : Nat) (a : Action) (target : Name) :
    (transition scope counter a target).Closed scope counter := by
  simp only [transition]
  split
  · rename_i member
    exact ⟨.nil counter, by simp [jumpTargets, Instruction.jumpTarget?, member]⟩
  · exact ⟨.nil counter, by simp [jumpTargets, Instruction.jumpTarget?]⟩

theorem assignment_closed (counter : Nat) (a : Action) (name : Name) (value : Expr) :
    (assignment scope counter a name value).Closed scope counter := by
  obtain ⟨plain, straight⟩ := expr_plain scope.symbols value
  refine ⟨?_, ?_⟩
  · simpa [assignment, Code.labels_cons, Instruction.label?, plain] using Numbered.nil counter
  · simp [assignment, Code.jumpTargets_cons, Instruction.jumpTarget?, straight]

theorem assertion_closed (counter : Nat) (a : Action) (test : Expr) :
    (assertion scope counter a test).Closed scope counter := by
  obtain ⟨plain, straight⟩ := expr_plain scope.symbols test
  refine ⟨?_, ?_⟩
  · simpa [assertion, condition_code, Code.labels_cons, Instruction.label?, plain] using
      Numbered.pair (stem_of_last 'l' (by decide)) (stem_of_last 'k' (by decide)) counter
  · simp [assertion, condition_code, Code.jumpTargets_cons, Code.labels_cons,
      Instruction.jumpTarget?, Instruction.label?, straight]

theorem conditional_closed {counter : Nat} {keyword : Selection} {test : Expr}
    {body otherwise : ActionCode} (here : body.Closed scope (counter + 2))
    (there : otherwise.Closed scope body.counter) :
    (conditional scope counter keyword test body otherwise).Closed scope counter := by
  obtain ⟨plain, straight⟩ := expr_plain scope.symbols test
  have pair : Numbered counter (counter + 2)
      [freshName "if_false" (counter + 1), freshName "if_end" (counter + 2)] :=
    .pair (stem_of_last 'e' (by decide)) (stem_of_last 'd' (by decide)) counter
  have names : labels (conditional scope counter keyword test body otherwise).code =
      labels body.code ++ freshName "if_false" (counter + 1) ::
        (labels otherwise.code ++ [freshName "if_end" (counter + 2)]) := by
    simp [conditional, condition_code, Code.labels_cons, Instruction.label?, plain]
  refine ⟨?_, ?_⟩
  · refine (pair.append (here.numbered.append there.numbered)).perm ?_
    rw [names]
    refine List.Perm.trans (.cons _ ?_) List.perm_middle.symm
    rw [← List.append_assoc]
    exact (List.perm_append_singleton _ _).symm
  · intro l named
    simp only [conditional, condition_code, List.cons_append, List.append_assoc, List.nil_append,
      Code.jumpTargets_cons, Code.jumpTargets_append, straight, Instruction.jumpTarget?,
      Option.toList_none, Option.toList_some, Code.jumpTargets_nil, List.append_nil,
      List.mem_cons, List.mem_append] at named
    simp only [names, List.mem_append, List.mem_cons, List.not_mem_nil, or_false]
    rcases named with rfl | inBody | rfl | inOther
    · exact .inl (.inr (.inl rfl))
    · exact (here.targets l inBody).imp_left .inl
    · exact .inl (.inr (.inr (.inr rfl)))
    · exact (there.targets l inOther).imp_left fun member => .inr (.inr (.inl member))

mutual

/-- The code of actions is closed. -/
theorem action_closed (a : Action) (counter : Nat) :
    (action scope counter a).Closed scope counter := by
  cases a with
  | transition keyword target => exact transition_closed counter _ target
  | assignment name value => exact assignment_closed counter _ name value
  | assertion keyword test => exact assertion_closed counter _ test
  | nested body => exact block_closed body counter
  | conditional keyword test body otherwise =>
    have first := block_closed body (counter + 2)
    cases otherwise with
    | some other => exact conditional_closed first (block_closed other _)
    | none => exact conditional_closed first (.none _)

theorem block_closed (b : Block) (counter : Nat) :
    (block scope counter b).Closed scope counter := by
  obtain ⟨_, body, _⟩ := b
  exact actions_closed body counter

theorem actions_closed (as : List Action) (counter : Nat) :
    (actions scope counter as).Closed scope counter := by
  cases as with
  | nil => exact .none counter
  | cons a rest =>
    have first := action_closed a counter
    cases terminator : (action scope counter a).terminator with
    | some target =>
      obtain ⟨more, same⟩ := actions_terminated terminator rest
      rw [same]
      exact ⟨first.numbered, first.targets⟩
    | none =>
      simp only [actions, terminator]
      exact first.append (actions_closed rest _)

end

/-- No state has a name that could be fresh. -/
def Scope.Plain (scope : Scope) : Prop := ∀ name ∈ scope.states, name.toList.head? ≠ some '$'

theorem freshName_not_plain (plain : scope.Plain) {name stem : String} {n : Nat}
    (declared : name ∈ scope.states) : name ≠ freshName stem n := by
  rintro rfl
  refine plain _ declared ?_
  rw [Code.Builder.toList_freshName]
  rfl

/-- Every label was made for a section or is fresh, and every jump leads to a label or
to the section of a when-block. -/
structure Sections.Tidy (s : Sections) (scope : Scope) : Prop where
  distinct : (Code.labels s.code).Nodup
  known : ∀ l ∈ Code.labels s.code, l ∈ s.labels ∧ l ∈ scope.states ∨
    ∃ stem n, Code.Builder.Stem stem ∧ n ≤ s.counter ∧ l = freshName stem n
  targets : ∀ l ∈ jumpTargets s.code, l ∈ Code.labels s.code ∨ l ∈ scope.withBlock

namespace Sections

variable {s : Sections} {b : WhenBlock}

theorem compile_tidy (plain : scope.Plain) (tidy : s.Tidy scope)
    (declared : b.state.text ∈ scope.states) (first : b.state.text ∉ s.labels) :
    (compile scope s b).Tidy scope := by
  have closed : (block scope s.counter b.body).Closed scope s.counter :=
    block_closed b.body s.counter
  have names : Code.labels (compile scope s b).code =
      Code.labels s.code ++ b.state.text :: Code.labels (block scope s.counter b.body).code := by
    simp [compile_code, sectionCode, Code.labels_cons, Instruction.label?]
  refine ⟨?_, ?_, ?_⟩
  · rw [names, List.nodup_append, List.nodup_cons]
    refine ⟨tidy.distinct, ⟨fun member => ?_, closed.numbered.distinct⟩, ?_⟩
    · obtain ⟨stem, n, -, -, -, same⟩ := closed.numbered.fresh _ member
      exact freshName_not_plain plain declared same
    · rintro l old _ new rfl
      rcases List.mem_cons.mp new with rfl | new
      · rcases tidy.known _ old with ⟨made, -⟩ | ⟨stem, n, -, -, same⟩
        · exact first made
        · exact freshName_not_plain plain declared same
      · obtain ⟨stem, n, -, low, -, same⟩ := closed.numbered.fresh l new
        rcases tidy.known l old with ⟨-, stated⟩ | ⟨stem', n', stems, bound, rfl⟩
        · exact freshName_not_plain plain stated same
        · have numbers := closed.numbered.number_bounds new
          rw [Code.Builder.numberOf_freshName stems] at numbers
          omega
  · intro l member
    rw [names, List.mem_append, List.mem_cons] at member
    rcases member with old | rfl | new
    · rcases tidy.known l old with ⟨made, stated⟩ | ⟨stem, n, stems, bound, same⟩
      · exact .inl ⟨List.mem_cons_of_mem _ made, stated⟩
      · exact .inr ⟨stem, n, stems, Nat.le_trans bound closed.numbered.grows, same⟩
    · exact .inl ⟨List.mem_cons_self, declared⟩
    · obtain ⟨stem, n, stems, -, bound, same⟩ := closed.numbered.fresh l new
      exact .inr ⟨stem, n, stems, bound, same⟩
  · intro l named
    simp only [compile_code, sectionCode, Code.jumpTargets_append, List.cons_append,
      Code.jumpTargets_cons, Instruction.jumpTarget?, Option.toList_none, Option.toList_some,
      Code.jumpTargets_nil, List.nil_append, List.append_nil, List.mem_append,
      List.mem_singleton] at named
    rw [names, List.mem_append, List.mem_cons]
    rcases named with old | new | rfl
    · exact (tidy.targets l old).imp_left .inl
    · exact (closed.targets l new).imp_left fun member => .inr (.inr member)
    · exact .inl (.inr (.inl rfl))

theorem foldl_tidy (plain : scope.Plain) (blocks : List WhenBlock) (tidy : s.Tidy scope)
    (quiet : Quiet (blocks.foldl (add scope) s).reports) :
    (blocks.foldl (add scope) s).Tidy scope := by
  induction blocks generalizing s with
  | nil => exact tidy
  | cons b rest ih =>
    have here : Quiet (add scope s b).reports := quiet.of_prefix (foldl_reports scope rest _)
    obtain ⟨same, declared, first⟩ := add_quiet here
    refine ih ?_ quiet
    rw [same]
    exact compile_tidy plain tidy declared first

end Sections

/-- The code of declarations has neither labels nor jumps. -/
theorem Declared.foldl_plain (xs : List Source.Definition) {d : Declared}
    (plain : labels d.code = [] ∧ jumpTargets d.code = []) :
    labels (xs.foldl add d).code = [] ∧ jumpTargets (xs.foldl add d).code = [] := by
  induction xs generalizing d with
  | nil => exact plain
  | cons x rest ih =>
    refine ih ?_
    cases x with
    | states list => rwa [add, states_code]
    | whenBlock b => exact plain
    | declaration x =>
      obtain ⟨first, second⟩ := expr_plain d.symbols x.value
      simp only [add, declaration]
      split
      · exact plain
      · simp [plain, first, second, Code.labels_cons, Code.jumpTargets_cons, Instruction.label?,
          Instruction.jumpTarget?]

variable {program : Source.Program} {earlier : List Report}

/-- The way to the first state jumps to a section if at all. -/
theorem entry_targets (initial : Option String) (withBlock : List String) :
    labels (entry initial withBlock) = [] ∧
      ∀ l ∈ jumpTargets (entry initial withBlock), l ∈ withBlock := by
  cases initial with
  | none => exact ⟨rfl, nofun⟩
  | some name =>
    by_cases member : name ∈ withBlock
    · simp [entry, member, Code.labels_cons, Code.jumpTargets_cons, Instruction.label?,
        Instruction.jumpTarget?]
    · simp [entry, member, Code.labels_cons, Code.jumpTargets_cons, Instruction.label?,
        Instruction.jumpTarget?]

theorem first_tidy (program : Source.Program) (earlier : List Report) :
    (Sections.first program earlier).Tidy (scopeOf program) := by
  obtain ⟨plain, straight⟩ : labels (Declared.ofProgram program).code = [] ∧
      jumpTargets (Declared.ofProgram program).code = [] := Declared.foldl_plain program ⟨rfl, rfl⟩
  obtain ⟨none, within⟩ :=
    entry_targets (scopeOf program).states.head? (scopeOf program).withBlock
  have names : Code.labels (Sections.first program earlier).code = [] := by
    simp [Sections.first, preamble, plain, none]
  refine ⟨by simp [names], by simp [names], fun l named => .inr (within l ?_)⟩
  simpa [Sections.first, preamble, straight] using named

/-- Programs without errors compile to code that can be assembled. -/
theorem sections_linked (plain : (scopeOf program).Plain)
    (quiet : Quiet (sectionsOf program earlier).reports)
    (fresh : (Declared.ofProgram program).graph.consumed = false) :
    Code.Linked (sectionsOf program earlier).code := by
  have tidy : (sectionsOf program earlier).Tidy (scopeOf program) :=
    Sections.foldl_tidy plain _ (first_tidy program earlier) quiet
  obtain ⟨houses, -⟩ := sections_housed quiet fresh
  refine ⟨tidy.distinct, fun l named => ?_⟩
  rcases tidy.targets l named with member | within
  · exact member
  · obtain ⟨b, here, rfl⟩ := List.mem_map.mp (List.mem_filter.mp within).1
    obtain ⟨-, counter, ⟨before, after, code⟩, -⟩ := houses b here
    rw [code]
    simp [sectionCode, Code.labels_cons, Instruction.label?]

end Compile
end Statecraft
