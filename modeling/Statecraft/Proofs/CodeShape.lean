import Statecraft.Proofs.Labels

/-! The shape of compiled code. Jumps lead on, to a label that comes later, or to the
section of a when-block, which starts with the location of the when-block. What follows a
label takes nothing from the stack and pushes nothing, since every action starts with its
location. Control never gets past the last instruction. -/
namespace Statecraft

/-- It can be part of a fold after what stands before it. -/
def Instruction.continues : Instruction → Bool
  | push _ | unary .. | binary .. | jumpIfNot _ => true
  | _ => false

namespace Code

/-- Code that can stand after a label. -/
def Opens (code : List Instruction) : Prop := ∀ y ∈ code.head?, y.continues = false

/-- Jumps lead on or to the given labels, and code goes on after a label as it can. -/
inductive Shaped (landings : List String) : List Instruction → Prop where
  | nil : Shaped landings []
  | cons {x : Instruction} {rest : List Instruction}
      (onward : ∀ l, x.jumpTarget? = some l → l ∈ landings ∨ .label l ∈ rest)
      (opens : x.label?.isSome = true → Opens rest) (later : Shaped landings rest) :
      Shaped landings (x :: rest)

variable {a b code : List Instruction} {x y : Instruction} {i : Nat} {name : String}
  {landings : List String}

/-- The last instruction is a jump or an exit. -/
def Closes (code : List Instruction) : Prop :=
  ∃ before x, code = before ++ [x] ∧ x.isTerminator = true

theorem Closes.append (a : List Instruction) (closes : Closes b) : Closes (a ++ b) := by
  obtain ⟨before, x, rfl, ends⟩ := closes
  exact ⟨a ++ before, x, (List.append_assoc ..).symm, ends⟩

theorem Opens.nil : Opens [] := by simp [Opens]

theorem Opens.append (first : Opens a) (second : Opens b) : Opens (a ++ b) := by
  cases a with
  | nil => exact second
  | cons => exact first

namespace Shaped

theorem plain (jump : x.jumpTarget? = none) (label : x.label? = none)
    (later : Shaped landings code) : Shaped landings (x :: code) :=
  .cons (by simp [jump]) (by simp [label]) later

theorem label (opens : Opens code) (later : Shaped landings code) :
    Shaped landings (.label name :: code) :=
  .cons nofun (fun _ => opens) later

theorem jump (jumps : x.jumpTarget? = some name) (onward : name ∈ landings ∨ .label name ∈ code)
    (later : Shaped landings code) : Shaped landings (x :: code) := by
  refine .cons ?_ ?_ later
  · rintro l named
    cases jumps.symm.trans named
    exact onward
  · intro label
    cases x <;> contradiction

theorem append (first : Shaped landings a) (second : Shaped landings b) (opens : Opens b) :
    Shaped landings (a ++ b) := by
  induction first with
  | nil => exact second
  | cons onward follows _ ih =>
    refine .cons ?_ ?_ ih
    · intro l named
      exact (onward l named).imp_right (List.mem_append_left b)
    · exact fun label => (follows label).append opens

/-- Code without labels and jumps has nothing to keep to. -/
theorem straight (labels : labels a = []) (jumps : jumpTargets a = [])
    (later : Shaped landings b) : Shaped landings (a ++ b) := by
  induction a with
  | nil => exact later
  | cons x rest ih =>
    rw [labels_cons, List.append_eq_nil_iff, Option.toList_eq_nil_iff] at labels
    rw [jumpTargets_cons, List.append_eq_nil_iff, Option.toList_eq_nil_iff] at jumps
    exact .plain jumps.1 labels.1 (ih labels.2 jumps.2)

/-- What stands after a label opens. -/
theorem seam (shaped : Shaped landings code) (here : code[i]? = some (.label name))
    (next : code[i + 1]? = some y) : y.continues = false := by
  induction shaped generalizing i with
  | nil => contradiction
  | @cons x rest onward opens later ih =>
    cases i with
    | zero =>
      cases here
      refine opens rfl y ?_
      rwa [List.head?_eq_getElem?]
    | succ i => exact ih here next

/-- Jumps lead on unless they lead to a landing. -/
theorem onward (shaped : Shaped landings code) (here : code[i]? = some x)
    (jumps : x.jumpTarget? = some name) :
    name ∈ landings ∨ ∃ j, i < j ∧ code[j]? = some (.label name) := by
  induction shaped generalizing i with
  | nil => contradiction
  | @cons first rest onward opens later ih =>
    cases i with
    | zero =>
      cases here
      refine (onward name jumps).imp_right fun member => ?_
      obtain ⟨j, there⟩ := List.mem_iff_getElem?.mp member
      exact ⟨j + 1, Nat.succ_pos j, there⟩
    | succ i =>
      refine (ih here).imp_right ?_
      rintro ⟨j, later, there⟩
      exact ⟨j + 1, Nat.succ_lt_succ later, there⟩

end Shaped
end Code

namespace Compile

open Source (Action Block Expr Name WhenBlock)
open Code (Closes Opens Shaped)

variable {scope : Scope}

/-- A condition and the jump that skips what it guards. -/
theorem guarded_shaped {landings : List String} (symbols : Symbols) (test : Expr)
    (span : Selection) {skip : String} {code : List Instruction} (onward : .label skip ∈ code)
    (later : Shaped landings code) :
    Shaped landings (.location span :: (condition symbols test).code ++ .jumpIfNot skip :: code) := by
  obtain ⟨labels, jumps⟩ := expr_plain symbols test
  refine .plain rfl rfl ?_
  rw [List.append_eq, condition_code]
  exact .straight labels jumps (.jump rfl (.inr onward) later)

theorem transition_shaped (counter : Nat) (a : Action) (target : Name) :
    Opens (transition scope counter a target).code ∧
      Shaped scope.withBlock (transition scope counter a target).code := by
  have exits : Shaped scope.withBlock [.exit .finalStateReached] := .plain rfl rfl .nil
  refine ⟨by simp [Opens, transition, Instruction.continues], .plain rfl rfl (.plain rfl rfl ?_)⟩
  split
  · rename_i member
    exact .jump rfl (.inl member) exits
  · exact exits

theorem assignment_shaped (counter : Nat) (a : Action) (name : Name) (value : Expr) :
    Opens (assignment scope counter a name value).code ∧
      Shaped scope.withBlock (assignment scope counter a name value).code := by
  obtain ⟨labels, jumps⟩ := expr_plain scope.symbols value
  refine ⟨by simp [Opens, assignment, Instruction.continues], .plain rfl rfl ?_⟩
  exact .straight labels jumps (.plain rfl rfl .nil)

theorem assertion_shaped (counter : Nat) (a : Action) (test : Expr) :
    Opens (assertion scope counter a test).code ∧
      Shaped scope.withBlock (assertion scope counter a test).code := by
  refine ⟨by simp [Opens, assertion, Instruction.continues], guarded_shaped _ _ _ (by simp) ?_⟩
  refine .jump rfl (.inr (by simp)) (.label ?_ (.plain rfl rfl (.label ?_ .nil)))
  · simp [Opens, Instruction.continues]
  · simp [Opens]

theorem conditional_shaped {counter : Nat} {keyword : Selection} {test : Expr}
    {body otherwise : ActionCode} (first : Opens body.code ∧ Shaped scope.withBlock body.code)
    (second : Opens otherwise.code ∧ Shaped scope.withBlock otherwise.code) :
    Opens (conditional scope counter keyword test body otherwise).code ∧
      Shaped scope.withBlock (conditional scope counter keyword test body otherwise).code := by
  refine ⟨by simp [Opens, conditional, Instruction.continues], ?_⟩
  have last (done : String) : Shaped scope.withBlock (otherwise.code ++ [.label done]) :=
    second.2.append (.label .nil .nil) (by simp [Opens, Instruction.continues])
  have opens (done : String) : Opens (otherwise.code ++ [.label done]) :=
    second.1.append (by simp [Opens, Instruction.continues])
  have between (done skip : String) : Shaped scope.withBlock
      (.jump done :: .label skip :: (otherwise.code ++ [.label done])) :=
    .jump rfl (.inr (by simp)) (.label (opens done) (last done))
  have rest (done skip : String) : Shaped scope.withBlock
      (body.code ++ .jump done :: .label skip :: (otherwise.code ++ [.label done])) :=
    first.2.append (between done skip) (by simp [Opens, Instruction.continues])
  simp only [conditional, List.append_assoc, List.cons_append, List.nil_append]
  exact guarded_shaped _ _ _ (by simp) (rest _ _)

mutual

/-- Actions start with their locations, and what they jump to comes later. -/
theorem action_shaped (a : Action) (counter : Nat) :
    Opens (action scope counter a).code ∧
      Shaped scope.withBlock (action scope counter a).code := by
  cases a with
  | transition keyword target => exact transition_shaped counter _ target
  | assignment name value => exact assignment_shaped counter _ name value
  | assertion keyword test => exact assertion_shaped counter _ test
  | nested body => exact block_shaped body counter
  | conditional keyword test body otherwise =>
    have first := block_shaped body (counter + 2)
    cases otherwise with
    | some other => exact conditional_shaped first (block_shaped other _)
    | none => exact conditional_shaped first ⟨.nil, .nil⟩

theorem block_shaped (b : Block) (counter : Nat) :
    Opens (block scope counter b).code ∧
      Shaped scope.withBlock (block scope counter b).code := by
  obtain ⟨_, body, _⟩ := b
  exact actions_shaped body counter

theorem actions_shaped (as : List Action) (counter : Nat) :
    Opens (actions scope counter as).code ∧
      Shaped scope.withBlock (actions scope counter as).code := by
  cases as with
  | nil => exact ⟨.nil, .nil⟩
  | cons a rest =>
    have first := action_shaped a counter
    cases terminator : (action scope counter a).terminator with
    | some target =>
      obtain ⟨more, same⟩ := actions_terminated terminator rest
      rw [same]
      exact first
    | none =>
      simp only [actions, terminator]
      have second := actions_shaped rest (action scope counter a).counter
      exact ⟨first.1.append second.1, first.2.append second.2 second.1⟩

end

/-- A section starts with the location of its when-block and goes round. -/
theorem section_shaped {b : WhenBlock} (within : b.state.text ∈ scope.withBlock) (counter : Nat) :
    Shaped scope.withBlock (sectionCode scope counter b) := by
  have body : Shaped scope.withBlock (block scope counter b.body).code :=
    (block_shaped b.body counter).2
  refine .label (by simp [Opens, Instruction.continues]) (.plain rfl rfl ?_)
  exact body.append (.jump rfl (.inl within) .nil) (by simp [Opens, Instruction.continues])

theorem Sections.foldl_shaped (blocks : List WhenBlock) {s : Sections}
    (within : ∀ b ∈ blocks, b.state.text ∈ scope.states → b.state.text ∈ scope.withBlock)
    (quiet : Quiet (blocks.foldl (add scope) s).reports) (shaped : Shaped scope.withBlock s.code)
    (closes : Closes s.code) :
    Shaped scope.withBlock (blocks.foldl (add scope) s).code ∧
      Closes (blocks.foldl (add scope) s).code := by
  induction blocks generalizing s with
  | nil => exact ⟨shaped, closes⟩
  | cons b rest ih =>
    have here : Quiet (add scope s b).reports := quiet.of_prefix (foldl_reports scope rest _)
    obtain ⟨same, declared, -⟩ := add_quiet here
    refine ih (fun b' member => within b' (List.mem_cons_of_mem _ member)) quiet ?_ ?_ <;>
      rw [same, compile_code]
    · exact shaped.append (section_shaped (within b List.mem_cons_self declared) s.counter)
        (by simp [Opens, sectionCode, Instruction.continues])
    · exact .append _ ⟨_, .jump b.state.text, rfl, rfl⟩

theorem entry_shaped (initial : Option String) (withBlock : List String) :
    Shaped withBlock (entry initial withBlock) := by
  have exits : Shaped withBlock [.exit .finalStateReached] := .plain rfl rfl .nil
  cases initial with
  | none => exact exits
  | some name =>
    by_cases member : name ∈ withBlock
    · simp only [entry, member, if_true]
      exact .jump rfl (.inl member) exits
    · simp only [entry, member, if_false]
      exact exits

/-- Compiled code has this shape, and sections start with their locations. -/
theorem accepted_shaped {program : Source.Program} {earlier reports : List Report} {p : Program}
    (accepted : Compile.program program earlier = .ok ⟨some p, reports⟩) :
    Shaped (scopeOf program).withBlock p.instructions ∧ Closes p.instructions ∧
      ∀ name ∈ (scopeOf program).withBlock, ∀ i : Nat,
        p.instructions[i]? = some (.label name) →
          ∃ span, p.instructions[i + 1]? = some (.location span) := by
  obtain ⟨-, -, -, -, -, quiet, code, -⟩ := accepted_parts accepted
  obtain ⟨-, houses, -⟩ := accepted_sections accepted
  obtain ⟨labels, jumps⟩ := Declared.foldl_plain program (d := {}) ⟨rfl, rfl⟩
  have first : Shaped (scopeOf program).withBlock (Sections.first program earlier).code :=
    .straight labels jumps (entry_shaped _ _)
  have closes : Closes (Sections.first program earlier).code :=
    .append _ ⟨_, .exit .finalStateReached, rfl, rfl⟩
  have within (b : WhenBlock) (member : b ∈ whenBlocks program)
      (declared : b.state.text ∈ (scopeOf program).states) :
      b.state.text ∈ (scopeOf program).withBlock :=
    List.mem_filter.mpr ⟨List.mem_map_of_mem member, decide_eq_true declared⟩
  obtain ⟨shaped, closed⟩ := Sections.foldl_shaped (whenBlocks program) within quiet first closes
  refine ⟨code ▸ shaped, code ▸ closed, ?_⟩
  intro name member i here
  obtain ⟨b, listed, rfl⟩ := List.mem_map.mp (List.mem_filter.mp member).1
  obtain ⟨-, counter, ⟨before, after, parts⟩, -⟩ := houses b listed
  rw [← code] at parts
  have there : p.instructions[before.length]? = some (.label b.state.text) := by
    simp [parts, sectionCode]
  obtain rfl := Code.label_unique p.linked.distinct here there
  exact ⟨.hullAll [b.keyword, b.state.span], by simp [parts, sectionCode]⟩

end Compile
end Statecraft
