import Statecraft.Optimize.Fold
import Statecraft.Proofs.Improvement

/-! Constant folding. A sweep is a series of single folds, each of which replaces the
pushes of constants and the instruction that takes them by something shorter. No
label stands among them, so control enters at the first push and leaves after the
last instruction. -/
namespace Statecraft
namespace Code

/-- Some constants, the instruction that takes them and what both can be replaced by. -/
inductive Folds : List Value → Instruction → List Instruction → Prop where
  | binary {op : BinaryOp} {l r : Value} {left right : Ty} {meaning : BinaryMeaning}
      (defined : op.meaning? l.type r.type = some meaning) :
      Folds [l, r] (.binary op left right) [.push (meaning.apply l r)]
  | unary {op : UnaryOp} {v : Value} {operand : Ty} {meaning : UnaryMeaning}
      (defined : op.meaning? v.type = some meaning) :
      Folds [v] (.unary op operand) [.push (meaning.apply v)]
  | passed {v : Value} {label : String} (truth : v.toBool = true) : Folds [v] (.jumpIfNot label) []
  | taken {v : Value} {label : String} (truth : v.toBool = false) :
      Folds [v] (.jumpIfNot label) [.jump label]

def unfolded (before : List Instruction) (constants : List Value) (x : Instruction)
    (rest : List Instruction) : List Instruction :=
  before ++ constants.map .push ++ x :: rest

def folded (before short rest : List Instruction) : List Instruction := before ++ short ++ rest

variable {before short rest : List Instruction} {constants : List Value} {x y : Instruction}
  {i j k d : Nat} {label : String}

/-- The same place before and after a fold, outside of what is folded. -/
def Aligned (a constants short i j : Nat) : Prop :=
  i < a ∧ j = i ∨ a + constants + 1 ≤ i ∧ j + constants + 1 = i + short

theorem getElem?_constant (bound : k < constants.length) :
    (unfolded before constants x rest)[before.length + k]? = some (.push constants[k]) := by
  simp [unfolded, List.getElem?_append_right, List.getElem?_append_left, bound]

theorem getElem?_consumer :
    (unfolded before constants x rest)[before.length + constants.length]? = some x := by
  simp [unfolded]

theorem getElem?_short : (folded before [y] rest)[before.length]? = some y := by
  simp [folded]

theorem Aligned.same (aligned : Aligned before.length constants.length short.length i j) :
    (unfolded before constants x rest)[i]? = (folded before short rest)[j]? := by
  rcases aligned with ⟨bound, rfl⟩ | ⟨bound, shifted⟩
  · simp [unfolded, folded, List.getElem?_append_left, bound]
  · obtain ⟨k, rfl⟩ := Nat.exists_eq_add_of_le bound
    obtain rfl : j = before.length + short.length + k := by omega
    have old : before.length + constants.length + 1 + k -
        (before ++ constants.map Instruction.push).length = k + 1 := by simp; omega
    have new : before.length + short.length + k - (before ++ short).length = k := by simp
    rw [unfolded, folded, List.getElem?_append_right (by simp; omega), old,
      List.getElem?_append_right (by simp), new, List.getElem?_cons_succ]

/-- The first constant stands right after the code before. -/
theorem getElem?_first (folds : Folds constants x short) :
    ∃ v, (unfolded before constants x rest)[before.length]? = some (.push v) := by
  have some : 0 < constants.length := by cases folds <;> simp
  exact ⟨_, getElem?_constant some⟩

/-- The same places have the same places next to them, unless what is folded comes next. -/
theorem Aligned.next {a constants short : Nat} (aligned : Aligned a constants short i j) :
    Aligned a constants short (i + 1) (j + 1) ∨ i + 1 = a := by
  simp only [Aligned] at aligned ⊢
  omega

/-- Every label stands outside of what is folded. -/
theorem aligned_of_label (folds : Folds constants x short)
    (here : (unfolded before constants x rest)[i]? = some (.label label)) :
    ∃ j, Aligned before.length constants.length short.length i j := by
  rcases Nat.lt_or_ge i before.length with early | late
  · exact ⟨i, .inl ⟨early, rfl⟩⟩
  · obtain ⟨k, rfl⟩ := Nat.exists_eq_add_of_le late
    rcases Nat.lt_trichotomy k constants.length with less | rfl | more
    · simp [getElem?_constant less] at here
    · rw [getElem?_consumer] at here
      cases here
      nomatch folds
    · exact ⟨before.length + k + short.length - (constants.length + 1), .inr (by omega)⟩

theorem aligned_of_label_folded (folds : Folds constants x short)
    (here : (folded before short rest)[j]? = some (.label label)) :
    ∃ i, Aligned before.length constants.length short.length i j := by
  rcases Nat.lt_or_ge j before.length with early | late
  · exact ⟨j, .inl ⟨early, rfl⟩⟩
  · obtain ⟨k, rfl⟩ := Nat.exists_eq_add_of_le late
    rcases Nat.lt_or_ge k short.length with less | more
    · have inside : Instruction.label label ∈ short := by
        rw [folded, List.append_assoc, List.getElem?_append_right late,
          Nat.add_sub_cancel_left, List.getElem?_append_left less] at here
        exact List.mem_of_getElem? here
      cases folds <;> simp at inside
    · exact ⟨before.length + k + constants.length + 1 - short.length, .inr (by omega)⟩

theorem folds_linked (folds : Folds constants x short)
    (whole : Linked (unfolded before constants x rest)) : Linked (folded before short rest) := by
  have same : labels (folded before short rest) = labels (unfolded before constants x rest) := by
    cases folds <;> simp [folded, unfolded, labels_cons, Instruction.label?]
  refine ⟨same ▸ whole.distinct, fun l named => same ▸ whole.defined l ?_⟩
  cases folds with
  | binary | unary | taken =>
    simpa [folded, unfolded, jumpTargets_cons, Instruction.jumpTarget?] using named
  | passed =>
    simp only [folded, List.append_nil, jumpTargets_append, List.mem_append] at named
    simp only [unfolded, List.map_cons, List.map_nil, List.append_assoc, List.cons_append,
      List.nil_append, jumpTargets_append, jumpTargets_cons, Instruction.jumpTarget?,
      Option.toList_none, Option.toList_some, List.mem_append, List.mem_cons]
    exact named.imp_right .inr

/-- The places on both sides of a fold: the same outside of it; inside, the code after
the fold waits while the constants are pushed. -/
inductive Across (a short : Nat) (constants : List Value) : Correspondence where
  | outside {i j : Nat} {stack : List Value} (aligned : Aligned a constants.length short i j) :
      Across a short constants i stack j stack
  | inside {k : Nat} {stack : List Value} (bound : k ≤ constants.length) :
      Across a short constants (a + k) ((constants.take k).reverse ++ stack) a stack

/-- The label of a jump stands outside on both sides. -/
theorem across_of_label {p q : Program} {stack : List Value} (folds : Folds constants x short)
    (old : p.instructions = unfolded before constants x rest)
    (new : q.instructions = folded before short rest)
    (first : p.code[i]? = some (.label label)) (second : q.code[j]? = some (.label label)) :
    Across before.length short.length constants i stack j stack := by
  rw [p.getElem?_code, old] at first
  rw [q.getElem?_code, new] at second
  obtain ⟨t, aligned⟩ := aligned_of_label folds first
  obtain rfl : t = j :=
    label_unique (new ▸ q.linked.distinct) (aligned.same.symm.trans first) second
  exact .outside aligned

/-- Control goes to the same place on both sides. -/
theorem across_of_goes {p q : Program} {stack : List Value} {i' j' : Nat}
    (folds : Folds constants x short)
    (old : p.instructions = unfolded before constants x rest)
    (new : q.instructions = folded before short rest)
    (aligned : Aligned before.length constants.length short.length i j)
    (goes : y.Goes p q i j i' j') :
    Across before.length short.length constants i' stack j' stack := by
  cases goes with
  | on falls =>
    rcases aligned with ⟨bound, rfl⟩ | ⟨bound, shifted⟩
    · rcases Nat.lt_or_eq_of_le (Nat.succ_le_of_lt bound) with less | equal
      · exact .outside (.inl ⟨less, rfl⟩)
      · have here : Across before.length short.length constants before.length stack before.length
            stack := .inside (Nat.zero_le _)
        exact equal ▸ here
    · exact .outside (.inr (by omega))
  | away jumps first second => exact across_of_label folds old new first second

section

variable {p q : Program} {m n next : Machine} {stack : List Value} {l r v : Value}

theorem execute_binary {op : BinaryOp} {left right : Ty} {meaning : BinaryMeaning}
    (defined : op.meaning? l.type r.type = some meaning) (operands : m.stack = r :: l :: stack)
    (executed : m.execute (.binary op left right) = .ok next) :
    next = { m.next with stack := meaning.apply l r :: stack } := by
  simp only [Machine.execute, Machine.applyBinary, operands] at executed
  split at executed
  · contradiction
  · rename_i taken
    obtain ⟨⟨⟩, -⟩ := Machine.popTyped_ok taken
    split at executed
    · contradiction
    · rename_i taken
      obtain ⟨⟨⟩, -⟩ := Machine.popTyped_ok taken
      simp only [defined, Except.ok.injEq] at executed
      exact executed.symm

theorem execute_unary {op : UnaryOp} {operand : Ty} {meaning : UnaryMeaning}
    (defined : op.meaning? v.type = some meaning) (operands : m.stack = v :: stack)
    (executed : m.execute (.unary op operand) = .ok next) :
    next = { m.next with stack := meaning.apply v :: stack } := by
  simp only [Machine.execute, Machine.applyUnary, operands] at executed
  split at executed
  · contradiction
  · rename_i taken
    obtain ⟨⟨⟩, -⟩ := Machine.popTyped_ok taken
    simp only [defined, Except.ok.injEq] at executed
    exact executed.symm

theorem execute_jumpIfNot (operands : m.stack = v :: stack)
    (executed : m.execute (.jumpIfNot label) = .ok next) :
    if v.toBool then next = { m.next with stack := stack }
    else Machine.jumpTo { m with stack := stack } label = .ok next := by
  simp only [Machine.execute, operands] at executed
  split at executed
  · contradiction
  · rename_i taken
    obtain ⟨⟨⟩, -⟩ := Machine.popTyped_ok taken
    cases truth : v.toBool with
    | true =>
      simp only [truth, if_true, Except.ok.injEq] at executed
      rw [if_pos rfl]
      exact executed.symm
    | false => simpa [truth] using executed

/-- The constants are on the stack, and the machine before the fold takes them. -/
theorem folds_taken (folds : Folds constants x short)
    (old : p.instructions = unfolded before constants x rest)
    (new : q.instructions = folded before short rest)
    (paired : Paired p q (Across before.length short.length constants) m n)
    (running : m.stopped = false) (sound : m.stepped.fault = none)
    (place : m.ip = before.length + constants.length) (waits : n.ip = before.length)
    (operands : m.stack = constants.reverse ++ n.stack) :
    Keeps p q (Across before.length short.length constants) m n := by
  have current : p.code[m.ip]? = some x := by
    rw [p.getElem?_code, old, place, getElem?_consumer]
  obtain ⟨next, executed, -⟩ :=
    Machine.executed_of_sound running (by rw [paired.first, current]) sound
  have beyond : Aligned before.length constants.length short.length (m.ip + 1)
      (n.ip + short.length) := .inr (by omega)
  have second (y : Instruction) (only : short = [y]) : q.code[n.ip]? = some y := by
    rw [q.getElem?_code, new, waits, only, getElem?_short]
  cases folds with
  | binary defined =>
    obtain rfl := execute_binary defined operands executed
    exact paired.both running current (second _ rfl) executed rfl
      ⟨paired.store, paired.location, paired.walker, paired.exit⟩ ⟨paired.first, paired.second⟩ rfl
      fun _ => .outside beyond
  | unary defined =>
    obtain rfl := execute_unary defined operands executed
    exact paired.both running current (second _ rfl) executed rfl
      ⟨paired.store, paired.location, paired.walker, paired.exit⟩ ⟨paired.first, paired.second⟩ rfl
      fun _ => .outside beyond
  | passed truth =>
    have went := execute_jumpIfNot operands executed
    rw [if_pos truth] at went
    subst went
    exact paired.alone running current executed rfl (.outside beyond)
  | @taken v label truth =>
    have went := execute_jumpIfNot (show m.stack = v :: n.stack from operands) executed
    rw [if_neg (by simp [truth])] at went
    have there := second _ rfl
    obtain ⟨target, landed, -⟩ := Program.label_of_target there rfl
    obtain ⟨jumped, first⟩ := Machine.jumpTo_transplant n.ip n.steps went landed
    rw [paired.transplant_eq running] at jumped
    refine paired.both running current there executed jumped ⟨rfl, rfl, rfl, rfl⟩
      ⟨(Machine.execute_frame executed).1.trans paired.first, rfl⟩ rfl fun _ => ?_
    exact across_of_label (.taken truth) old new (paired.first ▸ first) landed

/-- The code after a fold does the same as the code before it. -/
theorem folds_simulates (folds : Folds constants x short)
    (old : p.instructions = unfolded before constants x rest)
    (new : q.instructions = folded before short rest) (graph : q.graph = p.graph) :
    Simulates p q (Across before.length short.length constants) := by
  refine ⟨graph, ?_, fun m n paired running sound => ?_⟩
  · rcases Nat.eq_zero_or_pos before.length with none | some
    · rw [none]
      exact .inside (Nat.zero_le _)
    · exact .outside (.inl ⟨some, rfl⟩)
  · have related := paired.related (Machine.stopped_eq_false.mp running).1
    generalize place : m.ip = i at related
    generalize operands : m.stack = first at related
    generalize place' : n.ip = j at related
    generalize operands' : n.stack = second at related
    cases related with
    | outside aligned =>
      have same : p.code[m.ip]? = q.code[n.ip]? := by
        rw [p.getElem?_code, q.getElem?_code, old, new, place, place', aligned.same]
      cases current : p.code[m.ip]? with
      | none => exact paired.ends running current (same.symm.trans current)
      | some y =>
        refine paired.together running sound (operands'.trans operands.symm) current
          (same.symm.trans current) fun i' j' stack goes => ?_
        rw [place, place'] at goes
        exact across_of_goes folds old new aligned goes
    | @inside k _ bound =>
      rcases Nat.lt_or_eq_of_le bound with less | rfl
      · have current : p.code[m.ip]? = some (.push constants[k]) := by
          rw [p.getElem?_code, old, place, getElem?_constant less]
        refine paired.alone running current rfl rfl ?_
        rw [place, place', operands, operands', Nat.add_assoc]
        have next : Across before.length short.length constants (before.length + (k + 1))
            ((constants.take (k + 1)).reverse ++ second) before.length second := .inside less
        rwa [List.take_succ_eq_append_getElem less, List.reverse_append] at next
      · refine folds_taken folds old new paired running sound place place' ?_
        rw [operands, operands', List.take_length]

end

/-- The index before a fold for an index after it. What replaces the fold stands for
its first push. -/
def Under (a constants short i j : Nat) : Prop :=
  Aligned a constants short i j ∨ 0 < short ∧ i = a ∧ j = a

theorem under_unique {a constants short i i' j : Nat} (first : Under a constants short i j)
    (second : Under a constants short i' j) : i = i' := by
  simp only [Under, Aligned] at first second
  omega

/-- Pushing constants deepens the stack. -/
theorem reaches_constants (here : Reaches (unfolded before constants x rest) before.length d)
    (bound : k ≤ constants.length) :
    Reaches (unfolded before constants x rest) (before.length + k) (d + k) := by
  induction k with
  | zero => exact here
  | succ k ih =>
    exact (ih (Nat.le_of_succ_le bound)).on (getElem?_constant bound) (Nat.zero_le _) rfl rfl

/-- A way to a fold goes on with what replaces it. -/
theorem reaches_enter (folds : Folds constants x short)
    (here : Reaches (unfolded before constants x rest) before.length d) :
    ∃ i, Under before.length constants.length short.length i before.length ∧
      Reaches (unfolded before constants x rest) i d := by
  cases folds with
  | binary | unary | taken => exact ⟨_, .inr ⟨Nat.one_pos, rfl, rfl⟩, here⟩
  | passed =>
    have pushed := reaches_constants here (Nat.le_refl _)
    refine ⟨_, .inl (.inr ⟨Nat.le_refl _, by simp⟩), ?_⟩
    exact pushed.on getElem?_consumer (Nat.le_add_left 1 d) rfl rfl

/-- What replaces a fold does to the depth what the fold does. -/
theorem reaches_short (folds : Folds constants x short)
    (here : Reaches (unfolded before constants x rest) before.length d)
    (current : (folded before short rest)[before.length]? = some y) (some : 0 < short.length)
    (flows : Flows (folded before short rest) before.length j) :
    ∃ i, Under before.length constants.length short.length i j ∧
      Reaches (unfolded before constants x rest) i (d - y.pops + y.pushes) := by
  have pushed := reaches_constants here (Nat.le_refl _)
  have next : Aligned before.length constants.length short.length
      (before.length + constants.length + 1) (before.length + short.length) := .inr (by omega)
  cases folds with
  | binary | unary =>
    cases current.symm.trans getElem?_short
    cases flows with
    | on found falls =>
      exact ⟨_, .inl next, pushed.on getElem?_consumer (by simp [Instruction.pops]) rfl rfl⟩
    | away found jumps =>
      cases found.symm.trans getElem?_short
      contradiction
  | passed => contradiction
  | taken truth =>
    cases current.symm.trans getElem?_short
    cases flows with
    | on found falls =>
      cases found.symm.trans getElem?_short
      contradiction
    | away found jumps there =>
      cases found.symm.trans getElem?_short
      obtain ⟨i, aligned⟩ := aligned_of_label_folded (.taken truth) there
      refine ⟨i, .inl aligned, ?_⟩
      exact pushed.away getElem?_consumer (by simp [Instruction.pops]) jumps
        (aligned.same.trans there) rfl

/-- A way through the code after a fold is a way through the code before it. -/
theorem folds_reaches (folds : Folds constants x short)
    (way : Reaches (folded before short rest) j d) :
    ∃ i, Under before.length constants.length short.length i j ∧
      Reaches (unfolded before constants x rest) i d := by
  induction way with
  | start =>
    rcases Nat.eq_zero_or_pos before.length with none | some
    · have here : Reaches (unfolded before constants x rest) before.length 0 := by
        rw [none]
        exact .start
      obtain ⟨i, under, way⟩ := reaches_enter folds here
      exact ⟨i, by simpa only [none] using under, way⟩
    · exact ⟨0, .inl (.inl ⟨some, rfl⟩), .start⟩
  | @step j j' d y here current enough flows ih =>
    obtain ⟨i, aligned | ⟨some, rfl, rfl⟩, way⟩ := ih
    · have there : (unfolded before constants x rest)[i]? = some y := aligned.same.trans current
      cases flows with
      | on found falls =>
        cases found.symm.trans current
        have onward := way.on there enough falls rfl
        rcases aligned with ⟨bound, rfl⟩ | ⟨bound, shifted⟩
        · rcases Nat.lt_or_eq_of_le (Nat.succ_le_of_lt bound) with less | equal
          · exact ⟨_, .inl (.inl ⟨less, rfl⟩), onward⟩
          · rw [show j + 1 = before.length from equal] at onward ⊢
            exact reaches_enter folds onward
        · exact ⟨_, .inl (.inr (by omega)), onward⟩
      | away found jumps label =>
        cases found.symm.trans current
        obtain ⟨t, aligned⟩ := aligned_of_label_folded folds label
        exact ⟨t, .inl aligned, way.away there enough jumps (aligned.same.trans label) rfl⟩
    · exact reaches_short folds way current some flows

theorem folds_balanced (folds : Folds constants x short)
    (whole : Balanced (unfolded before constants x rest)) :
    Balanced (folded before short rest) := by
  refine ⟨?_, ?_⟩
  · intro j d y way current
    obtain ⟨i, aligned | ⟨some, rfl, rfl⟩, way⟩ := folds_reaches folds way
    · exact whole.enough i d y way (aligned.same.trans current)
    · cases folds with
      | binary | unary | taken =>
        cases current.symm.trans getElem?_short
        exact Nat.zero_le d
      | passed => contradiction
  · intro j d e y first second current
    obtain ⟨i, under, first⟩ := folds_reaches folds first
    obtain ⟨i', under', second⟩ := folds_reaches folds second
    obtain rfl := under_unique under under'
    have there : ∃ z, (unfolded before constants x rest)[i]? = some z := by
      rcases under with aligned | ⟨some, rfl, rfl⟩
      · exact ⟨y, aligned.same.trans current⟩
      · have more : 0 < constants.length := by cases folds <;> simp
        exact ⟨_, getElem?_constant more⟩
    obtain ⟨z, there⟩ := there
    exact whole.agree i d e z first second there

end Code

/-- One fold improves a program. -/
theorem Program.improves_fold {p : Program} {before short rest : List Instruction}
    {constants : List Value} {x : Instruction} (folds : Code.Folds constants x short)
    (old : p.instructions = Code.unfolded before constants x rest) :
    p.Improves (Code.folded before short rest) := by
  have linked := Code.folds_linked folds (old ▸ p.linked)
  have simulates := Code.folds_simulates folds old (p.instructions_recode linked) rfl
  refine ⟨linked, simulates.refines, fun whole => Code.folds_balanced folds (old ▸ whole), ?_⟩
  have fewer : short.length ≤ constants.length := by cases folds <;> simp
  simp only [old, Code.folded, Code.unfolded, List.length_append, List.length_map,
    List.length_cons]
  omega

namespace Optimize.Folding

/-- A step of the sweep makes the fold that the instruction ends. If there is none, it keeps
the instruction. -/
theorem step_cases (f : Folding) (i : Instruction) :
    (f.step i = f.keep i ∧ ∀ before constants short, Code.Folds constants i short →
      f.out.reverse ≠ before ++ constants.map .push) ∨
    ∃ before constants short, Code.Folds constants i short ∧
      f.out.reverse = before ++ constants.map .push ∧ (f.step i).out.reverse = before ++ short := by
  have out {before : List Instruction} {constants : List Value}
      (ends : f.out.reverse = before ++ constants.map .push) :
      f.out = (constants.map .push).reverse ++ before.reverse := by
    rw [← List.reverse_append, ← ends, List.reverse_reverse]
  fun_cases Folding.step f i with
  | case1 op left right r l rest same meaning defined =>
    exact .inr ⟨rest.reverse, [l, r], _, .binary defined, by simp [same], by simp⟩
  | case2 op left right r l rest same undefined =>
    refine .inl ⟨rfl, fun before constants short folds ends => ?_⟩
    cases folds with
    | binary defined =>
      cases same.symm.trans (out ends)
      rw [undefined] at defined
      contradiction
  | case3 op operand v rest same meaning defined =>
    exact .inr ⟨rest.reverse, [v], _, .unary defined, by simp [same], by simp⟩
  | case4 op operand v rest same undefined =>
    refine .inl ⟨rfl, fun before constants short folds ends => ?_⟩
    cases folds with
    | unary defined =>
      cases same.symm.trans (out ends)
      rw [undefined] at defined
      contradiction
  | case5 label condition rest same =>
    cases truth : condition.toBool with
    | true => exact .inr ⟨rest.reverse, [condition], _, .passed truth, by simp [same], by simp⟩
    | false => exact .inr ⟨rest.reverse, [condition], _, .taken truth, by simp [same], by simp⟩
  | case6 _ notBinary notUnary notJump =>
    refine .inl ⟨rfl, fun before constants short folds ends => ?_⟩
    cases folds with
    | binary => exact notBinary _ _ _ _ _ _ rfl (out ends)
    | unary => exact notUnary _ _ _ _ rfl (out ends)
    | passed | taken => exact notJump _ _ _ rfl (out ends)

/-- A step of the sweep changes nothing or makes one fold. -/
theorem step_folds (f : Folding) (i : Instruction) (rest : List Instruction) :
    (f.step i).out.reverse ++ rest = f.out.reverse ++ i :: rest ∨
      ∃ before constants short, Code.Folds constants i short ∧
        f.out.reverse ++ i :: rest = Code.unfolded before constants i rest ∧
        (f.step i).out.reverse ++ rest = Code.folded before short rest := by
  rcases step_cases f i with ⟨same, -⟩ | ⟨before, constants, short, folds, old, new⟩
  · exact .inl (by simp [same, keep])
  · exact .inr ⟨before, constants, short, folds, by rw [old, Code.unfolded],
      by rw [new, Code.folded]⟩

/-- What every fold keeps of the code seen as a whole, a sweep keeps. -/
theorem sweep_keeps {P : List Instruction → Prop} {code : List Instruction}
    (keeps : ∀ before constants x short rest, Code.Folds constants x short →
      P (Code.unfolded before constants x rest) → P (Code.folded before short rest))
    (holds : P code) : P (sweep code).out.reverse := by
  have all (f : Folding) (rest : List Instruction) (holds : P (f.out.reverse ++ rest)) :
      P (rest.foldl step f).out.reverse := by
    induction rest generalizing f with
    | nil => simpa using holds
    | cons i rest ih =>
      refine ih (f.step i) ?_
      rcases step_folds f i rest with same | ⟨before, constants, short, folds, old, new⟩
      · rwa [same]
      · rw [new]
        exact keeps before constants i short rest folds (old ▸ holds)
  exact all start code holds

/-- A sweep improves every program. -/
theorem sweep_improves (p : Program) : p.Improves (sweep p.instructions).out.reverse := by
  refine sweep_keeps (fun before constants x short rest folds improves => ?_) (.refl p)
  exact improves.trans (Program.improves_fold folds rfl)

end Optimize.Folding
end Statecraft
