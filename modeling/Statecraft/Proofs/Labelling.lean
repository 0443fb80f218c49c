import Mathlib.Data.List.Nodup
import Statecraft.Proofs.Labels

/-! Labels of the code builder. A builder is called in any order, and what its calls are answered is
settled by what happened to it before. A label is refused where it was defined, and nothing but
that is refused before a build. Fresh names are numbered, but the number follows a stem that may end
in digits itself, so two of them are the same in just one case. After a build a label is neither
defined nor refused: the table of labels is gone, and the call does not come back. -/
namespace Statecraft.Code

/-- The call fails without an answer. -/
def BuilderError.isCrash : BuilderError → Bool
  | labelsReleased => true
  | _ => false

namespace Builder

inductive Call where
  | emit (code : List Instruction)
  | label (name : String)
  | hasLabel (name : String)
  | newLabel (stem : String)
  | build (symbols : Symbols) (graph : Option Graph)

/-- How a call ends. A crash counts as a refusal. -/
inductive Answer where
  | done
  | refused (e : BuilderError)
  | told (known : Bool)
  | named (name : String)
  | built (p : Program)

def perform (b : Builder) : Call → Answer × Builder
  | .emit code => (.done, b.emit code)
  | .label name =>
      match b.label name with
      | .ok next => (.done, next)
      | .error e => (.refused e, b)
  | .hasLabel name => (.told (b.hasLabel name), b)
  | .newLabel stem => (.named (b.newLabel stem).1, (b.newLabel stem).2)
  | .build symbols graph =>
      match b.build symbols graph with
      | (.ok p, next) => (.built p, next)
      | (.error e, next) => (.refused e, next)

abbrev History := List (Call × Answer)

def history : Builder → List Call → History
  | _, [] => []
  | b, call :: rest => (call, (b.perform call).1) :: history (b.perform call).2 rest

def after (b : Builder) (calls : List Call) : Builder :=
  calls.foldl (fun b call => (b.perform call).2) b

namespace History

def names (h : History) : List String :=
  h.filterMap fun
    | (_, .named name) => some name
    | _ => none

/-- What they were made from. -/
def stems (h : History) : List String :=
  h.filterMap fun
    | (.newLabel stem, _) => some stem
    | _ => none

/-- The instructions and labels that were appended, in order. -/
def appended (h : History) : List Instruction :=
  h.flatMap fun
    | (.emit code, _) => code
    | (.label name, .done) => [.label name]
    | _ => []

def Defines (h : History) (name : String) : Prop := (.label name, .done) ∈ h

/-- A build was asked for, whatever came of it. -/
def Built (h : History) : Prop := ∃ symbols graph answer, (.build symbols graph, answer) ∈ h

/-- What is refused behind a history, and why. -/
inductive Refused (h : History) : Call → BuilderError → Prop where
  | duplicate {name : String} (unbuilt : ¬h.Built) (known : h.Defines name) :
      Refused h (.label name) (.duplicateLabel name)
  | assembly {symbols : Symbols} {graph : Option Graph} {e : AssemblyError} (unbuilt : ¬h.Built)
      (failed : Program.assemble h.appended symbols graph = .error e) :
      Refused h (.build symbols graph) (.assembly e)
  | consumed {symbols : Symbols} {graph : Option Graph} (built : h.Built) :
      Refused h (.build symbols graph) .consumed
  /-- The table in which the label would be looked up is gone. -/
  | crash {name : String} (built : h.Built) : Refused h (.label name) .labelsReleased

end History

/-- The later of two fresh names is the earlier one: the earlier stem is the later one with digits
behind it, and the later number is the earlier one with the same digits before it. -/
def Clash (stem : String) (n : Nat) (stem' : String) (m : Nat) : Prop :=
  ∃ digits : List Char, stem.toList = stem'.toList ++ digits ∧
    Nat.toDigits 10 m = digits ++ Nat.toDigits 10 n

variable {b : Builder} {h : History} {call : Call} {name stem stem' : String} {n m : Nat}
  {e : BuilderError}

/-- A number is no less than what its last digits stand for. -/
theorem le_of_toDigits {digits : List Char}
    (same : Nat.toDigits 10 n = digits ++ Nat.toDigits 10 m) : m ≤ n := by
  calc m ≤ 10 ^ (Nat.toDigits 10 m).length * Nat.ofDigitChars 10 digits 0 + m := Nat.le_add_left _ _
    _ = Nat.ofDigitChars 10 (digits ++ Nat.toDigits 10 m) 0 := by
      rw [Nat.ofDigitChars_append, Nat.ofDigitChars_eq_ofDigitChars_zero (l := Nat.toDigits 10 m),
        Nat.ofDigitChars_ten_toDigits]
    _ = n := by rw [← same, Nat.ofDigitChars_ten_toDigits]

/-- Two fresh names are the same in no other case, as the later number has no fewer digits. -/
theorem freshName_eq_iff (less : n < m) :
    freshName stem n = freshName stem' m ↔ Clash stem n stem' m := by
  rw [← String.toList_inj, toList_freshName, toList_freshName, List.cons_inj_right,
    List.append_eq_append_iff]
  constructor
  · rintro (⟨digits, -, same⟩ | ⟨digits, stems, numbers⟩)
    · have := le_of_toDigits same
      omega
    · exact ⟨digits, stems, numbers⟩
  · rintro ⟨digits, stems, numbers⟩
    exact .inr ⟨digits, stems, numbers⟩

/-- The stem of the earlier name ends in a digit. -/
theorem Clash.last_isDigit (clash : Clash stem n stem' m) (less : n < m) :
    ∃ last, stem.toList.getLast? = some last ∧ last.isDigit = true := by
  obtain ⟨digits, stems, numbers⟩ := clash
  cases last : digits.getLast? with
  | none =>
    obtain rfl := List.getLast?_eq_none_iff.mp last
    have same : Nat.toDigits 10 n = [] ++ Nat.toDigits 10 m := numbers.symm
    have := le_of_toDigits same
    omega
  | some last' =>
    have member : last' ∈ Nat.toDigits 10 m := by
      rw [numbers]
      exact List.mem_append_left _ (List.mem_of_getLast? last)
    refine ⟨last', ?_, Nat.isDigit_of_mem_toDigits (by omega) (by omega) member⟩
    rw [stems, List.getLast?_append, last]
    rfl

namespace History

variable {k : History}

@[simp] theorem names_append : names (h ++ k) = h.names ++ k.names := List.filterMap_append

@[simp] theorem stems_append : stems (h ++ k) = h.stems ++ k.stems := List.filterMap_append

@[simp] theorem appended_append : appended (h ++ k) = h.appended ++ k.appended :=
  List.flatMap_append

@[simp] theorem defines_append : Defines (h ++ k) name ↔ h.Defines name ∨ k.Defines name :=
  List.mem_append

@[simp] theorem built_append : Built (h ++ k) ↔ h.Built ∨ k.Built := by
  simp only [Built, List.mem_append, exists_or]

theorem defines_single {answer : Answer} :
    Defines [(call, answer)] name ↔ call = .label name ∧ answer = .done := by
  simp [Defines, eq_comm]

theorem built_single {answer : Answer} :
    Built [(call, answer)] ↔ ∃ symbols graph, call = .build symbols graph := by
  simp [Built, eq_comm]

end History

theorem perform_build (symbols : Symbols) (graph : Option Graph) :
    b.perform (.build symbols graph) =
      if b.consumed then (.refused .consumed, b)
      else (match Program.assemble b.code symbols graph with
        | .ok p => .built p
        | .error e => .refused (.assembly e),
        { b with code := [], labels := [], consumed := true }) := by
  simp only [Builder.perform, build]
  cases b.consumed with
  | true => rfl
  | false => cases Program.assemble b.code symbols graph <;> rfl

/-- What a builder holds of what happened to it. Before a build that is all it was given, and
afterwards only how many names were made fresh. -/
structure Reflects (b : Builder) (h : History) : Prop where
  consumed : b.consumed = true ↔ h.Built
  labels : ∀ name, name ∈ b.labels ↔ ¬h.Built ∧ h.Defines name
  code : ¬h.Built → b.code = h.appended
  counter : b.counter = h.stems.length
  names : h.names = (h.stems.zipIdx 1).map fun entry => freshName entry.1 entry.2

namespace Reflects

theorem empty : Reflects empty [] := by
  constructor
  case consumed => simp [Builder.empty, History.Built]
  case labels => simp [Builder.empty, History.Defines]
  case code => exact fun _ => rfl
  case counter => rfl
  case names => rfl

theorem perform_label (reflects : Reflects b h) (name : String) : b.perform (.label name) =
    if b.consumed then (.refused .labelsReleased, b)
    else if name ∈ b.labels then (.refused (.duplicateLabel name), b)
    else (.done, { b with code := b.code ++ [.label name], labels := name :: b.labels }) := by
  by_cases known : name ∈ b.labels
  · have waiting : b.consumed = false := by
      rw [← Bool.not_eq_true, reflects.consumed]
      exact ((reflects.labels name).mp known).1
    simp [Builder.perform, Builder.label, hasLabel, known, waiting]
  · cases consumed : b.consumed <;>
      simp [Builder.perform, Builder.label, hasLabel, known, consumed]

/-- A call that changes neither the builder nor what was given to it. -/
theorem idle (reflects : Reflects b h) {entry : Call × Answer} (names : History.names [entry] = [])
    (stems : History.stems [entry] = []) (appended : History.appended [entry] = [])
    (defines : ∀ name, ¬History.Defines [entry] name) (builds : History.Built [entry] → h.Built) :
    Reflects b (h ++ [entry]) := by
  have built : History.Built (h ++ [entry]) ↔ h.Built := by
    rw [History.built_append]
    exact or_iff_left_of_imp builds
  constructor
  case consumed => rw [reflects.consumed, built]
  case labels => simpa [built, defines] using reflects.labels
  case code => simpa [built, appended] using reflects.code
  case counter => simpa [stems] using reflects.counter
  case names => simpa [names, stems] using reflects.names

theorem emit (reflects : Reflects b h) (code : List Instruction) :
    Reflects (b.emit code) (h ++ [(.emit code, .done)]) := by
  obtain ⟨consumed, labels, given, counter, names⟩ := reflects
  constructor
  case consumed => simpa [Builder.emit, History.built_single] using consumed
  case labels =>
    simpa [Builder.emit, History.built_single, History.defines_single] using labels
  case code => simpa [Builder.emit, History.built_single, History.appended] using given
  case counter => simpa [Builder.emit, History.stems] using counter
  case names => simpa [History.stems, History.names] using names

theorem define (reflects : Reflects b h) (waiting : b.consumed = false) :
    Reflects { b with code := b.code ++ [.label name], labels := name :: b.labels }
      (h ++ [(.label name, .done)]) := by
  obtain ⟨consumed, labels, given, counter, names⟩ := reflects
  have unbuilt : ¬h.Built := by
    rw [← consumed, waiting]
    exact Bool.false_ne_true
  constructor
  case consumed => simpa [History.built_single] using consumed
  case labels =>
    intro other
    rw [List.mem_cons, labels, or_comm, eq_comm]
    simp [unbuilt, History.built_single, History.defines_single]
  case code => simpa [History.built_single, History.appended] using given
  case counter => simpa [History.stems] using counter
  case names => simpa [History.stems, History.names] using names

theorem newLabel (reflects : Reflects b h) (stem : String) : Reflects (b.newLabel stem).2
    (h ++ [(.newLabel stem, .named (b.newLabel stem).1)]) := by
  obtain ⟨consumed, labels, given, counter, names⟩ := reflects
  constructor
  case consumed => simpa [Builder.newLabel, History.built_single] using consumed
  case labels =>
    simpa [Builder.newLabel, History.built_single, History.defines_single] using labels
  case code => simpa [Builder.newLabel, History.built_single, History.appended] using given
  case counter => simpa [Builder.newLabel, History.stems] using counter
  case names =>
    rw [History.names_append, History.stems_append, List.zipIdx_append, List.map_append, ← names,
      Nat.add_comm 1, ← counter]
    rfl

theorem spend (reflects : Reflects b h) {symbols : Symbols} {graph : Option Graph}
    {answer : Answer} (silent : History.names [(.build symbols graph, answer)] = []) :
    Reflects { b with code := [], labels := [], consumed := true }
      (h ++ [(.build symbols graph, answer)]) := by
  have built : History.Built (h ++ [(.build symbols graph, answer)]) :=
    History.built_append.mpr (.inr (History.built_single.mpr ⟨symbols, graph, rfl⟩))
  constructor
  case consumed => simp [built]
  case labels => simp [built]
  case code => exact absurd built
  case counter => simpa [History.stems] using reflects.counter
  case names => simpa [silent, History.stems] using reflects.names

/-- Whatever it is called for, the builder reflects what has happened to it. -/
theorem perform (reflects : Reflects b h) (call : Call) :
    Reflects (b.perform call).2 (h ++ [(call, (b.perform call).1)]) := by
  cases call with
  | emit code => exact reflects.emit code
  | hasLabel name =>
    exact reflects.idle rfl rfl rfl (by simp [History.defines_single])
      (by simp [History.built_single])
  | newLabel stem => exact reflects.newLabel stem
  | label name =>
    have idle {e : BuilderError} : Reflects b (h ++ [(.label name, .refused e)]) :=
      reflects.idle rfl rfl rfl (by simp [History.defines_single]) (by simp [History.built_single])
    rw [reflects.perform_label]
    cases consumed : b.consumed with
    | true => exact idle
    | false =>
      by_cases known : name ∈ b.labels
      · simpa only [known, if_true, Bool.false_eq_true, if_false] using idle
      · simpa only [known, if_false, Bool.false_eq_true, consumed] using reflects.define consumed
  | build symbols graph =>
    rw [perform_build]
    cases consumed : b.consumed with
    | true =>
      have built := reflects.consumed.mp consumed
      exact reflects.idle rfl rfl rfl (by simp [History.defines_single]) fun _ => built
    | false =>
      apply reflects.spend
      cases Program.assemble b.code symbols graph <;> rfl

theorem waiting (reflects : Reflects b h) (unbuilt : ¬h.Built) : b.consumed = false :=
  Bool.eq_false_iff.mpr (unbuilt ∘ reflects.consumed.mp)

/-- Behind a build there is no other build, and labels are asked for in vain. -/
theorem refused_spent (reflects : Reflects b h) (built : h.Built) :
    (b.perform call).1 = .refused e ↔ h.Refused call e := by
  have consumed := reflects.consumed.mpr built
  constructor
  · intro refused
    cases call with
    | emit | hasLabel | newLabel => cases refused
    | label name =>
      rw [reflects.perform_label, consumed] at refused
      cases refused
      exact .crash built
    | build symbols graph =>
      rw [perform_build, consumed] at refused
      cases refused
      exact .consumed built
  · intro refused
    cases refused with
    | duplicate unbuilt | assembly unbuilt => exact absurd built unbuilt
    | consumed => rw [perform_build, consumed, if_pos rfl]
    | crash => rw [reflects.perform_label, consumed, if_pos rfl]

/-- Before a build only a label that is defined is refused, and code that cannot be assembled. -/
theorem refused_waiting (reflects : Reflects b h) (unbuilt : ¬h.Built) :
    (b.perform call).1 = .refused e ↔ h.Refused call e := by
  have consumed := reflects.waiting unbuilt
  have given := reflects.code unbuilt
  constructor
  · intro refused
    cases call with
    | emit | hasLabel | newLabel => cases refused
    | label name =>
      simp only [reflects.perform_label, consumed, Bool.false_eq_true, if_false] at refused
      split at refused <;> cases refused
      rename_i known
      exact .duplicate unbuilt ((reflects.labels name).mp known).2
    | build symbols graph =>
      simp only [perform_build, consumed, given, Bool.false_eq_true, if_false] at refused
      split at refused <;> cases refused
      rename_i failed
      exact .assembly unbuilt failed
  · intro refused
    cases refused with
    | duplicate _ known =>
      have known := (reflects.labels _).mpr ⟨unbuilt, known⟩
      simp only [reflects.perform_label, consumed, known, Bool.false_eq_true, if_false, if_true]
    | assembly _ failed =>
      simp only [perform_build, consumed, given, failed, Bool.false_eq_true, if_false]
    | consumed built | crash built => exact absurd built unbuilt

/-- What is refused, and why, was settled by what happened before. -/
theorem refused_iff (reflects : Reflects b h) :
    (b.perform call).1 = .refused e ↔ h.Refused call e := by
  by_cases built : h.Built
  · exact reflects.refused_spent built
  · exact reflects.refused_waiting built

/-- Whatever it is called for in a row, the builder reflects what has happened to it. -/
theorem after (reflects : Reflects b h) (calls : List Call) :
    Reflects (b.after calls) (h ++ b.history calls) := by
  induction calls generalizing b h with
  | nil => simpa [history, Builder.after] using reflects
  | cons call rest ih => simpa [history, Builder.after] using ih (reflects.perform call)

theorem getElem?_names (reflects : Reflects b h) {i : Nat} (here : h.stems[i]? = some stem) :
    h.names[i]? = some (freshName stem (i + 1)) := by
  rw [reflects.names, List.getElem?_map, List.getElem?_zipIdx, here, Nat.add_comm 1]
  rfl

/-- Fresh names are distinct unless two of them clash. -/
theorem names_nodup_iff (reflects : Reflects b h) : h.names.Nodup ↔
    ∀ i j stem stem', i < j → h.stems[i]? = some stem → h.stems[j]? = some stem' →
      ¬Clash stem (i + 1) stem' (j + 1) := by
  rw [List.nodup_iff_getElem?_ne_getElem?]
  constructor
  · intro distinct i j stem stem' less first second clash
    have there := reflects.getElem?_names second
    apply distinct i j less (List.getElem?_eq_some_iff.mp there).1
    rw [reflects.getElem?_names first, there,
      (freshName_eq_iff (Nat.succ_lt_succ less)).mpr clash]
  · intro apart i j less inside same
    have count : h.names.length = h.stems.length := by simp [reflects.names]
    have second := List.getElem?_eq_getElem (count ▸ inside)
    have first := List.getElem?_eq_getElem (Nat.lt_trans less (count ▸ inside))
    rw [reflects.getElem?_names first, reflects.getElem?_names second] at same
    apply apart i j _ _ less first second
    exact (freshName_eq_iff (Nat.succ_lt_succ less)).mp (Option.some.inj same)

end Reflects

/-- A refusal leaves the builder as it was, unless what it holds cannot be assembled. -/
theorem perform_of_refused (refused : (b.perform call).1 = .refused e)
    (other : ∀ cause, e ≠ .assembly cause) : (b.perform call).2 = b := by
  cases call with
  | emit | hasLabel | newLabel => cases refused
  | label name =>
    simp only [perform] at refused ⊢
    split at refused <;> cases refused
    rfl
  | build symbols graph =>
    rw [perform_build] at refused ⊢
    split at refused
    · rw [if_pos ‹_›]
    · dsimp only at refused
      split at refused <;> cases refused
      exact absurd rfl (other _)

theorem reflects_after (calls : List Call) : Reflects (empty.after calls) (empty.history calls) :=
  Reflects.empty.after calls

/-- Fresh names are distinct unless two of them clash, and none do where no stem ends in a digit.
What is refused was settled by what happened before: a label exactly if it was defined, until
something is built. A refusal changes nothing, unless code is given up that cannot be assembled. The
one call that does not come back is that for a label behind a build. -/
theorem labels_answered (calls : List Call) :
    let b := empty.after calls
    let h := empty.history calls
    (h.names = (h.stems.zipIdx 1).map (fun entry => freshName entry.1 entry.2) ∧
      (h.names.Nodup ↔ ∀ i j stem stem', i < j → h.stems[i]? = some stem →
        h.stems[j]? = some stem' → ¬Clash stem (i + 1) stem' (j + 1)) ∧
      ((∀ stem ∈ h.stems, ∀ last, stem.toList.getLast? = some last → last.isDigit = false) →
        h.names.Nodup)) ∧
    (∀ call e, (b.perform call).1 = .refused e ↔ h.Refused call e) ∧
    (∀ call e, h.Refused call e → (∀ cause, e ≠ .assembly cause) → (b.perform call).2 = b) ∧
    ∀ call, (∃ e, h.Refused call e ∧ e.isCrash = true) ↔ h.Built ∧ ∃ name, call = .label name := by
  intro b h
  have reflects := reflects_after calls
  refine ⟨⟨reflects.names, reflects.names_nodup_iff, fun plain => ?_⟩,
    fun call e => reflects.refused_iff, fun call e refused => ?_, fun call => ?_⟩
  · rw [reflects.names_nodup_iff]
    intro i j stem stem' less first second clash
    obtain ⟨last, ends, digit⟩ := clash.last_isDigit (Nat.succ_lt_succ less)
    rw [plain stem (List.mem_of_getElem? first) last ends] at digit
    contradiction
  · exact perform_of_refused (reflects.refused_iff.mpr refused)
  · constructor
    · rintro ⟨e, refused, crash⟩
      cases refused with
      | crash built => exact ⟨built, _, rfl⟩
      | duplicate | assembly | consumed => contradiction
    · rintro ⟨built, name, rfl⟩
      exact ⟨_, .crash built, rfl⟩

/-- The eleventh name is the first one again, and behind the build a label cannot be asked for. -/
theorem labels_answered_again :
    let calls : List Call := [.newLabel "x1"] ++ List.replicate 9 (.newLabel "y") ++
      [.newLabel "x", .build .empty none]
    let b := empty.after calls
    let h := empty.history calls
    h.names[0]? = some "$x11" ∧ h.names[10]? = some "$x11" ∧ ¬h.names.Nodup ∧
      (b.perform (.label "A")).1 = .refused .labelsReleased ∧
      BuilderError.labelsReleased.isCrash = true := by
  intro calls b h
  obtain ⟨⟨-, distinct, -⟩, refused, -⟩ := labels_answered calls
  have built : h.Built := ⟨.empty, none, _, List.mem_of_getElem? (i := 11) rfl⟩
  refine ⟨by decide +kernel, by decide +kernel, fun nodup => ?_, ?_, rfl⟩
  · exact distinct.mp nodup 0 10 "x1" "x" (by decide) rfl rfl ⟨['1'], by decide, by decide⟩
  · exact (refused _ _).mpr (.crash built)

end Builder
end Statecraft.Code
