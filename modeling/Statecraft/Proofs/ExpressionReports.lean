import Statecraft.Compile.Program
import Statecraft.Proofs.Acceptance
import Statecraft.Proofs.Expression
import Statecraft.Proofs.Nesting

/-! One mistake, one report. Every report about an expression belongs to a node of it that has
parts with types and none itself. So nothing is reported about what contains a mistake, and an
expression has no type exactly if there is something wrong with it or with what it reads. -/
namespace Statecraft

theorem Ty.mem_all_of_isValid {t : Ty} (valid : t.isValid = true) : t ∈ Ty.all := by
  cases t <;> simp_all [Ty.isValid, Ty.all]

namespace Source.Expr

/-- What was found in the part with the given number, with the ways there from the whole. -/
def inPart {α : Type} (k : Nat) (found : List (List Nat × α)) : List (List Nat × α) :=
  found.map fun x => (k :: x.1, x.2)

/-- The nodes of the expression, each with the way to it from the top. The parts of a node come
before it. -/
def nodes : Expr → List (List Nat × Expr)
  | .unary op opSpan operand => inPart 0 operand.nodes ++ [([], .unary op opSpan operand)]
  | .binary op opSpan left right =>
      inPart 0 left.nodes ++ inPart 1 right.nodes ++ [([], .binary op opSpan left right)]
  | e => [([], e)]

/-- The node that a way from the top leads to. -/
def at? (e : Expr) (way : List Nat) : Option Node :=
  way.foldlM (fun n k => n.children[k]?) (.expr e)

theorem at?_of_mem_nodes {e n : Expr} {way : List Nat} (member : (way, n) ∈ e.nodes) :
    e.at? way = some (.expr n) := by
  induction e generalizing way n with
  | number | boolean | string | ref | invalid =>
    obtain ⟨rfl, rfl⟩ : way = [] ∧ n = _ := by simpa [nodes] using member
    rfl
  | unary op opSpan operand ih =>
    simp only [nodes, inPart, List.mem_append, List.mem_map, List.mem_singleton] at member
    rcases member with ⟨⟨way, n⟩, inner, same⟩ | same <;> cases same
    · exact ih inner
    · rfl
  | binary op opSpan left right ihl ihr =>
    simp only [nodes, inPart, List.mem_append, List.mem_map, List.mem_singleton] at member
    rcases member with (⟨⟨way, n⟩, inner, same⟩ | ⟨⟨way, n⟩, inner, same⟩) | same <;> cases same
    · exact ihl inner
    · exact ihr inner
    · rfl

end Source.Expr

namespace Compile

open Source (Expr)

variable {symbols : Symbols} {e : Expr}

/-- What is reported about the expression itself, where its parts have these types. -/
def ownReports (symbols : Symbols) : Expr → List Report
  | .ref name =>
      if (valueSymbol? symbols name.text).isNone then [undefinedVariable name] else []
  | .unary op opSpan operand =>
      let t := (expr symbols operand).type
      if t.isValid && (op.meaning? t).isNone then
        [undefinedOperator (.unary op opSpan operand) (op.describe t)]
      else []
  | .binary op opSpan left right =>
      let l := (expr symbols left).type
      let r := (expr symbols right).type
      if l.isValid && r.isValid && (op.meaning? l r).isNone then
        [undefinedOperator (.binary op opSpan left right) (op.describe l r)]
      else []
  | _ => []

/-- The reports about nodes, each with the way to its node. -/
def blame (symbols : Symbols) (nodes : List (List Nat × Expr)) : List (List Nat × Report) :=
  nodes.flatMap fun n => (ownReports symbols n.2).map (n.1, ·)

/-- Nothing is reported about an expression with a type. -/
theorem expr_reports (valid : (expr symbols e).type.isValid = true) :
    (expr symbols e).reports = [] := by
  induction e with
  | number | boolean | string | invalid => rfl
  | ref name =>
    cases found : valueSymbol? symbols name.text with
    | none => simp [expr, found, Ty.isValid] at valid
    | some s => simp [expr, found]
  | unary op opSpan operand ih =>
    obtain ⟨inside, meaning, defined, -⟩ := expr_unary valid
    simp [expr, inside, defined, ih inside]
  | binary op opSpan left right ihl ihr =>
    obtain ⟨validl, validr, meaning, defined, -⟩ := expr_binary valid
    simp [expr, validl, validr, defined, ihl validl, ihr validr]

theorem expr_reports_unary {op : UnaryOp} {opSpan : Selection} {operand : Expr} :
    (expr symbols (.unary op opSpan operand)).reports =
      (expr symbols operand).reports ++ ownReports symbols (.unary op opSpan operand) := by
  simp only [expr, ownReports]
  cases (expr symbols operand).type.isValid with
  | false => simp
  | true => cases op.meaning? (expr symbols operand).type <;> simp

theorem expr_reports_binary {op : BinaryOp} {opSpan : Selection} {left right : Expr} :
    (expr symbols (.binary op opSpan left right)).reports =
      (expr symbols left).reports ++ (expr symbols right).reports ++
        ownReports symbols (.binary op opSpan left right) := by
  simp only [expr, ownReports]
  cases (expr symbols left).type.isValid with
  | false => simp
  | true =>
    cases (expr symbols right).type.isValid with
    | false => simp
    | true => cases op.meaning? (expr symbols left).type (expr symbols right).type <;> simp

@[simp] theorem blame_append (a b : List (List Nat × Expr)) :
    blame symbols (a ++ b) = blame symbols a ++ blame symbols b := by
  simp [blame]

theorem blame_inPart (k : Nat) (nodes : List (List Nat × Expr)) :
    blame symbols (Expr.inPart k nodes) = Expr.inPart k (blame symbols nodes) := by
  simp [blame, Expr.inPart, List.map_flatMap, List.flatMap_map, Function.comp_def]

@[simp] theorem map_snd_inPart {α : Type} (k : Nat) (found : List (List Nat × α)) :
    (Expr.inPart k found).map Prod.snd = found.map Prod.snd := by
  simp [Expr.inPart, Function.comp_def]

theorem blame_single (way : List Nat) (e : Expr) :
    blame symbols [(way, e)] = (ownReports symbols e).map (way, ·) := by
  simp [blame]

/-- All reports about an expression are about its nodes. -/
theorem blame_reports (symbols : Symbols) (e : Expr) :
    (blame symbols e.nodes).map Prod.snd = (expr symbols e).reports := by
  induction e with
  | number | boolean | string | invalid => rfl
  | ref name =>
    cases found : valueSymbol? symbols name.text <;>
      simp [Expr.nodes, blame_single, ownReports, expr, found]
  | unary op opSpan operand ih =>
    simp [Expr.nodes, blame_inPart, blame_single, Function.comp_def, ih, expr_reports_unary]
  | binary op opSpan left right ihl ihr =>
    simp [Expr.nodes, blame_inPart, blame_single, Function.comp_def, ihl, ihr, expr_reports_binary]

/-- Neither way leads to a part of where the other leads. -/
def Apart (a b : List Nat × Report) : Prop := ¬a.1 <+: b.1 ∧ ¬b.1 <+: a.1

theorem blame_nil (valid : (expr symbols e).type.isValid = true) : blame symbols e.nodes = [] := by
  have none := blame_reports symbols e
  rwa [expr_reports valid, List.map_eq_nil_iff] at none

theorem pairwise_inPart {k : Nat} {found : List (List Nat × Report)}
    (apart : found.Pairwise Apart) : (Expr.inPart k found).Pairwise Apart := by
  rw [Expr.inPart, List.pairwise_map]
  exact apart.imp fun here => by simpa [Apart, List.cons_prefix_cons] using here

theorem ownReports_apart (e : Expr) : (blame symbols [([], e)]).Pairwise Apart := by
  rw [blame_single]
  cases e with
  | number | boolean | string | invalid => exact .nil
  | ref | unary | binary =>
    simp only [ownReports]
    split <;> simp

/-- A node about which something is reported is no part of another one. -/
theorem blame_apart (symbols : Symbols) (e : Expr) : (blame symbols e.nodes).Pairwise Apart := by
  induction e with
  | number | boolean | string | ref | invalid => exact ownReports_apart _
  | unary op opSpan operand ih =>
    rw [Expr.nodes, blame_append, blame_inPart]
    by_cases valid : (expr symbols operand).type.isValid = true
    · rw [blame_nil valid]
      exact ownReports_apart _
    · have silent : blame symbols [([], .unary op opSpan operand)] = [] := by
        simp [blame_single, ownReports, valid]
      rw [silent, List.append_nil]
      exact pairwise_inPart ih
  | binary op opSpan left right ihl ihr =>
    rw [Expr.nodes, blame_append, blame_append, blame_inPart, blame_inPart]
    by_cases valid : (expr symbols left).type.isValid = true ∧
        (expr symbols right).type.isValid = true
    · rw [blame_nil valid.1, blame_nil valid.2]
      exact ownReports_apart _
    · have silent : blame symbols [([], .binary op opSpan left right)] = [] := by
        rw [blame_single, ownReports]
        simp only [Bool.and_eq_true]
        rw [if_neg fun both => valid both.1]
        rfl
      rw [silent, List.append_nil, List.pairwise_append]
      refine ⟨pairwise_inPart ihl, pairwise_inPart ihr, ?_⟩
      -- the ways to the two sides part at once
      intro a member b member'
      obtain ⟨x, -, rfl⟩ := List.mem_map.mp member
      obtain ⟨y, -, rfl⟩ := List.mem_map.mp member'
      simp [Apart, List.cons_prefix_cons]

/-- The range of a report is that of its node. -/
theorem ownReports_span {r : Report} (own : r ∈ ownReports symbols e) : r.selection = e.span := by
  cases e with
  | number | boolean | string | invalid => simp [ownReports] at own
  | ref | unary | binary =>
    simp only [ownReports] at own
    split at own <;> simp only [List.mem_singleton, List.not_mem_nil] at own
    rw [own]
    rfl

theorem ownReports_kind {r : Report} (own : r ∈ ownReports symbols e) : r.kind ≠ .typeError := by
  cases e with
  | number | boolean | string | invalid => simp [ownReports] at own
  | ref | unary | binary =>
    simp only [ownReports] at own
    split at own <;> simp only [List.mem_singleton, List.not_mem_nil] at own
    rw [own]
    nofun

theorem mem_blame {way : List Nat} {r : Report} (member : (way, r) ∈ blame symbols e.nodes) :
    ∃ n, e.at? way = some (.expr n) ∧ r ∈ ownReports symbols n := by
  simp only [blame, List.mem_flatMap, List.mem_map, Prod.mk.injEq] at member
  obtain ⟨⟨there, n⟩, listed, r', own, rfl, rfl⟩ := member
  exact ⟨n, Expr.at?_of_mem_nodes listed, own⟩

/-- The names that the expression reads have types, as far as they are declared. -/
def ReadsTyped (symbols : Symbols) (e : Expr) : Prop :=
  ∀ name ∈ e.reads, ∀ s, symbols.find? name = some s → s.type.isValid = true

/-- An expression has a type exactly if nothing is reported about it, it can be read, and so can
the values of the names in it. -/
theorem expr_valid_iff (symbols : Symbols) (e : Expr) :
    (expr symbols e).type.isValid = true ↔
      (expr symbols e).reports = [] ∧ e.Complete ∧ ReadsTyped symbols e := by
  induction e with
  | number | boolean | string =>
    exact ⟨fun _ => ⟨rfl, trivial, fun _ member => absurd member List.not_mem_nil⟩, fun _ => rfl⟩
  | invalid => exact ⟨nofun, fun all => all.2.1.elim⟩
  | ref name =>
    cases found : valueSymbol? symbols name.text with
    | none => simp [expr, found, Ty.isValid]
    | some s =>
      have declared := (valueSymbol?_eq_some_iff.mp found).1
      simp [expr, found, ReadsTyped, Expr.reads, Expr.Complete, declared]
  | unary op opSpan operand ih =>
    constructor
    · intro valid
      obtain ⟨inside, -⟩ := expr_unary valid
      exact ⟨expr_reports valid, (ih.mp inside).2⟩
    · rintro ⟨silent, complete, typed⟩
      rw [expr_reports_unary, List.append_eq_nil_iff] at silent
      have inside := ih.mpr ⟨silent.1, complete, typed⟩
      have own := silent.2
      cases defined : op.meaning? (expr symbols operand).type with
      | none => simp [ownReports, inside, defined] at own
      | some meaning => simp [expr, inside, defined, UnaryOp.result_valid defined]
  | binary op opSpan left right ihl ihr =>
    constructor
    · intro valid
      obtain ⟨insidel, insider, -⟩ := expr_binary valid
      obtain ⟨-, completel, typedl⟩ := ihl.mp insidel
      obtain ⟨-, completer, typedr⟩ := ihr.mp insider
      refine ⟨expr_reports valid, ⟨completel, completer⟩, fun name member => ?_⟩
      exact (List.mem_append.mp member).elim (typedl name) (typedr name)
    · rintro ⟨silent, complete, typed⟩
      rw [expr_reports_binary, List.append_eq_nil_iff, List.append_eq_nil_iff] at silent
      have insidel := ihl.mpr ⟨silent.1.1, complete.1, fun name member =>
        typed name (List.mem_append_left _ member)⟩
      have insider := ihr.mpr ⟨silent.1.2, complete.2, fun name member =>
        typed name (List.mem_append_right _ member)⟩
      have own := silent.2
      cases defined : op.meaning? (expr symbols left).type (expr symbols right).type with
      | none => simp [ownReports, insidel, insider, defined] at own
      | some meaning => simp [expr, insidel, insider, defined, BinaryOp.result_valid defined]

/-- From declared types no other ones are made. -/
theorem expr_type_declared (declared : ∀ s ∈ symbols.entries, s.type ∈ Ty.all) (e : Expr) :
    (expr symbols e).type ∈ Ty.all := by
  have untyped : Ty.invalid ∈ Ty.all := by decide
  cases e with
  | number | boolean | string => exact Ty.mem_all_of_isValid rfl
  | invalid => exact untyped
  | ref name =>
    cases found : valueSymbol? symbols name.text with
    | none => simpa only [expr, found] using untyped
    | some s =>
      have kept := (valueSymbol?_eq_some_iff.mp found).1
      simpa only [expr, found] using declared s (List.mem_of_find?_eq_some kept)
  | unary op opSpan operand =>
    simp only [expr]
    split
    · exact untyped
    · split
      · rename_i defined
        exact Ty.mem_all_of_isValid (UnaryOp.result_valid defined)
      · exact untyped
  | binary op opSpan left right =>
    simp only [expr]
    split
    · exact untyped
    · split
      · rename_i defined
        exact Ty.mem_all_of_isValid (BinaryOp.result_valid defined)
      · exact untyped

theorem expr_kind {r : Report} (member : r ∈ (expr symbols e).reports) : r.kind ≠ .typeError := by
  rw [← blame_reports, List.mem_map] at member
  obtain ⟨⟨way, r⟩, listed, rfl⟩ := member
  obtain ⟨n, -, own⟩ := mem_blame listed
  exact ownReports_kind own

theorem assigned_kind {name : Source.Name} {r : Report} (member : r ∈ (assigned symbols name).2) :
    r.kind ≠ .typeError := by
  simp only [assigned] at member
  split at member
  · rw [List.mem_singleton.mp member]
    intro wrong
    cases wrong
  · split at member
    · contradiction
    · rw [List.mem_singleton.mp member]
      intro wrong
      cases wrong

theorem condition_of_invalid (invalid : (expr symbols e).type.isValid = false) :
    (condition symbols e).reports = (expr symbols e).reports := by
  simp [condition, invalid]

theorem assignment_of_invalid {scope : Scope} {counter : Nat} {a : Source.Action}
    {name : Source.Name} (invalid : (expr scope.symbols e).type.isValid = false) :
    (assignment scope counter a name e).reports =
      (assigned scope.symbols name).2 ++ (expr scope.symbols e).reports := by
  simp [assignment, invalid]

theorem declaration_reports (d : Declared) (x : Source.Declaration) :
    (d.declaration x).reports = d.reports ++ (expr d.symbols x.value).reports ∨
      ∃ r, (d.declaration x).reports = d.reports ++ [r] ∧ r.kind = .duplicateIdentifier := by
  simp only [Declared.declaration]
  split
  · exact .inr ⟨_, rfl, rfl⟩
  · exact .inl rfl

/-- The reports about an expression are about nodes none of which is a part of another. It has no
type exactly if there are any, if a part of it could not be read, or if a name that it reads was
declared without a type; and then what encloses it reports no wrong type. -/
theorem expr_blamed_once (symbols : Symbols) (e : Expr) :
    ((blame symbols e.nodes).map Prod.snd = (expr symbols e).reports ∧
      (∀ way r, (way, r) ∈ blame symbols e.nodes →
        ∃ n, e.at? way = some (.expr n) ∧ r ∈ ownReports symbols n ∧ r.selection = n.span) ∧
      (blame symbols e.nodes).Pairwise fun a b => ¬a.1 <+: b.1 ∧ ¬b.1 <+: a.1) ∧
    ((expr symbols e).type.isValid = false ↔
      (expr symbols e).reports ≠ [] ∨ ¬e.Complete ∨
        ∃ name ∈ e.reads, ∃ s, symbols.find? name = some s ∧ s.type.isValid = false) ∧
    ((∀ s ∈ symbols.entries, s.type ∈ Ty.all) →
      ((expr symbols e).type.isValid = false ↔ (expr symbols e).type = .invalid)) ∧
    ((expr symbols e).type.isValid = false →
      (∀ r ∈ (expr symbols e).reports, r.kind ≠ .typeError) ∧
      (condition symbols e).reports = (expr symbols e).reports ∧
      (∀ (scope : Scope) counter a name, scope.symbols = symbols →
        ∃ own, (assignment scope counter a name e).reports = own ++ (expr symbols e).reports ∧
          ∀ r ∈ own, r.kind ≠ .typeError) ∧
      ∀ (d : Declared) (x : Source.Declaration), d.symbols = symbols → x.value = e →
        (d.declaration x).reports = d.reports ++ (expr symbols e).reports ∨
          ∃ r, (d.declaration x).reports = d.reports ++ [r] ∧ r.kind = .duplicateIdentifier) := by
  refine ⟨⟨blame_reports symbols e, ?_, blame_apart symbols e⟩, ?_, ?_, ?_⟩
  · intro way r member
    obtain ⟨n, there, own⟩ := mem_blame member
    exact ⟨n, there, own, ownReports_span own⟩
  · have otherwise := not_congr (expr_valid_iff symbols e)
    simpa only [Bool.not_eq_true, Classical.not_and_iff_not_or_not, ReadsTyped,
      Classical.not_forall, exists_prop, ne_eq] using otherwise
  · intro declared
    have listed := expr_type_declared declared e
    generalize (expr symbols e).type = t at listed
    cases t <;> simp_all [Ty.all, Ty.isValid]
  · intro invalid
    refine ⟨fun r => expr_kind, condition_of_invalid invalid, ?_, ?_⟩
    · rintro scope counter a name rfl
      exact ⟨_, assignment_of_invalid invalid, fun r => assigned_kind⟩
    · rintro d x rfl rfl
      exact declaration_reports d x

/-- A number is negated as if it were a truth value, and an unknown name is multiplied with one
whose initial value was wrong. Both are reported, and neither the product nor the sum. -/
theorem expr_blamed_once_sum :
    let symbols : Symbols :=
      ⟨[⟨"n", .mutable, .number, .absent, false⟩, ⟨"bad", .constant, .invalid, .absent, false⟩]⟩
    let e : Expr := .binary .add .absent (.unary .not .absent (.ref ⟨"n", .absent⟩))
      (.binary .multiply .absent (.ref ⟨"y", .absent⟩) (.ref ⟨"bad", .absent⟩))
    (blame symbols e.nodes).map (fun b => (b.1, b.2.kind)) =
        [([0], .undefinedOperator), ([1, 0], .undefinedVariable)] ∧
      (blame symbols e.nodes).Pairwise (fun a b => ¬a.1 <+: b.1 ∧ ¬b.1 <+: a.1) ∧
      (expr symbols e).type = .invalid ∧
      (condition symbols e).reports = (expr symbols e).reports := by
  intro symbols e
  have once := expr_blamed_once symbols e
  have invalid : (expr symbols e).type.isValid = false := by decide
  have blamed : (blame symbols e.nodes).map (fun b => (b.1, b.2.kind)) =
      [([0], .undefinedOperator), ([1, 0], .undefinedVariable)] := by decide
  exact ⟨blamed, once.1.2.2, (once.2.2.1 (by decide)).mp invalid, (once.2.2.2 invalid).2.1⟩

end Compile
end Statecraft
