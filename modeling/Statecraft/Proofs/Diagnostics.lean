import Mathlib.Data.List.TakeWhile
import Statecraft.Proofs.ReportPlaces
import Statecraft.Proofs.Compilation
import Statecraft.Proofs.GraphMoves
import Statecraft.Proofs.Placement
import Statecraft.Proofs.Scanning

/-! Reports point into the source. Reading reports what its lexemes cover. Compiling reports
keywords, names and expressions, all of which are laid out on tokens: an expression that could
not be read has the invalid type, so nothing more is reported about it. What cannot be reached
is reported just past the name before it, where the same line goes on. -/
namespace Statecraft

/-- The location is that of a character of the source, or the one just past its last. -/
def Location.Of (source : String) (l : Location) : Prop :=
  ∃ before, before <+: source.toList ∧ l = Location.first.after before

/-- Both ends are locations of the source, in order. -/
structure Selection.PointsInto (source : String) (s : Selection) : Prop where
  ordered : s.Ordered
  start : s.start.Of source
  stop : s.stop.Of source

def Pointed (source : String) (reports : List Report) : Prop :=
  ∀ r ∈ reports, r.selection.PointsInto source

variable {source : String} {i j : Nat}

theorem Location.Of.isValid {l : Location} (here : l.Of source) : l.isValid = true := by
  obtain ⟨before, -, rfl⟩ := here
  exact Location.isValid_after rfl before

theorem Location.Of.points {l : Location} (here : l.Of source) :
    (Selection.char l).PointsInto source :=
  ⟨Location.le_refl l, here, here⟩

@[simp] theorem pointed_nil : Pointed source [] := by simp [Pointed]

@[simp] theorem pointed_append {a b : List Report} :
    Pointed source (a ++ b) ↔ Pointed source a ∧ Pointed source b := by
  simp only [Pointed, List.mem_append, or_imp, forall_and]

@[simp] theorem pointed_cons {r : Report} {rest : List Report} :
    Pointed source (r :: rest) ↔ r.selection.PointsInto source ∧ Pointed source rest := by
  simp only [Pointed, List.mem_cons, forall_eq_or_imp]

theorem pointed_singleton {r : Report} (points : r.selection.PointsInto source) :
    Pointed source [r] :=
  pointed_cons.mpr ⟨points, pointed_nil⟩

namespace Lexeme

variable {before later : List Char} {x : Lexeme}

theorem Placed.points (text : source.toList = before ++ x.chars ++ later)
    (placed : x.Placed (Location.first.after before) later) :
    x.selection.PointsInto source ∧ x.next.Of source := by
  have whole : before ++ x.chars <+: source.toList := text ▸ List.prefix_append _ _
  have start : (Location.first.after before).Of source :=
    ⟨before, (List.prefix_append _ _).trans whole, rfl⟩
  constructor
  · rw [placed.selection]
    refine ⟨Location.le_after _ _, start, before ++ x.chars.dropLast, ?_, ?_⟩
    · exact ((List.prefix_append_right_inj before).mpr (List.dropLast_prefix x.chars)).trans whole
    · exact (Location.after_append _ _ _).symm
  · refine ⟨before ++ x.chars, whole, ?_⟩
    rw [next, start_eq, placed.selection, Location.after_append]

theorem scan_points (scanned : x ∈ scan source) :
    x.selection.PointsInto source ∧ (Selection.char x.next).PointsInto source := by
  obtain ⟨before, later, text, placed⟩ := scan_placed scanned
  obtain ⟨points, next⟩ := placed.points text
  exact ⟨points, next.points⟩

end Lexeme

theorem Spans.points {s : Selection} (spans : Spans source i j s) : s.PointsInto source := by
  have placed {t : Token} (among : t.Among source i j) : t.span.PointsInto source := by
    obtain ⟨before, later, text, placed⟩ := significantTokens_placed among.member
    exact (placed.points text).1
  obtain ⟨ordered, ⟨t, first, start⟩, u, last, stop⟩ := spans
  exact ⟨ordered, start ▸ (placed first).start, stop ▸ (placed last).stop⟩

/-- An identifier has no other characters than a name can have. -/
theorem TokenKind.firstMatch?_name {cs : List Char} {n : Nat}
    (found : firstMatch? cs = some (.identifier, n)) : ∀ c ∈ cs.take n, isNameRest c = true := by
  obtain ⟨rfl, -⟩ := firstMatch?_covers found
  simp only [matchLength, pattern, Pattern.length]
  split
  · rename_i c rest
    split
    · rename_i starts
      rw [Nat.add_comm, List.take_succ_cons,
        List.prefix_iff_eq_take.mp (List.takeWhile_prefix isNameRest) |>.symm]
      exact List.forall_mem_cons.mpr
        ⟨isNameRest_of_start starts, fun d member => List.mem_takeWhile_imp member⟩
    · simp
  · simp

namespace Source

/-- The line goes on after a name. -/
theorem Name.Laid.past {n : Name} (laid : n.Laid source i j) :
    (n.span.stop.shift 0 1).Of source := by
  obtain ⟨t, among, identifier, -, span⟩ := laid
  obtain ⟨before, later, text, placed⟩ := significantTokens_placed among.member
  have filled : t.text.toList ≠ [] := placed.filled
  have chosen := placed.chosen
  simp only [Lexeme.chars, Lexeme.choice, identifier] at chosen
  have letters := TokenKind.firstMatch?_name chosen
  rw [List.take_left] at letters
  have stays : t.text.toList.getLast filled ≠ '\n' := by
    intro same
    have letter := letters _ (List.getLast_mem filled)
    rw [same] at letter
    contradiction
  have next := (placed.points text).2
  have selected : t.span = _ := placed.selection
  rw [Lexeme.next, Lexeme.start_eq, placed.selection] at next
  simp only [Lexeme.chars] at next selected
  rw [span, selected]
  have whole := congrArg (Location.first.after before).after
    (List.dropLast_concat_getLast filled)
  rw [Location.after_append] at whole
  rw [← whole, Location.after_cons, Location.after_nil, Location.step, if_neg stays] at next
  simpa only [Location.shift, Int.add_zero] using next

theorem parse_pointed (source : String) : Pointed source (parse source).reports := by
  refine Statecraft.Grammar.parse_aimed Grammar.rules _ Grammar.program ?_ ?_
  · exact Location.Of.points ⟨[], List.nil_prefix, rfl⟩
  · exact fun x scanned => Lexeme.scan_points scanned

end Source

namespace Compile

open Source (Action Block Expr Name WhenBlock Definition StateEntry StateList)

variable {scope : Scope}

theorem expr_pointed (symbols : Symbols) {e : Expr} (laid : e.Laid source i j) :
    Pointed source (expr symbols e).reports := by
  induction e generalizing i j with
  | number | boolean | string | invalid => exact pointed_nil
  | ref name =>
    simp only [expr]
    split
    · exact pointed_nil
    · exact pointed_singleton (Name.Laid.spans laid).points
  | unary op opSpan operand ih =>
    have points := (laid.spans.resolve_left (by simp)).points
    obtain ⟨k, sign, inner⟩ := laid
    simp only [expr]
    split
    · exact ih inner
    · split
      · exact ih inner
      · exact pointed_append.mpr ⟨ih inner, pointed_singleton points⟩
  | binary op opSpan left right ihl ihr =>
    have points := (laid.spans.resolve_left (by simp)).points
    obtain ⟨k, l, first, sign, second⟩ := laid
    have both := pointed_append.mpr ⟨ihl first, ihr second⟩
    simp only [expr]
    split
    · exact both
    · split
      · exact both
      · exact pointed_append.mpr ⟨both, pointed_singleton points⟩

/-- What could not be read has no type that could be wrong. -/
theorem mismatch_points {symbols : Symbols} {e : Expr} (laid : e.Laid source i j)
    (valid : (expr symbols e).type.isValid = true) (expected actual : Ty) :
    (mismatch e expected actual).selection.PointsInto source := by
  refine (laid.spans.resolve_left ?_).points
  rintro rfl
  contradiction

theorem condition_pointed (symbols : Symbols) {test : Expr} (laid : test.Laid source i j) :
    Pointed source (condition symbols test).reports := by
  have inner := expr_pointed symbols laid
  simp only [condition]
  split
  · rename_i wrong
    simp only [Bool.and_eq_true] at wrong
    exact pointed_append.mpr ⟨inner, pointed_singleton (mismatch_points laid wrong.1 _ _)⟩
  · exact inner

theorem transition_pointed (counter : Nat) (a : Action) {target : Name}
    (laid : target.Laid source i j) :
    Pointed source (transition scope counter a target).reports := by
  simp only [transition]
  split
  · exact pointed_nil
  · exact pointed_singleton laid.spans.points

theorem assigned_pointed (symbols : Symbols) {name : Name} (laid : name.Laid source i j) :
    Pointed source (assigned symbols name).2 := by
  simp only [assigned]
  split
  · exact pointed_singleton laid.spans.points
  · split
    · exact pointed_nil
    · exact pointed_singleton laid.spans.points

theorem assignment_pointed {k : Nat} (counter : Nat) (a : Action) {name : Name} {value : Expr}
    (named : name.Laid source i k) (valued : value.Laid source k j) :
    Pointed source (assignment scope counter a name value).reports := by
  simp only [assignment, pointed_append]
  refine ⟨⟨assigned_pointed _ named, expr_pointed _ valued⟩, ?_⟩
  split
  · rename_i wrong
    simp only [Bool.and_eq_true] at wrong
    exact pointed_singleton (mismatch_points valued wrong.1.1 _ _)
  · exact pointed_nil

/-- What the actions report points into the source, and the name that control cannot get past is
one of the source. -/
structure ActionCode.Points (source : String) (c : ActionCode) : Prop where
  reports : Pointed source c.reports
  terminator : ∀ target ∈ c.terminator, ∃ i j, target.Laid source i j

mutual

theorem action_points (a : Action) (counter : Nat) {i j : Nat} (laid : a.Laid source i j) :
    (action scope counter a).Points source := by
  cases a with
  | transition keyword target =>
    simp only [Action.Laid] at laid
    obtain ⟨k, first, last⟩ := laid
    refine ⟨transition_pointed counter _ last, ?_⟩
    rintro _ ⟨⟩
    exact ⟨k, j, last⟩
  | assignment name value =>
    simp only [Action.Laid] at laid
    obtain ⟨k, first, last⟩ := laid
    exact ⟨assignment_pointed counter _ first last, by simp [action, assignment]⟩
  | conditional keyword test body otherwise =>
    cases otherwise with
    | none =>
      simp only [Action.Laid] at laid
      obtain ⟨k, l, m, first, middle, inner, last⟩ := laid
      refine ⟨?_, by simp [action, conditional]⟩
      simp only [action, conditional, pointed_append]
      exact ⟨⟨condition_pointed _ middle, (block_points body _ inner).reports⟩, pointed_nil⟩
    | some other =>
      simp only [Action.Laid] at laid
      obtain ⟨k, l, m, first, middle, inner, last⟩ := laid
      refine ⟨?_, by simp [action, conditional]⟩
      simp only [action, conditional, pointed_append]
      exact ⟨⟨condition_pointed _ middle, (block_points body _ inner).reports⟩,
        (block_points other _ last).reports⟩
  | assertion keyword test =>
    simp only [Action.Laid] at laid
    obtain ⟨k, first, last⟩ := laid
    exact ⟨condition_pointed _ last, by simp [action, assertion]⟩
  | nested body =>
    simp only [Action.Laid] at laid
    exact block_points body counter laid

theorem block_points (b : Block) (counter : Nat) {i j : Nat} (laid : b.Laid source i j) :
    (block scope counter b).Points source := by
  obtain ⟨_, body, _⟩ := b
  simp only [Block.Laid] at laid
  obtain ⟨k, l, -, row, -⟩ := laid
  exact actions_points body counter row

theorem actions_points (as : List Action) (counter : Nat) {i j : Nat}
    (laid : Action.AllLaid source i j as) : (actions scope counter as).Points source := by
  cases as with
  | nil => exact ⟨pointed_nil, by simp [actions, ActionCode.none]⟩
  | cons a rest =>
    simp only [Action.AllLaid] at laid
    obtain ⟨k, l, -, -, here, later⟩ := laid
    have first := action_points a counter here
    simp only [actions]
    split
    · rename_i target ended
      split
      · exact first
      · obtain ⟨m, n, named⟩ := first.terminator target ended
        refine ⟨pointed_append.mpr ⟨first.reports, ?_⟩, first.terminator⟩
        exact pointed_singleton named.past.points
    · have second := actions_points rest (action scope counter a).counter later
      exact ⟨pointed_append.mpr ⟨first.reports, second.reports⟩, second.terminator⟩

end

/-- What the definitions report points into the source, and so does the keyword of the list that
counts. -/
structure Declared.Points (source : String) (d : Declared) : Prop where
  reports : Pointed source d.reports
  list : ∀ list ∈ d.list, list.keyword.PointsInto source

namespace Declared

variable {d : Declared}

theorem Points.report {r : Report} (points : d.Points source)
    (here : r.selection.PointsInto source) : (d.report r).Points source :=
  ⟨pointed_append.mpr ⟨points.reports, pointed_singleton here⟩, points.list⟩

theorem addStates_points {keyword : Selection} (entries : List StateEntry)
    (repeated : List String) (opening : keyword.PointsInto source)
    (laid : ∀ s ∈ entries, ∃ i j, s.Laid source i j) (points : d.Points source) :
    (addStates keyword entries repeated d).Points source := by
  induction entries generalizing repeated d with
  | nil => exact points
  | cons s rest ih =>
    obtain ⟨⟨i, j, k, -, named⟩, later⟩ := List.forall_mem_cons.mp laid
    simp only [addStates]
    split
    · split
      · exact ih _ later points
      · exact ih _ later (points.report opening)
    · split
      · exact ih _ later (points.report named.spans.points)
      · exact ih _ later ⟨points.reports, points.list⟩

theorem add_points {x : Definition} (laid : x.Laid source i j) (points : d.Points source) :
    (d.add x).Points source := by
  cases x with
  | whenBlock b => exact points
  | declaration x =>
    obtain ⟨k, l, -, named, valued⟩ := laid
    simp only [add, declaration]
    split
    · exact points.report named.spans.points
    · exact ⟨pointed_append.mpr ⟨points.reports, expr_pointed _ valued⟩, points.list⟩
  | states list =>
    obtain ⟨k, l, opening, row, -⟩ := laid
    have entries : ∀ s ∈ list.states, ∃ i j, s.Laid source i j := by
      intro s member
      obtain ⟨m, n, -, -, here⟩ := row.mem member
      exact ⟨m, n, here⟩
    simp only [add, states]
    split
    · exact points.report opening.points
    · have counts : ({ d with list := some list } : Declared).Points source := by
        refine ⟨points.reports, ?_⟩
        rintro _ ⟨⟩
        exact opening.points
      have added := addStates_points list.states [] opening.points entries counts
      split
      · exact added.report opening.points
      · exact added

theorem foldl_points (xs : List Definition) (laid : ∀ x ∈ xs, ∃ i j, x.Laid source i j)
    (points : d.Points source) : (xs.foldl add d).Points source := by
  induction xs generalizing d with
  | nil => exact points
  | cons x rest ih =>
    obtain ⟨⟨i, j, here⟩, later⟩ := List.forall_mem_cons.mp laid
    exact ih later (add_points here points)

end Declared

theorem Sections.foldl_pointed (blocks : List WhenBlock) {s : Sections}
    (laid : ∀ b ∈ blocks, ∃ i j, (Definition.whenBlock b).Laid source i j)
    (before : Pointed source s.reports) :
    Pointed source (blocks.foldl (add scope) s).reports := by
  induction blocks generalizing s with
  | nil => exact before
  | cons b rest ih =>
    obtain ⟨⟨i, j, k, l, opening, named, body⟩, later⟩ := List.forall_mem_cons.mp laid
    apply ih later
    simp only [add]
    split
    · exact pointed_append.mpr ⟨before, pointed_singleton named.spans.points⟩
    · split
      · exact pointed_append.mpr ⟨before, pointed_singleton opening.points⟩
      · exact pointed_append.mpr ⟨before, (block_points b.body s.counter body).reports⟩

/-- Whatever is reported about definitions that are laid out on the source points into it. -/
theorem program_pointed {program : Source.Program} {earlier : List Report} {compiled : Compiled}
    (laid : ∀ d ∈ program, ∃ i j, d.Laid source i j) (before : Pointed source earlier)
    (accepted : Compile.program program earlier = .ok compiled) :
    Pointed source compiled.reports := by
  have declared : (Declared.ofProgram program).Points source :=
    Declared.foldl_points program laid ⟨pointed_nil, by simp⟩
  have early := pointed_append.mpr ⟨before, declared.reports⟩
  have blocks : ∀ b ∈ whenBlocks program, ∃ i j, (Definition.whenBlock b).Laid source i j :=
    fun b member => laid _ (mem_whenBlocks.mp member)
  have checked : Pointed source (sectionsOf program earlier).reports :=
    Sections.foldl_pointed _ blocks early
  simp only [Compile.program] at accepted
  split at accepted
  · cases accepted
    exact pointed_append.mpr
      ⟨early, pointed_singleton (Location.Of.points ⟨[], List.nil_prefix, rfl⟩)⟩
  · rename_i list counts
    rw [finish_eq] at accepted
    split at accepted
    · cases accepted
      exact checked
    · split at accepted
      · cases accepted
        exact checked
      · rename_i graph _ _ _
        cases assembled : Program.assemble (sectionsOf program earlier).code
            ((Declared.ofProgram program).symbols.useAll (sectionsOf program earlier).used)
            (some graph) with
        | error e =>
          rw [assembled] at accepted
          contradiction
        | ok p =>
          rw [assembled] at accepted
          cases accepted
          refine pointed_append.mpr ⟨checked, ?_⟩
          exact List.forall_mem_map.mpr fun _ _ => declared.list list counts

end Compile

/-- A compilation keeps the reports about the program that was compiled first. -/
theorem compile_reported {optimize : Bool} {c : Compilation}
    (compiled : compile source optimize = .ok c) : ∃ program,
      Compile.program (Source.parse source).value (Source.parse source).reports =
        .ok ⟨program, c.reports⟩ := by
  obtain ⟨⟨program, reports⟩, milestones, accepted, -, result⟩ := compile_checks source optimize
  rw [result, Compilation.check] at compiled
  refine ⟨program, ?_⟩
  dsimp only at compiled
  split at compiled
  · cases compiled
    exact accepted
  · split at compiled
    · contradiction
    · simp only [Compilation.improve] at compiled
      split at compiled
      · cases compiled
        exact accepted
      · split at compiled
        · contradiction
        · cases compiled
          exact accepted

/-- Every report of a compilation has a range of the source, with both ends in order. -/
theorem reports_point_into_source {optimize : Bool} {c : Compilation}
    (compiled : compile source optimize = .ok c) :
    ∀ r ∈ c.reports, r.selection.PointsInto source ∧
      r.selection.start.isValid = true ∧ r.selection.stop.isValid = true := by
  obtain ⟨program, accepted⟩ := compile_reported compiled
  obtain ⟨j, row⟩ := Source.parse_laid source
  have laid : ∀ d ∈ (Source.parse source).value, ∃ i j, d.Laid source i j := by
    intro d member
    obtain ⟨k, l, -, -, here⟩ := row.mem member
    exact ⟨k, l, here⟩
  intro r member
  have points := Compile.program_pointed laid (Source.parse_pointed source) accepted r member
  exact ⟨points, points.start.isValid, points.stop.isValid⟩

/-- Has a stray character, a block that does not end, an action that cannot be reached and a state
that is not declared. -/
def Source.faulty : String :=
  "state \x7b A, B \x7d\nwhen A \x7b state := B; x := y; \x7d\nwhen C \x7b \x7d ?\nwhen B \x7b"

theorem reports_point_into_source_faulty :
    ∃ c, compile Source.faulty true = .ok c ∧
      c.reports.map Report.selection =
        [.char ⟨3, 12⟩, .char ⟨4, 9⟩, .char ⟨2, 20⟩, .char ⟨3, 6⟩] ∧
      ∀ r ∈ c.reports, r.selection.PointsInto Source.faulty ∧
        r.selection.start.isValid = true ∧ r.selection.stop.isValid = true := by
  have shown : (compile Source.faulty true).toOption.map (fun c => c.reports.map Report.selection) =
      some [.char ⟨3, 12⟩, .char ⟨4, 9⟩, .char ⟨2, 20⟩, .char ⟨3, 6⟩] := by decide +kernel
  obtain ⟨c, found, ranges⟩ := Option.map_eq_some_iff.mp shown
  have compiled : compile Source.faulty true = .ok c := by
    cases same : compile Source.faulty true with
    | error e =>
      rw [same] at found
      contradiction
    | ok other =>
      rw [same] at found
      cases found
      rfl
  exact ⟨c, compiled, ranges, reports_point_into_source compiled⟩

end Statecraft
