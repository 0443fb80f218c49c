import Statecraft.Compile.Action
import Statecraft.Code.Program
import Statecraft.Source.Definition

/-! Compiling a program. Lists of states and declarations come first, in source
order, so that all names exist before any when-block is compiled. The code starts
with the initial values, goes to the when-block of the initial state or stops,
and has one labelled section per when-block that ends by starting again. -/
namespace Statecraft.Compile

open Source (Definition StateList StateEntry Declaration WhenBlock)

/-- What the definitions outside of when-blocks amount to. -/
structure Declared where
  symbols : Symbols := .empty
  graph : Graph.Builder := .empty
  /-- The list of states that counts. -/
  list : Option StateList := none
  code : List Instruction := []
  reports : List Report := []

namespace Declared

def report (d : Declared) (r : Report) : Declared := { d with reports := d.reports ++ [r] }

/-- Adds the states of a list. A name that repeats is reported once. -/
def addStates (keyword : Selection) : List StateEntry → List String → Declared → Declared
  | [], _, d => d
  | s :: rest, repeated, d =>
      let name := s.name.text
      let duplicate (span : Selection) : Report :=
        { kind := .duplicateIdentifier, selection := span, info := name }
      if d.graph.hasState name then
        if name ∈ repeated then addStates keyword rest repeated d
        else addStates keyword rest (name :: repeated) (d.report (duplicate keyword))
      else
        match d.symbols.define ⟨name, .state, .invalid, s.name.span, false⟩ with
        | .error _ => addStates keyword rest repeated (d.report (duplicate s.name.span))
        | .ok symbols =>
            let attributes := s.attributes.map fun a => (a.name.text, a.value)
            addStates keyword rest repeated
              { d with symbols, graph := d.graph.withState ⟨name, attributes, s.name.span⟩ }

/-- The first list of states counts; it needs two states. -/
def states (d : Declared) (list : StateList) : Declared :=
  if d.list.isSome then
    d.report { kind := .ambiguousDefinition, selection := list.keyword, info := "state" }
  else
    let added := addStates list.keyword list.states [] { d with list := some list }
    if added.graph.states.length < 2 then
      added.report { kind := .tooLittleStates, selection := list.keyword }
    else added

/-- A constant or a variable and the code that stores its initial value. -/
def declaration (d : Declared) (x : Declaration) : Declared :=
  let compiled := expr d.symbols x.value
  let kind : SymbolKind :=
    match x.storage with
    | .fixed => .constant
    | .assignable => .mutable
  let used := d.symbols.useAll x.value.reads
  match used.define ⟨x.name.text, kind, compiled.type, x.name.span, false⟩ with
  | .error _ =>
      d.report { kind := .duplicateIdentifier, selection := x.name.span, info := x.name.text }
  | .ok symbols =>
      { d with
        symbols
        code := d.code ++ .location x.span :: compiled.code ++ [.store x.name.text]
        reports := d.reports ++ compiled.reports }

/-- Takes up one definition; when-blocks are left for later. -/
def add (d : Declared) : Definition → Declared
  | .states list => d.states list
  | .declaration x => d.declaration x
  | .whenBlock _ => d

def ofProgram (program : Source.Program) : Declared := program.foldl add {}

end Declared

def whenBlocks (program : Source.Program) : List WhenBlock :=
  program.filterMap fun
    | .whenBlock b => some b
    | _ => none

structure Sections where
  code : List Instruction
  reports : List Report
  /-- The states that have their section. -/
  labels : List String
  used : List String
  counter : Nat
  graph : Graph.Builder

namespace Sections

/-- Compiles the section of a state. A state without a transition stays where it is. -/
def compile (scope : Scope) (s : Sections) (b : WhenBlock) : Sections :=
  let name := b.state.text
  let body := block scope s.counter b.body
  let moves := if body.targets.isEmpty then [name] else body.targets
  { code :=
      s.code ++ .label name :: .location (.hullAll [b.keyword, b.state.span]) :: body.code ++
        [.jump name]
    reports := s.reports ++ body.reports
    labels := name :: s.labels
    used := s.used ++ name :: body.used
    counter := body.counter
    graph := moves.foldl (fun graph target => graph.withMove name target) s.graph }

/-- Adds the section of a when-block, which has to be the first of a declared state. -/
def add (scope : Scope) (s : Sections) (b : WhenBlock) : Sections :=
  let name := b.state.text
  if name ∉ scope.states then
    { s with
      reports := s.reports ++
        [{ kind := .undefinedState, selection := b.state.span, info := name }] }
  else if name ∈ s.labels then
    { s with
      used := s.used ++ [name]
      reports := s.reports ++
        [{ kind := .ambiguousDefinition, selection := b.keyword, info := name }] }
  else compile scope s b

end Sections

/-- Goes to the when-block of the initial state if there is one, or else stops. -/
def entry (initial : Option String) (withBlock : List String) : List Instruction :=
  (match initial with
    | some name => if name ∈ withBlock then [.jump name] else []
    | none => []) ++ [.exit .finalStateReached]

/-- A warning per state that no transition leads to. -/
def unreachableStates (keyword : Selection) (graph : Graph) : List Report :=
  graph.unreachable.map fun name =>
    { kind := .unreachableState, selection := keyword, info := name }

/-- A compiled program, if there is no error, and all reports. -/
structure Compiled where
  program : Option Program
  reports : List Report

/-- Compiles the when-blocks after the declarations and assembles the result. -/
def finish (program : Source.Program) (earlier : List Report) (declared : Declared)
    (list : StateList) : Except AssemblyError Compiled :=
  let states := declared.graph.states.map State.name
  let blocks := whenBlocks program
  let withBlock := (blocks.map fun b => b.state.text).filter (· ∈ states)
  let scope : Scope := ⟨declared.symbols, states, withBlock⟩
  let start : Sections :=
    ⟨declared.code ++ entry states.head? withBlock, earlier ++ declared.reports, [], [], 0,
      declared.graph⟩
  let sections := blocks.foldl (Sections.add scope) start
  match sections.graph.build with
  | .error _ => .ok ⟨none, sections.reports⟩
  | .ok (graph, _) =>
      if sections.reports.any Report.isError then .ok ⟨none, sections.reports⟩
      else
        let symbols := declared.symbols.useAll sections.used
        (Program.assemble sections.code symbols (some graph)).map fun compiled =>
          ⟨some compiled, sections.reports ++ unreachableStates list.keyword graph⟩

/-- Compiles a program about which `earlier` was reported already. -/
def program (program : Source.Program) (earlier : List Report) : Except AssemblyError Compiled :=
  let declared := Declared.ofProgram program
  match declared.list with
  | none =>
      .ok ⟨none, earlier ++ declared.reports ++
        [{ kind := .missingStateDefinition, selection := .first }]⟩
  | some list => finish program earlier declared list

end Statecraft.Compile
