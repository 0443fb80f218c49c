import Statecraft.Position
import Statecraft.Reach

/-! State graphs. A builder collects states and moves, building freezes them into
a graph, and a walker follows the moves of the graph from its initial state. -/
namespace Statecraft

/-- A state of the graph. Of attributes with the same name the last one counts. -/
structure State where
  name : String
  attributes : List (String × String)
  span : Selection
deriving DecidableEq, Repr

inductive GraphError where
  | duplicateState (name : String)
  | unknownState (name : String)
  | noStates
  | consumed
  | invalidTransition (source target : String)
deriving DecidableEq, Repr

def GraphError.message : GraphError → String
  | duplicateState name => "duplicate state: " ++ name
  | unknownState name => "unknown state: " ++ name
  | noStates => "state machine has no states"
  | consumed => "builder already consumed"
  | invalidTransition source target => "invalid transition: " ++ source ++ " -> " ++ target

/-- A frozen state graph. It has at least one state. -/
structure Graph where
  initial : State
  others : List State
  moves : List (String × String)
deriving DecidableEq, Repr

namespace Graph

def states (g : Graph) : List State := g.initial :: g.others

def names (g : Graph) : List String := g.states.map State.name

def find? (g : Graph) (name : String) : Option State := g.states.find? (·.name = name)

def hasState (g : Graph) (name : String) : Bool := (g.find? name).isSome

def index? (g : Graph) (name : String) : Option Nat := g.states.findIdx? (·.name = name)

def canMove (g : Graph) (source target : String) : Bool := (source, target) ∈ g.moves

def targets (g : Graph) (source : String) : List String :=
  let ends := (g.moves.filter (·.1 = source)).map Prod.snd
  g.names.filter (· ∈ ends)

/-- Every move, by source and then by target in order of declaration. -/
def edges (g : Graph) : List (String × String) :=
  g.names.flatMap fun source => (g.targets source).map (source, ·)

/-- The states one move away from the state at a place, by place. -/
def nextPlaces (g : Graph) (place : Nat) : List Nat :=
  match g.states[place]? with
  | some s => (g.targets s.name).filterMap g.index?
  | none => []

/-- What moves lead to from the initial state, by place. -/
def reach (g : Graph) : Reach := Reach.ofFirst g.nextPlaces g.states.length

def reachable (g : Graph) : List String :=
  g.reach.order.filterMap fun place => g.states[place]?.map State.name

def unreachable (g : Graph) : List String :=
  let reach := g.reach
  (g.names.zipIdx.filter fun (_, place) => !reach.contains place).map Prod.fst

/-- One state a line with its targets; a star marks the initial state. -/
def text (g : Graph) : String :=
  let line (mark : String) (s : State) : String :=
    let targets := g.targets s.name
    mark ++ " " ++ s.name ++
      (if targets.isEmpty then "" else " -> " ++ ", ".intercalate targets) ++ "\n"
  line "*" g.initial ++ String.join (g.others.map (line " "))

structure Builder where
  states : List State
  moves : List (String × String)
  consumed : Bool
deriving DecidableEq, Repr

namespace Builder

def empty : Builder := ⟨[], [], false⟩

def hasState (b : Builder) (name : String) : Bool := b.states.any (·.name = name)

/-- Adds a state at the end. The first one is the initial state. -/
def addState (b : Builder) (s : State) : Except GraphError Builder :=
  if b.consumed then .error .consumed
  else if b.hasState s.name then .error (.duplicateState s.name)
  else .ok { b with states := b.states ++ [s] }

/-- Records a move between two states that exist; a second time changes nothing. -/
def addMove (b : Builder) (source target : String) : Except GraphError Builder :=
  if b.consumed then .error .consumed
  else if !b.hasState source then .error (.unknownState source)
  else if !b.hasState target then .error (.unknownState target)
  else .ok { b with moves := b.moves.insert (source, target) }

def withState (b : Builder) (s : State) : Builder := (b.addState s).toOption.getD b

def withMove (b : Builder) (source target : String) : Builder :=
  (b.addMove source target).toOption.getD b

/-- Freezes the builder, which cannot be used again. -/
def build (b : Builder) : Except GraphError (Graph × Builder) :=
  if b.consumed then .error .consumed
  else
    match b.states with
    | [] => .error .noStates
    | initial :: others => .ok (⟨initial, others, b.moves⟩, ⟨[], [], true⟩)

/-- Adds states and then moves, up to the first that is refused. -/
def addAll (b : Builder) (states : List State) (moves : List (String × String)) :
    Except GraphError Builder := do
  let b ← states.foldlM addState b
  moves.foldlM (fun b (source, target) => b.addMove source target) b

end Builder

def ofLists (states : List State) (moves : List (String × String)) : Except GraphError Graph := do
  let b ← Builder.empty.addAll states moves
  let (graph, _) ← b.build
  return graph

structure Walker where
  graph : Graph
  current : State
deriving DecidableEq, Repr

namespace Walker

def start (graph : Graph) : Walker := ⟨graph, graph.initial⟩

def moveTo (w : Walker) (name : String) : Except GraphError Walker :=
  match w.graph.find? name with
  | none => .error (.unknownState name)
  | some target =>
      if w.graph.canMove w.current.name name then .ok { w with current := target }
      else .error (.invalidTransition w.current.name name)

def reset (w : Walker) : Walker := start w.graph

end Walker
end Graph
end Statecraft
