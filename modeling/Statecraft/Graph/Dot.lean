import Statecraft.Graph
import Statecraft.Text.Quoted

/-! State graphs in the DOT format. A point-shaped node leads to the initial
state, attributes are written in order of their names, and all names but those
of attributes are quoted. -/
namespace Statecraft

open Text (quoted)

/-- The attributes by name, each with the value given last. -/
def State.sortedAttributes (s : State) : List (String × String) :=
  let keys := (s.attributes.map Prod.fst).eraseDups.mergeSort fun a b => !decide (b < a)
  keys.map fun key => (key, ((s.attributes.reverse.lookup key).getD ""))

def State.dotLine (s : State) : String :=
  let attributes := s.sortedAttributes.map fun (key, value) => key ++ "=" ++ quoted value
  "  " ++ quoted s.name ++
    (if attributes.isEmpty then "" else " [" ++ ", ".intercalate attributes ++ "]") ++ ";\n"

def Graph.dot (g : Graph) (title : String) : String :=
  "digraph " ++ quoted title ++ " \x7b\n  __start [shape=point];\n  __start -> " ++
    quoted g.initial.name ++ ";\n" ++ String.join (g.states.map State.dotLine) ++
    String.join (g.edges.map fun (a, b) => "  " ++ quoted a ++ " -> " ++ quoted b ++ ";\n") ++
    "\x7d\n"

end Statecraft
