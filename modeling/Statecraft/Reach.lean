/-! Breadth-first search of a graph whose nodes are the numbers below some count and
whose edges are given by the successors of each node. A node is marked when it
enters the queue, so it enters once, and the number of nodes bounds the search. -/
namespace Statecraft

structure Reach where
  /-- Tells of each node whether it was found. -/
  marks : Array Bool
  /-- The nodes that were found, the latest first. -/
  latest : List Nat

namespace Reach

def none (count : Nat) : Reach := ⟨Array.replicate count false, []⟩

def contains (r : Reach) (x : Nat) : Bool := r.marks[x]?.getD false

def order (r : Reach) : List Nat := r.latest.reverse

/-- Marks the nodes that have no mark yet and returns them in order. -/
def mark : List Nat → Reach → Reach × List Nat
  | [], r => (r, [])
  | x :: rest, ⟨marks, latest⟩ =>
      if marks[x]? = some false then
        let (r, found) := mark rest ⟨marks.setIfInBounds x true, x :: latest⟩
        (r, x :: found)
      else mark rest ⟨marks, latest⟩

/-- Takes nodes from the queue and appends the successors found by them. -/
def search (next : Nat → List Nat) : Nat → Reach → (queue : List Nat) → Reach
  | 0, r, _ => r
  | _ + 1, r, [] => r
  | fuel + 1, r, x :: queue =>
      let (r, found) := mark (next x) r
      search next fuel r (queue ++ found)

/-- What is reachable from the first of the given number of nodes. -/
def ofFirst (next : Nat → List Nat) (count : Nat) : Reach :=
  let (r, found) := mark [0] (none count)
  search next count r found

end Reach
end Statecraft
