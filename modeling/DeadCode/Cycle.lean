import DeadCode.Digraph
import DeadCode.Mark

namespace DeadCode

-- A largest set of dead declarations each of which leads to every other one.
structure Cycle where
  members : List Nat
  names : List String
  deriving DecidableEq, Repr

namespace Cycle

-- A vertex for each dead declaration, and the vertex of each declaration that is dead.
def vertices (p : Project) (isDead : Nat → Bool) : Digraph Nat × Array (Option Nat) :=
  (List.range p.declarations.size).foldl (fun (g, index) d =>
    if isDead d then (g.addVertex d, index.push (some g.size)) else (g, index.push none)) ({}, #[])

-- An edge for a usage that leads from one dead declaration to another one.
def addUsage (index : Array (Option Nat)) (mode : Mode) (g : Digraph Nat) (u : Usage) : Digraph Nat :=
  if u.kind = .grep && !mode.followsGrep then g
  else
    match u.container with
    | none => g
    | some d =>
      match index.getD d none, index.getD u.target none with
      | some i, some j => g.updateEdge i j
      | _, _ => g

-- Which dead declarations refer to which.
def references (p : Project) (isDead : Nat → Bool) (mode : Mode) : Digraph Nat :=
  let (g, index) := vertices p isDead
  p.usages.foldl (addUsage index mode) g

-- Whether a component holds a cycle. If it has a single vertex, this has to lead to itself.
def isCyclic (g : Digraph Nat) (component : List Nat) : Bool :=
  1 < component.length || component.head?.any fun i => g.hasEdge i i

def ofComponent (p : Project) (g : Digraph Nat) (component : List Nat) : Cycle :=
  let members := (component.filterMap g.label?).mergeSort
  { members, names := members.map fun d => shownName (p.declarations[d]?.bind Declaration.name) }

-- Larger cycles first, and those of one size by their members.
def order (a b : Cycle) : Ordering :=
  (compare b.members.length a.members.length).then (a.members.compareLex compare b.members)

-- All cycles among the dead declarations. The components of a graph can be listed in any order.
def find (p : Project) (isDead : Nat → Bool) (mode : Mode)
    (components : Digraph Nat → List (List Nat) := Digraph.components) : List Cycle :=
  let g := references p isDead mode
  let cycles := ((components g).filter (isCyclic g)).map (ofComponent p g)
  cycles.mergeSort fun a b => (order a b).isLE

end Cycle

end DeadCode
