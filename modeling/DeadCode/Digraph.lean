import DeadCode.Worklist

namespace DeadCode

structure Digraph.Vertex (α : Type) where
  label : α
  -- The vertices to which an edge leads from here, the latest first.
  next : List Nat := []

-- A directed graph. Its vertices are numbered, and edges lead to vertices that are there.
structure Digraph (α : Type) where
  vertices : Array (Digraph.Vertex α) := #[]
  closed : ∀ v ∈ vertices, ∀ j ∈ v.next, j < vertices.size := by simp

namespace Digraph

variable {α : Type}

def size (g : Digraph α) : Nat :=
  g.vertices.size

def label? (g : Digraph α) (i : Nat) : Option α :=
  g.vertices[i]?.map Vertex.label

def next (g : Digraph α) (i : Nat) : List Nat :=
  (g.vertices[i]?.map Vertex.next).getD []

def hasEdge (g : Digraph α) (i j : Nat) : Bool :=
  (g.next i).contains j

def addVertex (g : Digraph α) (label : α) : Digraph α where
  vertices := g.vertices.push { label }
  closed v hv j hj := by
    have hv : v ∈ g.vertices := (Array.mem_push.mp hv).resolve_right fun h => by simp [h] at hj
    exact Array.size_push _ ▸ Nat.lt_succ_of_lt (g.closed v hv j hj)

-- Adds an edge unless there is one already. An edge to a vertex that is not there is a misuse, which has no
-- effect.
def updateEdge (g : Digraph α) (i j : Nat) : Digraph α :=
  if h : j < g.size ∧ ¬g.hasEdge i j then {
    vertices := g.vertices.modify i fun v => { v with next := j :: v.next }
    closed v hv k hk := by
      rw [Array.size_modify]
      obtain ⟨l, hl⟩ := Array.mem_iff_getElem?.mp hv
      rw [Array.getElem?_modify] at hl
      split at hl
      case isFalse => exact g.closed v (Array.mem_of_getElem? hl) k hk
      case isTrue =>
        obtain ⟨w, hw, rfl⟩ := Option.map_eq_some_iff.mp hl
        cases hk
        case head => exact h.left
        case tail hk => exact g.closed w (Array.mem_of_getElem? hw) k hk }
  else g

-- Marks a vertex as seen, and goes on from there the first time.
def visit (seen : Array Bool) (i : Nat) : Array Bool × Bool :=
  if i < seen.size && !seen.getD i true then (seen.setIfInBounds i true, true) else (seen, false)

-- The vertices below `size` that are reached from `start` in one step or more.
def reach (next : Nat → List Nat) (size start : Nat) : Array Bool :=
  (Worklist.run next visit size (next start) (Array.replicate size false)).getD #[]

-- The vertices from which an edge leads to each vertex.
def predecessors (g : Digraph α) : Array (List Nat) :=
  (List.range g.size).foldr (fun i table =>
    (g.next i).foldl (fun table j => table.modify j (i :: ·)) table) (Array.replicate g.size [])

-- The vertices that `start` leads to and that lead back to it.
def component (g : Digraph α) (previous : Array (List Nat)) (start : Nat) : List Nat :=
  let ahead := reach g.next g.size start
  let behind := reach (previous.getD · []) g.size start
  (List.range g.size).filter fun i => i == start || ahead.getD i false && behind.getD i false

-- The strongly connected components, by their least member.
def components (g : Digraph α) : List (List Nat) :=
  let previous := g.predecessors
  (List.range g.size).filterMap fun i =>
    let members := g.component previous i
    if members.head? = some i then some members else none

end Digraph

end DeadCode
