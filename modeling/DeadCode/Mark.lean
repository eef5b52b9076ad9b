import DeadCode.Project.Basic
import DeadCode.Worklist

namespace DeadCode

inductive Mode
  | strict
  | fuzzy
  deriving DecidableEq, Repr

namespace Mode

def ofBool (followGrep : Bool) : Mode :=
  if followGrep then fuzzy else strict

def followsGrep : Mode → Bool
  | strict => false
  | fuzzy => true

def flag : Mode → Flags
  | strict => .reachedByChecker
  | fuzzy => .reachedByGrep

end Mode

namespace Project

-- Where a walk goes from a node. The project leads to its entry files, and an entry file to its
-- declarations. Any file that is reached is loaded, so its code outside of declarations counts. A
-- declaration loads its file.
def successors (p : Project) (mode : Mode) : Node → List Node
  | .project =>
    ((List.range p.files.size).filter fun i => p.files[i]?.any File.isEntrypoint).map .file
  | .file i =>
    match p.files[i]? with
    | none => []
    | some f =>
      (if f.isEntrypoint then f.declarations.toList.map .declaration else []) ++
        f.checkerOrphans.toList.map .usage ++
        (if mode.followsGrep then f.grepOrphans.toList.map .usage else [])
  | .declaration i =>
    match p.declarations[i]? with
    | none => []
    | some d =>
      .file d.file :: d.checkerUsages.toList.map .usage ++
        (if mode.followsGrep then d.grepUsages.toList.map .usage else [])
  | .usage i =>
    match p.usages[i]? with
    | none => []
    | some u => [.declaration u.target]

-- Walks from the project along `successors`. The visitor sees each node as often as it is found,
-- and decides whether to go on from there.
def walk {σ : Type} (p : Project) (mode : Mode) (visit : σ → Node → σ × Bool) (budget : Nat)
    (state : σ) : Option σ :=
  Worklist.run (p.successors mode) visit budget [.project] state

-- Puts a flag on a node that does not have it, counts the node, and goes on from there.
def markVisit (flag : Flags) : FlagTable × Nat → Node → (FlagTable × Nat) × Bool
  | (table, count), node =>
    if (table.get node).contains flag then ((table, count), false)
    else ((table.insert node flag, count + 1), true)

-- Puts a flag on all nodes that can be reached through nodes without it, and counts them. No node
-- is expanded twice, so the budget suffices.
def mark (p : Project) (flag : Flags) (mode : Mode) : Project × Nat :=
  match p.walk mode (markVisit flag) p.nodeCount (p.flags, 0) with
  | some (flags, count) => ({ p with flags }, count)
  | none => (p, 0)

def reset (p : Project) (mask : Flags) : Project :=
  { p with flags := p.nodes.foldl (fun table node => table.remove node mask) p.flags }

def sweep (p : Project) (flag : Flags) : List Node :=
  p.nodes.filter fun node => !(p.flags.get node).contains flag

end Project

end DeadCode
