import DeadCode.Flags
import DeadCode.Span

namespace DeadCode

inductive UsageKind
  | checker
  | grep
  deriving DecidableEq, Repr

def UsageKind.name : UsageKind → String
  | checker => "checker"
  | grep => "grep"

inductive Node
  | project
  | file (index : Nat)
  | declaration (index : Nat)
  | usage (index : Nat)
  deriving DecidableEq, Repr

structure File where
  filename : String
  isEntrypoint : Bool
  declarations : Array Nat := #[]
  -- Usages of the file's code that lies outside of every declaration.
  checkerOrphans : Array Nat := #[]
  grepOrphans : Array Nat := #[]
  deriving DecidableEq, Repr

structure Declaration where
  file : Nat
  name : Option String
  isExport : Bool
  span : Span
  checkerUsages : Array Nat := #[]
  grepUsages : Array Nat := #[]
  deriving DecidableEq, Repr

structure Usage where
  kind : UsageKind
  file : Nat
  -- The declaration whose code the usage is part of.
  container : Option Nat
  location : Nat
  target : Nat
  deriving DecidableEq, Repr

def shownName (name : Option String) : String :=
  name.getD "<statement>"

def Declaration.shownName (d : Declaration) : String :=
  DeadCode.shownName d.name

-- The flags of all nodes. A node for which nothing has been stored has none.
structure FlagTable where
  project : Flags := .none
  files : Array Flags := #[]
  declarations : Array Flags := #[]
  usages : Array Flags := #[]
  deriving DecidableEq, Repr

namespace FlagTable

def store (table : Array Flags) (i : Nat) (flags : Flags) : Array Flags :=
  if i < table.size then table.setIfInBounds i flags
  else (table ++ Array.replicate (i - table.size) Flags.none).push flags

def get (table : FlagTable) : Node → Flags
  | .project => table.project
  | .file i => table.files.getD i .none
  | .declaration i => table.declarations.getD i .none
  | .usage i => table.usages.getD i .none

def set (table : FlagTable) (node : Node) (flags : Flags) : FlagTable :=
  match node with
  | .project => { table with project := flags }
  | .file i => { table with files := store table.files i flags }
  | .declaration i => { table with declarations := store table.declarations i flags }
  | .usage i => { table with usages := store table.usages i flags }

def insert (table : FlagTable) (node : Node) (flags : Flags) : FlagTable :=
  table.set node ((table.get node).insert flags)

def remove (table : FlagTable) (node : Node) (flags : Flags) : FlagTable :=
  table.set node ((table.get node).remove flags)

end FlagTable

structure Project where
  files : Array File := #[]
  declarations : Array Declaration := #[]
  usages : Array Usage := #[]
  -- The numbers of the files by their names. What has been entered last counts.
  filesByName : List (String × Nat) := []
  flags : FlagTable := {}
  deriving DecidableEq, Repr

namespace Project

def empty : Project := {}

def contains (p : Project) : Node → Bool
  | .project => true
  | .file i => i < p.files.size
  | .declaration i => i < p.declarations.size
  | .usage i => i < p.usages.size

def nodes (p : Project) : List Node :=
  .project :: (List.range p.files.size).map .file ++
    (List.range p.declarations.size).map .declaration ++ (List.range p.usages.size).map .usage

def nodeCount (p : Project) : Nat :=
  1 + p.files.size + p.declarations.size + p.usages.size

def flags? (p : Project) (node : Node) : Option Flags :=
  if p.contains node then some (p.flags.get node) else none

def recordSearch (p : Project) (node : Node) : Project :=
  { p with flags := p.flags.insert node .searched }

def fileNamed? (p : Project) (filename : String) : Option Nat :=
  (p.filesByName.find? fun (name, _) => name == filename).map fun (_, file) => file

def filename (p : Project) (file : Nat) : String :=
  (p.files[file]?.map File.filename).getD ""

def declarationAt? (p : Project) (file location : Nat) : Option Nat := do
  let file ← p.files[file]?
  file.declarations.find? fun d => p.declarations[d]?.any (·.span.contains location)

def describe? (p : Project) : Node → Option String
  | .project => some "project"
  | .file i => do
    let file ← p.files[i]?
    return s!"file {file.filename}"
  | .declaration i => do
    let d ← p.declarations[i]?
    return s!"declaration `{d.shownName}` in {p.filename d.file}@{d.span.start}"
  | .usage i => do
    let u ← p.usages[i]?
    let target ← p.declarations[u.target]?
    return s!"{u.kind.name} usage in {p.filename u.file}@{u.location} -> {target.shownName}"

end Project

end DeadCode
