import DeadCode.Failure
import DeadCode.FileTree.Resolve

namespace DeadCode.FileTree

def leadsTo (tree : FileTree) (path : String) (accepts : Entry → Bool) : Bool :=
  match tree.locate .follow path with
  | .ok (.found _ entry) => accepts entry
  | _ => false

def contains (tree : FileTree) (path : String) : Bool :=
  tree.leadsTo path fun _ => true

def isDirectory (tree : FileTree) (path : String) : Bool :=
  tree.leadsTo path Entry.isDirectory

def read (tree : FileTree) (path : String) : Except FileError String := do
  match ← tree.locate .follow path with
  | .found _ (.file content) =>
    match String.fromUTF8? content with
    | some text => return text
    | none => throw .notText
  | .found _ .directory => throw .isADirectory
  | .found _ (.link _) | .vacant _ => throw .missing

def write (tree : FileTree) (path text : String) : Except FileError FileTree := do
  match ← tree.locate .create path with
  | .found _ .directory => throw .isADirectory
  | .found place _ | .vacant place => return tree.insert place (.file text.toUTF8)

def load (tree : FileTree) (path : String) : Except Failure String :=
  (tree.read path).mapError fun e => .io path e.message

-- As `write`, with a failure that names the path. Nothing changes in a dry run.
def save (tree : FileTree) (path text : String) (dryRun : Bool) : Except Failure FileTree :=
  if dryRun then .ok tree else (tree.write path text).mapError fun e => .io path e.message

inductive Removal
  | removed (tree : FileTree)
  | absent
  | refused (warning : String)

-- Removes the file at a path, unless it is a dry run. Links and directories stay.
def remove (tree : FileTree) (path : String) (dryRun : Bool) : Except Failure Removal :=
  match tree.locate .keep path with
  | .error .missing | .ok (.vacant _) => .ok .absent
  | .error e => .error (.io path e.message)
  | .ok (.found _ (.link _)) => .ok (.refused s!"Refusing to delete symlink: {path}")
  | .ok (.found _ .directory) => .ok (.refused s!"Not a regular file: {path}")
  | .ok (.found place (.file _)) => .ok (.removed (if dryRun then tree else tree.erase place))

end DeadCode.FileTree
