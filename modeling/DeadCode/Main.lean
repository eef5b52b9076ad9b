import DeadCode.CommandLine.Run
import Std.Time.Format

namespace DeadCode.Shell

def pathOf (place : Place) : String :=
  "/" ++ "/".intercalate place

-- The entry of a link. Where a link that leads nowhere points to is not known, so it gets a target
-- that no file can have.
def linkEntry (path : String) : IO Entry := do
  match ← (IO.FS.realPath path).toBaseIO with
  | .ok target =>
    if target.toString == path then return .link (path ++ "\x00") else return .link target.toString
  | .error _ => return .link (path ++ "\x00")

-- Adds what there is at a place. What is neither file nor link is as closed as a directory.
def fetch (tree : FileTree) (place : Place) : IO FileTree := do
  let path := pathOf place
  match ← (((← IO.currentDir) / path).symlinkMetadata).toBaseIO with
  | .error _ => return tree
  | .ok metadata =>
    let entry ← match metadata.type with
      | .file => Entry.file <$> IO.FS.readBinFile path
      | .symlink => linkEntry path
      | _ => pure .directory
    return tree.insert place entry

partial def explore (tree : FileTree) (here : Place) : List String → IO FileTree
  | [] => return tree
  | name :: rest => do
    if name.isEmpty || name == "." then explore tree here rest
    else if name == ".." then explore tree here.dropLast rest
    else
      let place := here ++ [name]
      let tree ← if (tree.get? place).isSome then pure tree else fetch tree place
      match tree.get? place with
      | some (.link target) =>
        explore tree (FileTree.start here target) (Path.steps target ++ rest)
      | some _ => explore tree place rest
      | none => return tree

def addPath (tree : FileTree) (path : String) : IO FileTree :=
  explore tree (FileTree.start tree.current path) (Path.steps path)

-- The tree with all that a run looks at. Each of the three rounds finds out which paths matter in
-- the next: those of the configuration, of the manifest, and of the files.
def treeFor (arguments : List String) : IO FileTree := do
  let home := (← IO.currentDir).toString
  let mut tree ← addPath ⟨(Path.steps home), []⟩ home
  for _ in [0:3] do
    tree ← (CommandLine.paths arguments tree).foldlM addPath tree
  return tree

-- Writes the files that differ. A file below a link that leads nowhere is written through it.
def store (before after : FileTree) : IO Unit := do
  for (place, entry) in after.entries do
    if let .file content := entry then
      let isSame := match before.get? place with
        | some (.file old) => old.data == content.data
        | _ => false
      if !isSame then IO.FS.writeBinFile ((pathOf place).replace "\x00" "") content
  for (place, _) in before.entries do
    if (after.get? place).isNone then IO.FS.removeFile (pathOf place)

def time : IO String := do
  let now := Std.Time.DateTime.ofTimestamp (← Std.Time.Timestamp.now) .UTC
  return now.format "uuuu-MM-dd'T'HH:mm:ss.SSSSSSSSSxxx"

def run (arguments : List String) : IO UInt32 := do
  let tree ← treeFor arguments
  let outcome := CommandLine.respond arguments tree (← time)
  store tree outcome.tree
  IO.print outcome.output
  IO.eprint outcome.messages
  return outcome.exitCode.toUInt32

end DeadCode.Shell

def main (arguments : List String) : IO UInt32 := do
  try DeadCode.Shell.run arguments
  catch error =>
    IO.eprintln s!"[ERROR] {error}"
    return 2
