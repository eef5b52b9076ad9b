import DeadCode.FileTree.Basic
import DeadCode.Path

namespace DeadCode

inductive FileError
  | missing
  | notADirectory
  | isADirectory
  | nameTooLong
  | tooManyLinks
  | nulInPath
  | notText
  deriving DecidableEq, Repr

def FileError.message : FileError → String
  | missing => "No such file or directory (os error 2)"
  | notADirectory => "Not a directory (os error 20)"
  | isADirectory => "Is a directory (os error 21)"
  | nameTooLong => "File name too long (os error 36)"
  | tooManyLinks => "Too many levels of symbolic links (os error 40)"
  | nulInPath => "file name contained an unexpected NUL byte"
  | notText => "stream did not contain valid UTF-8"

-- The names to follow. A slash at the end of a path counts as an empty name there.
def Path.steps (path : String) : List String :=
  let names := (segments path.toList).map String.ofList
  names.dropLast.filter (!·.isEmpty) ++ names.getLast?.toList

namespace FileTree

inductive Ending
  | follow
  | keep
  -- As for `follow`, and the path has to be fit for a file: no slash stands at its end.
  | create
  deriving DecidableEq, Repr

inductive Location
  | found (place : Place) (entry : Entry)
  | vacant (place : Place)

def maxName : Nat := 255

def maxPath : Nat := 4095

def maxLinks : Nat := 40

def start (directory : Place) (path : String) : Place :=
  if Path.isAbsolute path then [] else directory

-- Follows names from a directory. At a link, `jump` takes over with the names that are left.
def walkWith (tree : FileTree) (ending : Ending)
    (jump : Place → List String → Except FileError Location) :
    Place → List String → Except FileError Location
  | here, [] => .ok (.found here .directory)
  | here, name :: rest =>
    if name.isEmpty || name == "." then walkWith tree ending jump here rest
    else if name == ".." then walkWith tree ending jump here.dropLast rest
    else if ending = .create ∧ rest = [""] then .error .isADirectory
    else if maxName < name.utf8ByteSize then .error .nameTooLong
    else match tree.get? (here ++ [name]) with
      | none => if rest.isEmpty then .ok (.vacant (here ++ [name])) else .error .missing
      | some .directory => walkWith tree ending jump (here ++ [name]) rest
      | some (.file content) =>
        if rest.isEmpty then .ok (.found (here ++ [name]) (.file content))
        else .error .notADirectory
      | some (.link target) =>
        if rest.isEmpty ∧ ending = .keep then .ok (.found (here ++ [name]) (.link target))
        else jump (start here target) (Path.steps target ++ rest)

def walk (tree : FileTree) (ending : Ending) :
    Nat → Place → List String → Except FileError Location
  | 0 => tree.walkWith ending fun _ _ => .error .tooManyLinks
  | links + 1 => tree.walkWith ending (tree.walk ending links)

def locate (tree : FileTree) (ending : Ending) (path : String) : Except FileError Location :=
  if path.toList.contains '\x00' then .error .nulInPath
  else if path.isEmpty then .error .missing
  else if maxPath < path.utf8ByteSize then .error .nameTooLong
  else tree.walk ending maxLinks (start tree.current path) (Path.steps path)

end FileTree

end DeadCode
