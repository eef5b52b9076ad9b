import DeadCode.Edit.Source
import DeadCode.FileTree.Access
import DeadCode.Plan

namespace DeadCode

inductive FileChange
  | overwrite (text : String)
  | delete
  deriving DecidableEq, Repr

structure FileEdit where
  filename : String
  path : String
  change : FileChange
  linesBefore : Nat
  linesAfter : Nat
  deriving DecidableEq, Repr

def FileEdit.linesRemoved (edit : FileEdit) : Nat :=
  edit.linesBefore - edit.linesAfter

def FileAction.change (action : FileAction) (source : Text) (keepLines : Bool) :
    Except Failure (FileChange × Nat) :=
  match action with
  | delete => return (.delete, 0)
  | snip spans => do
    let text ← (source.edited spans keepLines).mapError CutError.toFailure
    return (.overwrite (String.ofList text), text.lineCount)

-- The edit of a planned file. Even a file that is to be deleted has to be a readable text.
def FilePlan.edit (file : FilePlan) (tree : FileTree) (root : String) (keepLines : Bool) :
    Except Failure FileEdit := do
  let path := Path.join root file.filename
  let source : Text := (← tree.load path).toList
  let (change, linesAfter) ← file.action.change source keepLines
  return { filename := file.filename, path, change, linesBefore := source.lineCount, linesAfter }

-- The edits of a plan; a file that cannot be edited does not affect the others.
def Plan.edits (plan : Plan) (tree : FileTree) (root : String) (keepLines : Bool) :
    List (Except Failure FileEdit) :=
  plan.map (·.edit tree root keepLines)

end DeadCode
