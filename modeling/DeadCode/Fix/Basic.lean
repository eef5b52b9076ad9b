import DeadCode.Analysis.Journal
import DeadCode.Fix.Edit

namespace DeadCode

structure Fix where
  edited : List String := []
  removed : List String := []
  linesRemoved : Nat := 0
  dryRun : Bool
  errors : List String := []
  deriving DecidableEq, Repr

namespace Fix

def hasErrors (fix : Fix) : Bool :=
  !fix.errors.isEmpty

def mode (fix : Fix) : String :=
  if fix.dryRun then "DRY-RUN" else "FIX"

def recordEdit (fix : Fix) (edit : FileEdit) : Fix :=
  { fix with
    edited := fix.edited ++ [edit.filename]
    linesRemoved := fix.linesRemoved + edit.linesRemoved }

def recordRemoval (fix : Fix) (edit : FileEdit) : Fix :=
  { fix with
    removed := fix.removed ++ [edit.filename]
    linesRemoved := fix.linesRemoved + edit.linesRemoved }

def recordError (fix : Fix) (error : String) : Fix :=
  { fix with errors := fix.errors ++ [error] }

def toJson (fix : Fix) : Json :=
  .object [("files_edited", .ofStrings fix.edited), ("files_removed", .ofStrings fix.removed),
    ("lines_removed", .nat fix.linesRemoved), ("dry_run", .bool fix.dryRun),
    ("errors", .ofStrings fix.errors)]

end Fix

structure FixState where
  tree : FileTree
  fix : Fix
  events : List Event := []

namespace FixState

def logged (s : FixState) (events : List Event) : FixState :=
  { s with events := s.events ++ events }

def failed (s : FixState) (error : String) : FixState :=
  { s with fix := s.fix.recordError error }

def overwrite (log : Log) (s : FixState) (edit : FileEdit) (text : String) : FixState :=
  match s.tree.save edit.path text s.fix.dryRun with
  | .ok tree => { s with tree, fix := s.fix.recordEdit edit }
    |>.logged [log.fileEdited edit.filename edit.linesRemoved]
  | .error failure => s.failed s!"write {edit.filename}: {failure.message}"

def delete (log : Log) (s : FixState) (edit : FileEdit) : FixState :=
  match s.tree.remove edit.path s.fix.dryRun with
  | .ok (.removed tree) => { s with tree, fix := s.fix.recordRemoval edit }
    |>.logged [log.fileDeleted edit.filename]
  | .ok .absent => s
  | .ok (.refused warning) => s.logged [log.warn warning]
  | .error failure => s.failed s!"remove {edit.filename}: {failure.message}"

def step (log : Log) (s : FixState) : Except Failure FileEdit → FixState
  | .ok edit =>
    match edit.change with
    | .overwrite text => s.overwrite log edit text
    | .delete => s.delete log edit
  | .error failure => s.failed failure.message

end FixState

def Plan.fix (plan : Plan) (s : Settings) (log : Log) (tree : FileTree) : FixState :=
  let start : FixState := { tree, fix := { dryRun := s.dryRun } }
  if plan.isEmpty then start.logged [log.info "No dead declarations to remove"]
  else
    let started := start.logged [log.info s!"[{start.fix.mode}] Processing {plan.length} file(s)"]
    let done := (plan.edits tree s.root s.keepLines).foldl (·.step log) started
    done.logged (done.fix.errors.map log.warn)

end DeadCode
