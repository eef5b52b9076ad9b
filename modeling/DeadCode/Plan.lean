import DeadCode.Glob.Match
import DeadCode.Ignore
import DeadCode.Project.Basic

namespace DeadCode

structure PruneOptions where
  flag : Flags
  -- The files that may change; all of them if there are no patterns.
  sources : GlobList := .empty
  ignore : IgnoreList := []

inductive FileAction
  | delete
  | snip (spans : List Span)
  deriving DecidableEq, Repr

structure FilePlan where
  file : Nat
  filename : String
  dead : List Nat
  action : FileAction
  deriving DecidableEq, Repr

abbrev Plan := List FilePlan

namespace Project

def isPrunable (p : Project) (options : PruneOptions) (declaration : Nat) : Bool :=
  match p.declarations[declaration]? with
  | none => false
  | some d =>
    !(p.flags.get (.declaration declaration)).isLive options.flag &&
      !options.ignore.covers (p.filename d.file) && !d.name.any options.ignore.covers

def spans (p : Project) (declarations : List Nat) : List Span :=
  declarations.filterMap fun d => p.declarations[d]?.map Declaration.span

-- What becomes of one file. A file goes as a whole if all its declarations go, unless it is an entry
-- file.
def planFile? (p : Project) (options : PruneOptions) (file : Nat) : Option FilePlan := do
  let f ← p.files[file]?
  guard (options.sources.allows f.filename)
  let dead := f.declarations.toList.filter (p.isPrunable options)
  guard (!dead.isEmpty)
  let action := if !f.isEntrypoint && dead.length == f.declarations.size then .delete
    else .snip (p.spans dead)
  return { file, filename := f.filename, dead, action }

def plan (p : Project) (options : PruneOptions) : Plan :=
  (List.range p.files.size).filterMap (p.planFile? options)

end Project

namespace Plan

def deletions (plan : Plan) : List String :=
  (plan.filter (·.action = .delete)).map FilePlan.filename

def deadCount (plan : Plan) : Nat :=
  (plan.flatMap FilePlan.dead).length

end Plan

end DeadCode
