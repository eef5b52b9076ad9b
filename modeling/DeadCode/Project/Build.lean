import DeadCode.Project.Basic

namespace DeadCode

inductive GraphFault
  | duplicateFile (filename : String)
  | declarationInUnknownFile (name : Option String) (span : Span) (file : Nat)
  | usageInUnknownFile (kind : UsageKind) (location file : Nat)
  | unknownTarget (kind : UsageKind) (filename : String) (location target : Nat)
  | unknownContainer (kind : UsageKind) (filename : String) (location container : Nat)
  | containerElsewhere (kind : UsageKind) (filename : String) (location : Nat) (container : String)
  deriving DecidableEq, Repr

def GraphFault.message : GraphFault → String
  | duplicateFile filename => s!"file registered twice: {filename}"
  | declarationInUnknownFile name span file =>
    let shown := shownName name
    let place := span.render
    s!"declaration `{shown}` at {place} belongs to unknown file #{file}"
  | usageInUnknownFile kind location file =>
    s!"{kind.name} usage at offset {location} lives in unknown file #{file}"
  | unknownTarget kind filename location target =>
    s!"{kind.name} usage in {filename}@{location} targets unknown declaration #{target}"
  | unknownContainer kind filename location container =>
    s!"{kind.name} usage in {filename}@{location} is contained by unknown declaration #{container}"
  | containerElsewhere kind filename location container =>
    s!"{kind.name} usage in {filename}@{location} is contained by {container}, " ++
      "which lives in another file"

def GraphFault.toFailure (fault : GraphFault) : Failure :=
  .graph fault.message

namespace Project

-- A call that is refused leaves the project as it is at that point.
def addFile (filename : String) (isEntrypoint : Bool) : EStateM GraphFault Project Nat := fun p =>
  if (p.fileNamed? filename).isSome then .error (.duplicateFile filename) p
  else
    let id := p.files.size
    let p := { p with filesByName := (filename, id) :: p.filesByName }
    .ok id { p with files := p.files.push { filename, isEntrypoint } }

def addDeclaration (file : Nat) (name : Option String) (isExport : Bool) (span : Span) :
    EStateM GraphFault Project Nat := fun p =>
  if p.files.size ≤ file then .error (.declarationInUnknownFile name span file) p
  else
    let id := p.declarations.size
    let p := { p with
      files := p.files.modify file fun f => { f with declarations := f.declarations.push id } }
    .ok id { p with declarations := p.declarations.push { file, name, isExport, span } }

-- Checks that all that a usage refers to is registered, and that what it is part of is in the same file.
def checkUsage (p : Project) (u : Usage) : Except GraphFault Unit := do
  let some f := p.files[u.file]? | throw (.usageInUnknownFile u.kind u.location u.file)
  if p.declarations.size ≤ u.target then
    throw (.unknownTarget u.kind f.filename u.location u.target)
  if let some c := u.container then
    let some d := p.declarations[c]? | throw (.unknownContainer u.kind f.filename u.location c)
    if d.file ≠ u.file then
      let described := (p.describe? (.declaration c)).getD ""
      throw (.containerElsewhere u.kind f.filename u.location described)

-- Lists a usage with the declaration it is part of, or else with its file.
def attach (p : Project) (id : Nat) (u : Usage) : Project :=
  match u.container, u.kind with
  | some d, .checker => { p with
      declarations := p.declarations.modify d fun d =>
        { d with checkerUsages := d.checkerUsages.push id } }
  | some d, .grep => { p with
      declarations := p.declarations.modify d fun d => { d with grepUsages := d.grepUsages.push id } }
  | none, .checker => { p with
      files := p.files.modify u.file fun f => { f with checkerOrphans := f.checkerOrphans.push id } }
  | none, .grep => { p with
      files := p.files.modify u.file fun f => { f with grepOrphans := f.grepOrphans.push id } }

def addUsage (u : Usage) : EStateM GraphFault Project Nat := fun p =>
  match p.checkUsage u with
  | .error fault => .error fault p
  | .ok _ =>
    let id := p.usages.size
    let p := p.attach id u
    .ok id { p with usages := p.usages.push u }

end Project

end DeadCode
