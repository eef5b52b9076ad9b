import DeadCode.Analysis.Basic
import DeadCode.Json.Basic
import DeadCode.Progress

namespace DeadCode

inductive Level
  | debug
  | info
  | warn
  deriving DecidableEq, Repr

def Level.name : Level → String
  | debug => "DEBUG"
  | info => "INFO"
  | warn => "WARN"

structure Event where
  level : Level
  run : Option String
  fields : List (String × Json)

structure Log where
  root : Option String

namespace Log

def shown (log : Log) (filename : String) : String :=
  Path.shown filename (log.root.getD "")

def file (log : Log) (filename : String) (isEntrypoint : Bool) : Event :=
  ⟨.debug, log.root, [("event", .string "FILE"), ("file", .string (log.shown filename)),
    ("entrypoint", .bool isEntrypoint)]⟩

def declaration (log : Log) (filename : String) (d : Declaration) : Event :=
  ⟨.debug, log.root, [("event", .string (if d.isExport then "EXPORT" else "LOCAL")),
    ("file", .string (log.shown filename)), ("name", .string d.shownName),
    ("start", .nat d.span.start)]⟩

def usage (log : Log) (filename : String) (location : Nat) (container : Option String)
    (targetFile target : String) : Event :=
  let source := match container with
    | some name => [("event", .string "USAGE"), ("from", .string name)]
    | none => [("event", .string "ORPHANED_USAGE"), ("location", .nat location)]
  ⟨.debug, log.root, source ++ [("from_file", .string (log.shown filename)),
    ("target_file", .string (log.shown targetFile)), ("target", .string target)]⟩

def fileEdited (log : Log) (filename : String) (linesRemoved : Nat) : Event :=
  ⟨.info, log.root, [("event", .string "EDIT"), ("file", .string (log.shown filename)),
    ("lines_removed", .nat linesRemoved)]⟩

def fileDeleted (log : Log) (filename : String) : Event :=
  ⟨.info, log.root, [("event", .string "DELETE"), ("file", .string (log.shown filename))]⟩

def info (log : Log) (detail : String) : Event :=
  ⟨.info, log.root, [("detail", .string detail)]⟩

def warn (log : Log) (detail : String) : Event :=
  ⟨.warn, log.root, [("detail", .string detail)]⟩

def cyclesFound (count : Nat) : Event :=
  ⟨.debug, none, [("message", .string "dead reference cycles found"), ("count", .nat count)]⟩

def declarationName (p : Project) (declaration : Nat) : String :=
  shownName (p.declarations[declaration]?.bind Declaration.name)

def fileEvents (log : Log) (p : Project) (f : File) : List Event :=
  log.file f.filename f.isEntrypoint ::
    f.declarations.toList.filterMap fun d => p.declarations[d]?.map (log.declaration f.filename)

def usageEvent (log : Log) (p : Project) (u : Usage) : Event :=
  let targetFile := (p.declarations[u.target]?.map fun d => p.filename d.file).getD ""
  log.usage (p.filename u.file) u.location (u.container.map (declarationName p)) targetFile
    (declarationName p u.target)

def registered (log : Log) (p : Project) : List Event :=
  p.files.toList.flatMap (log.fileEvents p) ++ p.usages.toList.map (log.usageEvent p)

def ingested (log : Log) (p : Project) : List Event :=
  [log.info (s!"Ingested {p.files.size} file(s), {p.declarations.size} declaration(s), " ++
    s!"{p.usages.size} usage(s)")]

def marking (log : Log) (mode : Mode) (count : Nat) : List Event :=
  [log.info s!"Marking reachable declarations (follow_grep_references={mode.followsGrep})",
    log.info s!"Marked {count} node(s)"]

def marked (log : Log) (m : MarkedProject) : List Event :=
  log.registered m.project ++ log.ingested m.project ++ log.marking .strict m.strict ++
    log.marking .fuzzy m.fuzzy

def classified (log : Log) (a : Analysis) : List Event :=
  [cyclesFound a.cycles.length,
    log.info (s!"{a.dead.length} dead declaration(s), {a.cycles.length} dead cycle(s), " ++
      s!"{a.plan.length} file(s) to change")]

def analysis (log : Log) : Except AnalysisError Analysis → List Event
  | .ok a => log.marked a.marked ++ log.classified a
  | .error (.sources _ m) => log.marked m
  | .error (.ingest stalled) => log.registered stalled.project
  | .error (.entrypoints _) | .error (.manifest _ _) => []

end Log

namespace Checkpoint

def ingestSnapshots (p : Project) : List Progress :=
  let perFile := p.files.toList.zipIdx.flatMap fun (f, i) => f.declarations.toList.map fun _ => i + 1
  let declared := perFile.zipIdx.map fun (files, i) => ⟨.ingest, files, i + 1, 0, 0⟩
  let used := (List.range p.usages.size).map fun i =>
    ⟨.ingest, p.files.size, p.declarations.size, i + 1, 0⟩
  declared ++ used

def registering (c : Checkpoint) (p : Project) : Checkpoint :=
  c.tickAll (ingestSnapshots p)

def ingesting (c : Checkpoint) (p : Project) : Checkpoint :=
  (c.registering p).flush ⟨.ingest, p.files.size, p.declarations.size, p.usages.size, 0⟩

def markingBoth (c : Checkpoint) (m : MarkedProject) : Checkpoint :=
  ((c.ingesting m.project).marking m.strict).marking m.fuzzy

def analysis (c : Checkpoint) : Except AnalysisError Analysis → Checkpoint
  | .ok a => c.markingBoth a.marked
  | .error (.sources _ m) => c.markingBoth m
  | .error (.ingest stalled) => c.registering stalled.project
  | .error (.entrypoints _) | .error (.manifest _ _) => c

end Checkpoint

end DeadCode
