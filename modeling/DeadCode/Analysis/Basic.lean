import DeadCode.Cycle
import DeadCode.Manifest.Decode
import DeadCode.Manifest.Ingest
import DeadCode.Plan
import DeadCode.Settings

namespace DeadCode

inductive DeadKind
  | unreferenced
  | grepOnly
  deriving DecidableEq, Repr

structure DeadItem where
  name : Option String
  file : String
  span : Span
  isExport : Bool
  kind : DeadKind
  deriving DecidableEq, Repr

structure MarkedProject where
  project : Project
  strict : Nat
  fuzzy : Nat
  deriving DecidableEq, Repr

structure Analysis where
  root : String
  marked : MarkedProject
  dead : List DeadItem
  cycles : List Cycle
  plan : Plan
  deriving DecidableEq, Repr

inductive AnalysisError
  | manifest (path : String) (failure : Failure)
  | entrypoints (failure : Failure)
  | ingest (stalled : Manifest.Stalled)
  | sources (failure : Failure) (marked : MarkedProject)

namespace AnalysisError

def failure : AnalysisError → Failure
  | manifest _ failure | entrypoints failure | sources failure _ => failure
  | ingest stalled => stalled.failure

def message (e : AnalysisError) : String :=
  let context := match e with
    | manifest path _ => s!"Failed to load manifest {path}"
    | entrypoints _ => "Invalid entrypoint glob"
    | ingest _ => "Failed to build reference graph"
    | sources _ _ => "Invalid sources glob"
  e.failure.inContext context

end AnalysisError

def MarkedProject.ofProject (p : Project) : MarkedProject :=
  let (p, strict) := p.mark Mode.strict.flag .strict
  let (p, fuzzy) := p.mark Mode.fuzzy.flag .fuzzy
  ⟨p, strict, fuzzy⟩

namespace Project

def deadItem? (p : Project) (options : PruneOptions) (declaration : Nat) : Option DeadItem := do
  let d ← p.declarations[declaration]?
  guard (p.isPrunable options declaration)
  let kind := if (p.flags.get (.declaration declaration)).contains .reachedByGrep then .grepOnly
    else .unreferenced
  return ⟨d.name, p.filename d.file, d.span, d.isExport, kind⟩

def deadItems (p : Project) (options : PruneOptions) : List DeadItem :=
  (List.range p.declarations.size).filterMap (p.deadItem? options)

end Project

namespace Analysis

def ofMarked (s : Settings) (sources : GlobList) (marked : MarkedProject)
    (components : Digraph Nat → List (List Nat) := Digraph.components) : Analysis :=
  let options : PruneOptions := ⟨s.sweepFlag, sources, .ofStrings s.ignore⟩
  let p := marked.project
  { root := s.root
    marked
    dead := p.deadItems options
    cycles := Cycle.find p (p.isPrunable options) s.mode components
    plan := p.plan options }

def project (a : Analysis) : Project :=
  a.marked.project

def total (a : Analysis) : Nat :=
  a.project.declarations.size

def hasDead (a : Analysis) : Bool :=
  !a.dead.isEmpty

end Analysis

def Settings.analyze (s : Settings) (m : Manifest)
    (components : Digraph Nat → List (List Nat) := Digraph.components) :
    Except AnalysisError Analysis := do
  let entrypoints ← (GlobList.ofStrings s.entrypoints).mapError .entrypoints
  let project ← (m.toProject entrypoints.covers).mapError .ingest
  let marked := MarkedProject.ofProject project
  let sources ← (GlobList.ofStrings s.sources).mapError (.sources · marked)
  return .ofMarked s sources marked components

def Settings.analyzeIn (s : Settings) (tree : FileTree) : Except AnalysisError Analysis := do
  s.analyze (← (Manifest.load tree s.manifestPath).mapError (.manifest s.manifestPath))

end DeadCode
