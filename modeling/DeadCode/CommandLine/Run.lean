import DeadCode.CommandLine.OutputPath
import DeadCode.CommandLine.Request
import DeadCode.Config
import DeadCode.Dot
import DeadCode.Report.Basic
import DeadCode.Report.Fix

namespace DeadCode.CommandLine

structure Outcome where
  exitCode : Nat
  output : String
  messages : String
  tree : FileTree

inductive RunError
  | notADirectory (path : String)
  | outputPath (error : OutputPathError)
  | config (root : String) (failure : Failure)
  | analysis (error : AnalysisError)

def RunError.message : RunError → String
  | notADirectory path => s!"Not a directory: {path}"
  | outputPath error => s!"Invalid output path: {error.message}"
  | config root failure => failure.inContext s!"Failed to load config in {root}"
  | analysis error => error.message

structure Findings where
  settings : Settings
  json : Bool
  analysis : Analysis

namespace Options

def settings (o : Options) (config : Config) : Settings :=
  let s := config.settings o.root
  { s with
    manifest := o.manifest <|> s.manifest
    entrypoints := s.entrypoints ++ o.entrypoints
    sources := s.sources ++ o.sources
    ignore := s.ignore ++ o.ignore
    followGrep := o.followGrep || s.followGrep
    keepLines := o.keepLines || s.keepLines
    dryRun := o.fixDryRun }

def fixes (o : Options) : Bool :=
  o.fix || o.fixDryRun

def findings (o : Options) (tree : FileTree) : Except RunError Findings := do
  if !tree.isDirectory o.root then throw (.notADirectory o.root)
  if let some path := o.dotFile then
    let _ ← (OutputPath.check path).mapError .outputPath
  let config := ((← (Config.load? tree o.root).mapError (.config o.root)).getD {})
  let settings := o.settings config
  let analysis ← (settings.analyzeIn tree).mapError .analysis
  return ⟨settings, o.json || config.isJson, analysis⟩

def graph? (o : Options) (f : Findings) : Option String :=
  if o.dot || o.dotFile.isSome then some (Dot.render f.analysis.project f.settings.sweepFlag)
  else none

-- Writes the graph to its file. That it cannot be written is only worth a warning.
def saveGraph (o : Options) (f : Findings) (tree : FileTree) : FileTree × String :=
  match o.dotFile, o.graph? f with
  | some path, some graph =>
    match tree.write path graph with
    | .ok tree => (tree, "")
    | .error e => (tree, s!"[WARN] DOT write failed to {path}: {e.message}\n")
  | _, _ => (tree, "")

def printedGraph? (o : Options) (f : Findings) : Option String :=
  if o.dotFile.isSome then none else o.graph? f

def plannedPaths (o : Options) (tree : FileTree) : List String :=
  match o.findings tree with
  | .ok f => if o.fixes then f.analysis.plan.map fun file => Path.join o.root file.filename else []
  | .error _ => []

-- The paths that a run looks at, as far as the tree tells: the configuration names the manifest, and
-- the manifest names the files.
def paths (o : Options) (tree : FileTree) : List String :=
  let config := ((Config.load? tree o.root).toOption.join).getD {}
  [o.root, Path.join o.root Config.filename, (o.settings config).manifestPath] ++
    o.dotFile.toList ++ o.plannedPaths tree

end Options

namespace Findings

def document (f : Findings) (time : String) (fix : Option Fix) (graph : Option String) : Json :=
  let report := Report.stamped f.analysis time
  let report := fix.elim report fun fix => report.insert "fix" fix.toJson
  graph.elim report fun graph => report.insert "dot" (.string graph)

def text (f : Findings) (fix : Option Fix) (graph : Option String) : String :=
  Report.plain f.analysis ++ fix.elim "" Fix.summary ++ graph.elim "" (· ++ "\n")

def output (f : Findings) (time : String) (fix : Option Fix) (graph : Option String) : String :=
  if f.json then (f.document time fix graph).render ++ "\n" else f.text fix graph

def complaints (f : Findings) (fix : Option Fix) : String :=
  if f.json then "" else fix.elim "" Fix.complaints

-- Errors of a fix count more than dead code, and dead code more than none.
def exitCode (f : Findings) (fix : Option Fix) : Nat :=
  if fix.any Fix.hasErrors then 2 else if f.analysis.hasDead then 1 else 0

end Findings

def Options.run (o : Options) (tree : FileTree) (time : String) : Outcome :=
  match o.findings tree with
  | .error e => ⟨2, "", s!"[ERROR] {e.message}\n", tree⟩
  | .ok f =>
    let fixed := if o.fixes then some (f.analysis.plan.fix f.settings ⟨some o.root⟩ tree) else none
    let fix := fixed.map FixState.fix
    let (tree, warning) := o.saveGraph f (fixed.elim tree FixState.tree)
    { exitCode := f.exitCode fix
      output := f.output time fix (o.printedGraph? f)
      messages := warning ++ f.complaints fix
      tree }

def version : String :=
  "deadsnip-cli 0.1.0\n"

def usage : String :=
  "Usage: deadsnip [OPTIONS] [PATH]\n"

def help : String :=
  "Mark-and-sweep dead code eliminator\n\n" ++ usage

def Request.paths (request : Request) (tree : FileTree) : List String :=
  match request with
  | .run options => options.paths tree
  | .inquiry _ => []

def Request.answer (request : Request) (tree : FileTree) (time : String) : Outcome :=
  match request with
  | .run options => options.run tree time
  | .inquiry .version => ⟨0, version, "", tree⟩
  | .inquiry .help => ⟨0, help, "", tree⟩

def paths (arguments : List String) (tree : FileTree) : List String :=
  match Request.parse arguments with
  | .error _ => []
  | .ok request => request.paths tree

-- Answers the arguments at the given time. Arguments that make no sense are an error.
def respond (arguments : List String) (tree : FileTree) (time : String) : Outcome :=
  match Request.parse arguments with
  | .error error => ⟨2, "", s!"error: {error.message}\n\n{usage}", tree⟩
  | .ok request => request.answer tree time

end DeadCode.CommandLine
