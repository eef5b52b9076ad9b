import DeadCode.Mark
import DeadCode.Path

namespace DeadCode

structure Settings where
  -- The directory of the project; filenames are relative to it.
  root : String
  manifest : Option String := none
  entrypoints : List String := []
  sources : List String := []
  ignore : List String := []
  followGrep : Bool := false
  keepLines : Bool := false
  dryRun : Bool := false
  deriving DecidableEq, Repr

namespace Settings

def defaultManifest : String :=
  "deadsnip-graph.json"

def manifestPath (s : Settings) : String :=
  Path.join s.root (s.manifest.getD defaultManifest)

def mode (s : Settings) : Mode :=
  .ofBool s.followGrep

def sweepFlag (s : Settings) : Flags :=
  s.mode.flag

end Settings

end DeadCode
