import DeadCode.Path
import DeadCode.Text.Basic

namespace DeadCode

inductive OutputPathError
  | nul
  | absolute (path : String)
  | parent (path : String)
  | traversal (path : String)
  deriving DecidableEq, Repr

def OutputPathError.message : OutputPathError → String
  | nul => "Output path contains null bytes"
  | absolute path => s!"Output path must be relative, not absolute: {path}"
  | parent path => s!"Path traversal (..) not allowed in output paths: {path}"
  | traversal path => s!"Path traversal attempt detected: {path}"

namespace OutputPath

def occurs (pattern : Text) : Text → Bool
  | [] => pattern.isEmpty
  | c :: rest => pattern.isPrefixOf (c :: rest) || occurs pattern rest

def normalized (path : String) : Text :=
  path.toList.map fun c => if c = '\\' then '/' else c

def leadsUp (path : Text) : Bool :=
  occurs ['/', '.', '.', '/'] path || ['.', '.', '/'].isPrefixOf path

def check (path : String) : Except OutputPathError String :=
  if path.toList.contains '\x00' then .error .nul
  else if Path.isAbsolute path then .error (.absolute path)
  else if (Path.parts path).contains .parent then .error (.parent path)
  else if leadsUp (normalized path) then .error (.traversal path)
  else .ok path

end OutputPath

end DeadCode
