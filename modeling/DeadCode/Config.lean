import DeadCode.FileTree.Access
import DeadCode.Settings
import DeadCode.Toml.Parser

namespace DeadCode

structure OutputConfig where
  format : Option String := none
  deriving DecidableEq, Repr

def OutputConfig.isJson (o : OutputConfig) : Bool :=
  o.format == some "json"

structure Config where
  manifest : Option String := none
  entrypoints : Option (List String) := none
  sources : Option (List String) := none
  ignore : Option (List String) := none
  followGrep : Option Bool := none
  keepLines : Option Bool := none
  output : Option OutputConfig := none
  deriving DecidableEq, Repr

namespace Config

open Toml

def filename : String :=
  "deadsnip.toml"

def string? : Value → Option String
  | .string value => some value
  | _ => none

def bool? : Value → Option Bool
  | .bool value => some value
  | _ => none

def strings? : Value → Option (List String)
  | .array items => items.mapM string?
  | .tables elements => elements.mapM string?
  | _ => none

def optional {α : Type} (key : String) (decode : Value → Option α) (v : Value) :
    Option (Option α) :=
  match v.lookup? key with
  | none => some none
  | some value => some <$> decode value

-- The output settings. Besides a table, a list is taken for its fields in their order, and a date
-- for a table without any of them.
def output? : Value → Option OutputConfig
  | .table origin entries => OutputConfig.mk <$> optional "format" string? (.table origin entries)
  | .array (format :: _) => (OutputConfig.mk ∘ some) <$> string? format
  | .datetime => some {}
  | _ => none

def ofToml? (v : Value) : Option Config := do
  return {
    manifest := ← optional "manifest" string? v
    entrypoints := ← optional "entrypoints" strings? v
    sources := ← optional "sources" strings? v
    ignore := ← optional "ignore" strings? v
    followGrep := ← optional "follow_grep_references" bool? v
    keepLines := ← optional "preserve_line_numbers" bool? v
    output := ← optional "output" output? v }

def formats : List String :=
  ["plain", "json"]

def parse (path text : String) : Except Failure Config := do
  let some config := (Toml.parse text).bind ofToml?
    | throw (.config path s!"invalid {filename}")
  if let some format := config.output.bind OutputConfig.format then
    if !formats.contains format then
      throw (.config path s!"unknown output format `{format}` (expected plain or json)")
  return config

def load? (tree : FileTree) (root : String) : Except Failure (Option Config) := do
  let path := Path.join root filename
  if tree.contains path then some <$> parse path (← tree.load path) else return none

def isJson (c : Config) : Bool :=
  c.output.any OutputConfig.isJson

def settings (c : Config) (root : String) : Settings where
  root := root
  manifest := c.manifest
  entrypoints := c.entrypoints.getD []
  sources := c.sources.getD []
  ignore := c.ignore.getD []
  followGrep := c.followGrep.getD false
  keepLines := c.keepLines.getD false

end Config

end DeadCode
