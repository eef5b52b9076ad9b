namespace DeadCode.CommandLine

inductive LogFormat
  | json
  | compact
  deriving DecidableEq, Repr

structure Options where
  path : Option String := none
  manifest : Option String := none
  entrypoints : List String := []
  sources : List String := []
  ignore : List String := []
  followGrep : Bool := false
  keepLines : Bool := false
  json : Bool := false
  dot : Bool := false
  dotFile : Option String := none
  fix : Bool := false
  fixDryRun : Bool := false
  logFormat : Option LogFormat := none
  deriving DecidableEq, Repr

def Options.root (o : Options) : String :=
  o.path.getD "."

inductive UsageError
  | unknown (option : String)
  | repeated (option : String)
  | missingValue (option : String)
  | unexpectedValue (option : String)
  | invalidValue (option value : String)
  | unexpected (argument : String)
  deriving DecidableEq, Repr

def UsageError.message : UsageError → String
  | unknown option => s!"unknown option '{option}'"
  | repeated option => s!"the option '{option}' is given more than once"
  | missingValue option => s!"the option '{option}' needs a value"
  | unexpectedValue option => s!"the option '{option}' takes no value"
  | invalidValue option value => s!"'{value}' is no value for the option '{option}'"
  | unexpected argument => s!"unexpected argument '{argument}'"

inductive Switch
  | followGrep
  | preserveLines
  | json
  | dot
  | fix
  | fixDryRun
  deriving DecidableEq, Repr

inductive ValueOption
  | manifest
  | dotFile
  | logFormat
  deriving DecidableEq, Repr

inductive ListOption
  | entrypoint
  | sources
  | ignore
  deriving DecidableEq, Repr

inductive Inquiry
  | version
  | help
  deriving DecidableEq, Repr

namespace Switch

def name : Switch → String
  | followGrep => "follow-grep"
  | preserveLines => "preserve-lines"
  | json => "json"
  | dot => "dot"
  | fix => "fix"
  | fixDryRun => "fix-dry-run"

def isOn : Switch → Options → Bool
  | followGrep => Options.followGrep
  | preserveLines => Options.keepLines
  | json => Options.json
  | dot => Options.dot
  | fix => Options.fix
  | fixDryRun => Options.fixDryRun

def set (o : Options) : Switch → Options
  | followGrep => { o with followGrep := true }
  | preserveLines => { o with keepLines := true }
  | json => { o with json := true }
  | dot => { o with dot := true }
  | fix => { o with fix := true }
  | fixDryRun => { o with fixDryRun := true }

def turnOn (o : Options) (s : Switch) : Except UsageError Options :=
  if s.isOn o then .error (.repeated s.name) else .ok (s.set o)

end Switch

namespace ValueOption

def name : ValueOption → String
  | manifest => "manifest"
  | dotFile => "dot-file"
  | logFormat => "log-format"

def isGiven : ValueOption → Options → Bool
  | manifest, o => o.manifest.isSome
  | dotFile, o => o.dotFile.isSome
  | logFormat, o => o.logFormat.isSome

def set (o : Options) (value : String) : ValueOption → Except UsageError Options
  | manifest => .ok { o with manifest := some value }
  | dotFile => .ok { o with dotFile := some value }
  | logFormat =>
    match value with
    | "json" => .ok { o with logFormat := some .json }
    | "compact" => .ok { o with logFormat := some .compact }
    | _ => .error (.invalidValue logFormat.name value)

def assign (o : Options) (option : ValueOption) (value : String) : Except UsageError Options :=
  if option.isGiven o then .error (.repeated option.name) else option.set o value

end ValueOption

namespace ListOption

def name : ListOption → String
  | entrypoint => "entrypoint"
  | sources => "sources"
  | ignore => "ignore"

def append (o : Options) (value : String) : ListOption → Options
  | entrypoint => { o with entrypoints := o.entrypoints ++ [value] }
  | sources => { o with sources := o.sources ++ [value] }
  | ignore => { o with ignore := o.ignore ++ [value] }

end ListOption

inductive Key
  | switch (option : Switch)
  | value (option : ValueOption)
  | list (option : ListOption)
  | inquiry (about : Inquiry)
  deriving DecidableEq, Repr

namespace Key

def ofName? : String → Option Key
  | "follow-grep" => some (.switch .followGrep)
  | "preserve-lines" => some (.switch .preserveLines)
  | "json" => some (.switch .json)
  | "dot" => some (.switch .dot)
  | "fix" => some (.switch .fix)
  | "fix-dry-run" => some (.switch .fixDryRun)
  | "manifest" => some (.value .manifest)
  | "dot-file" => some (.value .dotFile)
  | "log-format" => some (.value .logFormat)
  | "entrypoint" => some (.list .entrypoint)
  | "sources" => some (.list .sources)
  | "ignore" => some (.list .ignore)
  | "version" => some (.inquiry .version)
  | "help" => some (.inquiry .help)
  | _ => none

def ofLetter? : Char → Option Key
  | 'V' => some (.inquiry .version)
  | 'h' => some (.inquiry .help)
  | _ => none

end Key

end DeadCode.CommandLine
