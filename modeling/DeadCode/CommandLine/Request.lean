import DeadCode.CommandLine.Options

namespace DeadCode.CommandLine

inductive Argument
  | plain (text : String)
  | long (name : String) (value : Option String)
  | short (letters : List Char)
  | separator
  deriving DecidableEq, Repr

def Argument.ofString (argument : String) : Argument :=
  match argument.toList with
  | ['-', '-'] => separator
  | '-' :: '-' :: text =>
    match text.span (· != '=') with
    | (name, []) => long (String.ofList name) none
    | (name, _ :: value) => long (String.ofList name) (some (String.ofList value))
  | '-' :: letter :: letters => short (letter :: letters)
  | _ => plain argument

inductive Pending
  | none
  | value (option : ValueOption)
  | list (option : ListOption) (hasValue : Bool)
  deriving DecidableEq, Repr

inductive Request
  | run (options : Options)
  | inquiry (about : Inquiry)
  deriving DecidableEq, Repr

namespace Options

def takePath (o : Options) (path : String) : Except UsageError Options :=
  match o.path with
  | none => .ok { o with path := some path }
  | some _ => .error (.unexpected path)

def takePlain (o : Options) (pending : Pending) (text : String) :
    Except UsageError (Options × Pending) :=
  match pending with
  | .none => return (← o.takePath text, .none)
  | .value option => return (← option.assign o text, .none)
  | .list option _ => return (option.append o text, .list option true)

end Options

-- An option that still has no value when the next one begins is an error.
def Pending.close : Pending → Except UsageError Unit
  | none | list _ true => .ok ()
  | value option => .error (.missingValue option.name)
  | list option false => .error (.missingValue option.name)

namespace Request

def takeLong (o : Options) (name : String) (attached : Option String) :
    Except UsageError (Inquiry ⊕ Options × Pending) :=
  match Key.ofName? name, attached with
  | none, _ => .error (.unknown name)
  | some (.switch option), none => return .inr (← option.turnOn o, .none)
  | some (.inquiry about), none => return .inl about
  | some (.switch _), some _ | some (.inquiry _), some _ => .error (.unexpectedValue name)
  | some (.value option), none => return .inr (o, .value option)
  | some (.value option), some value => return .inr (← option.assign o value, .none)
  | some (.list option), none => return .inr (o, .list option false)
  | some (.list option), some value => return .inr (option.append o value, .none)

-- The first of the letters decides, because no letter stands for an option that would let the
-- others have a say.
def takeShort (letters : List Char) : Except UsageError Inquiry :=
  match letters.head?.bind Key.ofLetter? with
  | some (.inquiry about) => .ok about
  | _ => .error (.unknown (String.ofList letters))

def parseFrom : Options → Pending → List String → Except UsageError Request
  | o, pending, [] => do
    pending.close
    return run o
  | o, pending, argument :: rest =>
    match Argument.ofString argument with
    | .plain text => do
      let (o, pending) ← o.takePlain pending text
      parseFrom o pending rest
    | .long name attached => do
      pending.close
      match ← takeLong o name attached with
      | .inl about => return inquiry about
      | .inr (o, pending) => parseFrom o pending rest
    | .short letters => do
      pending.close
      return inquiry (← takeShort letters)
    | .separator => do
      pending.close
      return run (← rest.foldlM Options.takePath o)

def parse (arguments : List String) : Except UsageError Request :=
  parseFrom {} .none arguments

end Request

end DeadCode.CommandLine
