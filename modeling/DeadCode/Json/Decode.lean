import DeadCode.Json.Fragment
import DeadCode.Span

namespace DeadCode.Json

inductive DecodeError
  | unexpected
  | invalidSpan (error : SpanError)
  | missingField (name : String)
  | duplicateField (name : String)
  | unknownVariant (name : String) (expected : List String)
  deriving DecidableEq, Repr

def DecodeError.message? : DecodeError → Option String
  | unexpected => none
  | invalidSpan error => some error.toFailure.message
  | missingField name => some s!"missing field `{name}`"
  | duplicateField name => some s!"duplicate field `{name}`"
  | unknownVariant name expected =>
    let choices := " or ".intercalate (expected.map fun e => s!"`{e}`")
    some s!"unknown variant `{name}`, expected {choices}"

abbrev Decoder (α : Type) := Fragment → Except DecodeError α

namespace Decoder

variable {α σ : Type}

def bool : Decoder Bool
  | .bool value => .ok value
  | _ => .error .unexpected

def nat : Decoder Nat
  | .number (some value) => .ok value
  | _ => .error .unexpected

def string : Decoder String
  | .string (some value) => .ok value
  | _ => .error .unexpected

def optional (decode : Decoder α) : Decoder (Option α)
  | .null => .ok none
  | fragment => some <$> decode fragment

def list (decode : Decoder α) : Decoder (List α)
  | .array items closed => do
    let values ← items.mapM decode
    if closed then return values else throw .unexpected
  | _ => .error .unexpected

def variant (choices : List (String × α)) : Decoder α
  | .string (some name) => find name
  | .object ((some name, value) :: others) closed => do
    let choice ← find name
    match value with
    | .null => if others.isEmpty && closed then return choice else throw .unexpected
    | _ => throw .unexpected
  | _ => .error .unexpected
where
  find (name : String) : Except DecodeError α :=
    match choices.lookup name with
    | some choice => .ok choice
    | none => .error (.unknownVariant name (choices.map Prod.fst))

structure Field (σ : Type) where
  name : String
  decode : Fragment → σ → Except DecodeError σ

def Field.named (name : String) (decode : Decoder α) (set : α → σ → σ) : Field σ :=
  ⟨name, fun fragment draft => (set · draft) <$> decode fragment⟩

-- Goes through the members of an object. A member that is no field is passed over.
def members (fields : List (Field σ)) (seen : List String) (draft : σ) :
    List (Option String × Fragment) → Except DecodeError σ
  | [] => .ok draft
  | (none, _) :: _ => .error .unexpected
  | (some key, value) :: rest =>
    match fields.find? (·.name == key) with
    | none => if value.isWhole then members fields seen draft rest else .error .unexpected
    | some field =>
      if seen.contains key then .error (.duplicateField key)
      else do
        let draft ← field.decode value draft
        members fields (key :: seen) draft rest

def items (draft : σ) : List (Field σ) → List Fragment → Except DecodeError σ
  | [], [] => .ok draft
  | [], _ :: _ => .error .unexpected
  | _ :: _, [] => .ok draft
  | field :: fields, value :: rest => do
    let draft ← field.decode value draft
    items draft fields rest

-- A record. Once its fields have been read, `finish` puts it together; it is told which problem a
-- field that is missing stands for.
def record (fields : List (Field σ)) (draft : σ)
    (finish : (String → DecodeError) → σ → Except DecodeError α) : Decoder α
  | .object list closed => do
    let draft ← members fields [] draft list
    if closed then finish .missingField draft else throw .unexpected
  | .array list closed => do
    let draft ← items draft fields list
    if closed then finish (fun _ => .unexpected) draft else throw .unexpected
  | _ => .error .unexpected

def require (missing : String → DecodeError) (name : String) : Option α → Except DecodeError α
  | some value => .ok value
  | none => .error (missing name)

def run (decode : Decoder α) (text : String) : Except DecodeError α := do
  let (fragment, clean) := read text
  let value ← decode fragment
  if clean then return value else throw .unexpected

end Decoder

end DeadCode.Json
