namespace DeadCode

inductive Json
  | null
  | bool (value : Bool)
  | nat (value : Nat)
  | string (value : String)
  | array (items : List Json)
  | object (members : List (String × Json))

namespace Json

def ofStrings (items : List String) : Json :=
  .array (items.map .string)

def ofOption {α : Type} (f : α → Json) : Option α → Json
  | some a => f a
  | none => null

def insert (json : Json) (key : String) (value : Json) : Json :=
  match json with
  | object members => object (members ++ [(key, value)])
  | other => other

def escapeChar (c : Char) : List Char :=
  match c with
  | '"' => ['\\', '"']
  | '\\' => ['\\', '\\']
  | '\x08' => ['\\', 'b']
  | '\x0c' => ['\\', 'f']
  | '\n' => ['\\', 'n']
  | '\r' => ['\\', 'r']
  | '\t' => ['\\', 't']
  | c =>
    if c.toNat < 0x20 then
      ['\\', 'u', '0', '0', Nat.digitChar (c.toNat / 16), Nat.digitChar (c.toNat % 16)]
    else [c]

def quote (s : String) : String :=
  "\"" ++ String.ofList (s.toList.flatMap escapeChar) ++ "\""

def newline (depth : Nat) : String :=
  "\n" ++ "".pushn ' ' (2 * depth)

def bracket (opening closing : String) (depth : Nat) (items : List String) : String :=
  if items.isEmpty then opening ++ closing
  else opening ++ newline (depth + 1) ++ (("," ++ newline (depth + 1)).intercalate items) ++
    newline depth ++ closing

mutual

-- Writes a document; further lines of it are indented to the given depth.
def write (depth : Nat) : Json → String
  | null => "null"
  | bool value => if value then "true" else "false"
  | nat value => value.repr
  | string value => quote value
  | array items => bracket "[" "]" depth (writeItems (depth + 1) items)
  | object members =>
    let written := writeMembers (depth + 1) members
    let sorted := written.mergeSort fun a b => a.1 ≤ b.1
    bracket "\x7b" "\x7d" depth (sorted.map fun (key, value) => quote key ++ ": " ++ value)

def writeItems (depth : Nat) : List Json → List String
  | [] => []
  | item :: items => write depth item :: writeItems depth items

def writeMembers (depth : Nat) : List (String × Json) → List (String × String)
  | [] => []
  | (key, value) :: members => (key, write depth value) :: writeMembers depth members

end

def render (json : Json) : String :=
  json.write 0

end Json

end DeadCode
