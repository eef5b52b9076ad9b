import DeadCode.Glob.Basic

namespace DeadCode.Glob

inductive Expression
  | byte (value : UInt8)
  | dot
  | oneOf (negated : Bool) (ranges : List (UInt8 × UInt8))
  | star (body : Expression)
  | optional (body : Expression)
  | sequence (parts : List Expression)
  | choice (branches : List Expression)
  | group (body : Expression)

def utf8 (c : Char) : List UInt8 :=
  String.utf8EncodeChar c

-- The ranges of bytes for a range of characters. Only bytes are compared: between the bytes of the
-- first and those of the last character stands the dash.
def byteRanges (first last : Char) : List (UInt8 × UInt8) :=
  let single := fun byte : UInt8 => (byte, byte)
  if first = last then (utf8 first).map single
  else
    (utf8 first).dropLast.map single ++
      List.zip (utf8 first).getLast?.toList (utf8 last).head?.toList ++
      (utf8 last).tail.map single

namespace Expression

def slash : Expression :=
  byte 47

def anything : Expression :=
  star dot

def ofParts : List Expression → Expression
  | [part] => part
  | parts => sequence parts

def ofBranches : List Expression → Expression
  | [branch] => branch
  | branches => choice branches

mutual

-- How many layers there are. A set of several ranges is a layer of its own inside the brackets.
def depth : Expression → Nat
  | byte _ | dot => 0
  | oneOf _ ranges => if ranges.length ≤ 1 then 1 else 2
  | star body | optional body | group body => body.depth + 1
  | sequence parts => depthOfAll parts + 1
  | choice branches => depthOfAll branches + 1

def depthOfAll : List Expression → Nat
  | [] => 0
  | e :: es => max e.depth (depthOfAll es)

end

def metacharacters : List Char :=
  ['\\', '.', '+', '*', '?', '(', ')', '|', '[', ']', '\x7b', '\x7d', '^', '$', '#', '&', '-', '~']

def writeByte (value : UInt8) : String :=
  if value < 128 then
    let c := Char.ofNat value.toNat
    if metacharacters.contains c then s!"\\{c}" else c.toString
  else String.ofList ['\\', 'x', Nat.digitChar (value.toNat / 16), Nat.digitChar (value.toNat % 16)]

def writeRange (first last : UInt8) : String :=
  if first = last then writeByte first else writeByte first ++ "-" ++ writeByte last

mutual

def render : Expression → String
  | byte value => writeByte value
  | dot => "."
  | oneOf negated ranges =>
    let ranges := String.join (ranges.map fun (first, last) => writeRange first last)
    "[" ++ (if negated then "^" else "") ++ ranges ++ "]"
  | star body => body.render ++ "*"
  | optional body => body.render ++ "?"
  | sequence parts => String.join (renderAll parts)
  | choice branches => "|".intercalate (renderAll branches)
  | group body => "(?:" ++ body.render ++ ")"

def renderAll : List Expression → List String
  | [] => []
  | e :: es => e.render :: renderAll es

end

end Expression

open Expression

mutual

def Token.parts : Token → List Expression
  | .literal c => (utf8 c).map byte
  | .any => [dot]
  | .many => [anything]
  | .leading => [group (choice [optional slash, sequence [anything, slash]])]
  | .inside => [slash, anything]
  | .between => [group (choice [slash, sequence [slash, anything, slash]])]
  | .range negated ranges => [oneOf negated (ranges.flatMap fun (first, last) => byteRanges first last)]
  | .choice branches =>
    let branches := branchParts branches
    if branches.isEmpty then [] else [group (ofBranches branches)]

def parts : List Token → List Expression
  | [] => []
  | token :: tokens => token.parts ++ parts tokens

def branchParts : List (List Token) → List Expression
  | [] => []
  | branch :: branches =>
    let others := branchParts branches
    if (parts branch).isEmpty then others else ofParts (parts branch) :: others

end

def expression : List Token → List Expression
  | [.leading] => [anything]
  | tokens => parts tokens

def nestingLimit : Nat := 250

-- Whether the expression of a pattern is nested too deeply. With its marks for the start and the end
-- it is always a sequence.
def isTooDeep (tokens : List Token) : Bool :=
  nestingLimit < depthOfAll (expression tokens) + 1

def expressionText (tokens : List Token) : String :=
  "(?-u)^" ++ String.join (renderAll (expression tokens)) ++ "$"

end DeadCode.Glob
