import DeadCode.Toml.Scalar

namespace DeadCode.Toml

-- How deep arrays and inline tables may be nested, and how many parts a key may have.
def nestingLimit : Nat := 79

def isBareChar (c : Char) : Bool :=
  c.isAlphanum || c == '_' || c == '-'

def keyPart : Parser String := fun s =>
  match s with
  | '"' :: _ | '\'' :: _ => quoted s
  | _ =>
    let word := s.takeWhile isBareChar
    if word.isEmpty then none else some (String.ofList word, s.drop word.length)

-- A key of at most `limit` parts with dots between them. Blanks may stand around each part.
def key : (limit : Nat) → Parser (List String)
  | 0, _ => none
  | limit + 1, s => do
    let (part, rest) ← keyPart (skipBlanks s)
    match skipBlanks rest with
    | '.' :: rest =>
      let (parts, rest) ← key limit rest
      return (part :: parts, rest)
    | rest => return ([part], rest)

def arrayRest (item : Parser Value) (done : List Value) : (fuel : Nat) → Parser (List Value)
  | 0, _ => none
  | fuel + 1, s =>
    match skipAll s with
    | ']' :: rest => some (done.reverse, rest)
    | s => do
      let (value, rest) ← item s
      match skipAll rest with
      | ',' :: rest => arrayRest item (value :: done) fuel rest
      | ']' :: rest => return ((value :: done).reverse, rest)
      | _ => none

def entry (item : Parser Value) : Parser (List String × Value) := fun s => do
  let (path, rest) ← key nestingLimit s
  match rest with
  | '=' :: rest =>
    let (value, rest) ← item (skipBlanks rest)
    return ((path, value), rest)
  | _ => none

def inlineRest (item : Parser Value) (table : Value) : (fuel : Nat) → Parser Value
  | 0, _ => none
  | fuel + 1, s => do
    let ((path, value), rest) ← entry item s
    let table ← table.addKey path value
    match skipBlanks rest with
    | ',' :: rest => inlineRest item table fuel rest
    | '\x7d' :: rest => return (table, rest)
    | _ => none

def Value.sealed : Value → Value
  | .table _ entries => .table .inline entries
  | value => value

def value (depth : Nat) : Parser Value := fun s =>
  match s, depth with
  | '"' :: _, _ | '\'' :: _, _ => do
    let (text, rest) ← string s
    return (.string text, rest)
  | '[' :: rest, depth + 1 => do
    let (items, rest) ← arrayRest (value depth) [] (rest.length + 1) rest
    return (.array items, rest)
  | '\x7b' :: rest, depth + 1 =>
    match skipBlanks rest with
    | '\x7d' :: rest => some (.table .inline [], rest)
    | rest => do
      let (table, rest) ← inlineRest (value depth) (.table .header []) (rest.length + 1) rest
      return (table.sealed, rest)
  | s, _ => scalar s

def header (closing : List Char) (s : List Char) : Option (List String × List Char) := do
  let (path, rest) ← key nestingLimit s
  let rest ← closing.isPrefixOf? rest
  return (path, ← afterLine? rest)

-- Reads the lines of a document. Entries go to the table of the last header.
def lines (root : Value) (current : List String) : (fuel : Nat) → List Char → Option Value
  | 0, _ => none
  | fuel + 1, s =>
    match skipBlanks s with
    | [] => some root
    | '\n' :: rest | '\r' :: '\n' :: rest => lines root current fuel rest
    | '#' :: rest => do lines root current fuel (← afterLine? ('#' :: rest))
    | '[' :: '[' :: rest => do
      let (path, rest) ← header [']', ']'] rest
      lines (← root.openElement path) path fuel rest
    | '[' :: rest => do
      let (path, rest) ← header [']'] rest
      lines (← root.openTable path) path fuel rest
    | s => do
      let ((path, value), rest) ← entry (value nestingLimit) s
      let root ← root.modifyAt false (·.addKey path value) current
      lines root current fuel (← afterLine? rest)

-- The table that a document describes. A byte order mark may stand before it.
def parse (text : String) : Option Value :=
  let s := match text.toList with
    | '\uFEFF' :: rest => rest
    | s => s
  lines (.table .header []) [] (s.length + 1) s

end DeadCode.Toml
