namespace DeadCode.Toml

abbrev Parser (α : Type) := List Char → Option (α × List Char)

def isBlank (c : Char) : Bool :=
  c == ' ' || c == '\t'

def skipBlanks (s : List Char) : List Char :=
  s.dropWhile isBlank

def isPlain (c : Char) : Bool :=
  c == '\t' || (0x20 ≤ c.toNat && c.toNat ≠ 0x7F)

def afterNewline? : List Char → Option (List Char)
  | '\n' :: rest => some rest
  | '\r' :: '\n' :: rest => some rest
  | _ => none

def afterLine? (s : List Char) : Option (List Char) :=
  let s := match skipBlanks s with
    | '#' :: rest => rest.dropWhile isPlain
    | s => s
  if s.isEmpty then some [] else afterNewline? s

def skipLines : (fuel : Nat) → List Char → List Char
  | 0, s => s
  | fuel + 1, s =>
    match s with
    | ' ' :: rest | '\t' :: rest | '\n' :: rest | '\r' :: '\n' :: rest => skipLines fuel rest
    | '#' :: rest =>
      match afterNewline? (rest.dropWhile isPlain) with
      | some rest => skipLines fuel rest
      | none => s
    | _ => s

def skipAll (s : List Char) : List Char :=
  skipLines s.length s

def hexDigit? (c : Char) : Option Nat :=
  if c.isDigit then some (c.toNat - '0'.toNat)
  else if 'a' ≤ c && c ≤ 'f' then some (c.toNat - 'a'.toNat + 10)
  else if 'A' ≤ c && c ≤ 'F' then some (c.toNat - 'A'.toNat + 10)
  else none

def codePoint (digits : Nat) : Parser Char := fun s => do
  let values ← (s.take digits).mapM hexDigit?
  let n := values.foldl (fun n digit => 16 * n + digit) 0
  if values.length = digits && n.isValidChar then return (Char.ofNat n, s.drop digits) else none

def escape : Parser Char
  | 'b' :: rest => some ('\x08', rest)
  | 't' :: rest => some ('\t', rest)
  | 'n' :: rest => some ('\n', rest)
  | 'f' :: rest => some ('\x0c', rest)
  | 'r' :: rest => some ('\r', rest)
  | '"' :: rest => some ('"', rest)
  | '\\' :: rest => some ('\\', rest)
  | 'u' :: rest => codePoint 4 rest
  | 'U' :: rest => codePoint 8 rest
  | _ => none

-- The rest of a string between double quotes. What has been read is kept in reverse.
def basicRest (done : List Char) : (fuel : Nat) → Parser String
  | 0, _ => none
  | _ + 1, '"' :: rest => some (String.ofList done.reverse, rest)
  | fuel + 1, '\\' :: rest => do
    let (c, rest) ← escape rest
    basicRest (c :: done) fuel rest
  | fuel + 1, c :: rest => if isPlain c then basicRest (c :: done) fuel rest else none
  | _ + 1, [] => none

def literalRest : Parser String := fun s =>
  match s.dropWhile fun c => isPlain c && c != '\'' with
  | '\'' :: rest => some (String.ofList (s.takeWhile fun c => isPlain c && c != '\''), rest)
  | _ => none

-- The end of a string over several lines, at a run of its quotes: three of them close the string,
-- and up to two before these belong to it. Fewer than three belong to it and close nothing.
def closing (quote : Char) (s : List Char) : Nat × Bool × List Char :=
  let run := (s.takeWhile (· == quote)).length
  if run < 3 then (run, false, s.drop run) else (min run 5 - 3, true, s.drop (min run 5))

def multilineRest (quote : Char) (done : List Char) : (fuel : Nat) → Parser String
  | 0, _ => none
  | fuel + 1, s =>
    match s with
    | [] => none
    | '\n' :: rest | '\r' :: '\n' :: rest => multilineRest quote ('\n' :: done) fuel rest
    | c :: rest =>
      if c == quote then
        let (quotes, closed, rest) := closing quote s
        let done := List.replicate quotes quote ++ done
        if closed then some (String.ofList done.reverse, rest)
        else multilineRest quote done fuel rest
      else if c == '\\' && quote == '"' then
        match afterNewline? (skipBlanks rest) with
        | some rest => multilineRest quote done fuel (skipWhite fuel rest)
        | none => do
          let (c, rest) ← escape rest
          multilineRest quote (c :: done) fuel rest
      else if isPlain c then multilineRest quote (c :: done) fuel rest
      else none
where
  skipWhite : (fuel : Nat) → List Char → List Char
    | 0, s => s
    | fuel + 1, s =>
      match s with
      | ' ' :: rest | '\t' :: rest | '\n' :: rest | '\r' :: '\n' :: rest => skipWhite fuel rest
      | _ => s

-- A string over several lines, after its three opening quotes. A line break right there does not
-- belong to it.
def multiline (quote : Char) : Parser String := fun s =>
  let s := (afterNewline? s).getD s
  multilineRest quote [] (s.length + 1) s

def quoted : Parser String
  | '"' :: rest => basicRest [] (rest.length + 1) rest
  | '\'' :: rest => literalRest rest
  | _ => none

def string : Parser String
  | '"' :: '"' :: '"' :: rest => multiline '"' rest
  | '\'' :: '\'' :: '\'' :: rest => multiline '\'' rest
  | s => quoted s

end DeadCode.Toml
