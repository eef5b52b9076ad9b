namespace DeadCode.Json

inductive Token
  | openArray
  | closeArray
  | openObject
  | closeObject
  | comma
  | colon
  | null
  | bool (value : Bool)
  -- A number; its value is kept if it is a natural number of at most 64 bits.
  | number (value : Option Nat)
  -- A string; it has no value if half of a surrogate pair is missing in it.
  | string (value : Option String)
  deriving DecidableEq, Repr

inductive NumberPart
  | minus
  | zero
  | digits
  | point
  | fraction
  | exponent
  | exponentSign
  | exponentDigits
  deriving DecidableEq, Repr

def NumberPart.isComplete : NumberPart → Bool
  | zero | digits | fraction | exponentDigits => true
  | minus | point | exponent | exponentSign => false

def NumberPart.next? (part : NumberPart) (c : Char) : Option NumberPart :=
  match part with
  | minus => if c == '0' then some zero else if c.isDigit then some digits else none
  | zero | digits =>
    if c == '.' then some point
    else if c == 'e' || c == 'E' then some exponent
    else if c.isDigit && part = digits then some digits
    else none
  | point => if c.isDigit then some fraction else none
  | fraction =>
    if c.isDigit then some fraction
    else if c == 'e' || c == 'E' then some exponent
    else none
  | exponent =>
    if c.isDigit then some exponentDigits
    else if c == '+' || c == '-' then some exponentSign
    else none
  | exponentSign | exponentDigits => if c.isDigit then some exponentDigits else none

inductive Escape
  | none
  | backslash
  | unicode (digits value : Nat)
  deriving DecidableEq, Repr

structure StringPart where
  -- In reverse; absent once half of a surrogate pair is missing.
  chars : Option (List Char) := some []
  high : Option Nat := .none
  escape : Escape := .none
  deriving DecidableEq, Repr

namespace StringPart

-- Adds a character. A first half of a surrogate pair before it has no second half.
def push (s : StringPart) (c : Char) : StringPart :=
  { chars := if s.high.isSome then none else s.chars.map (c :: ·) }

def pushUnit (s : StringPart) (unit : Nat) : StringPart :=
  if 0xD800 ≤ unit && unit < 0xDC00 then
    { chars := if s.high.isSome then none else s.chars, high := some unit }
  else if 0xDC00 ≤ unit && unit < 0xE000 then
    match s.high with
    | some high =>
      { chars := s.chars.map
          (Char.ofNat (0x10000 + (high - 0xD800) * 0x400 + (unit - 0xDC00)) :: ·) }
    | .none => { chars := none }
  else s.push (Char.ofNat unit)

def value (s : StringPart) : Option String :=
  if s.high.isSome then none else s.chars.map fun chars => String.ofList chars.reverse

end StringPart

def hexDigit? (c : Char) : Option Nat :=
  if '0' ≤ c && c ≤ '9' then some (c.toNat - '0'.toNat)
  else if 'a' ≤ c && c ≤ 'f' then some (c.toNat - 'a'.toNat + 10)
  else if 'A' ≤ c && c ≤ 'F' then some (c.toNat - 'A'.toNat + 10)
  else none

def unescape? : Char → Option Char
  | '"' => some '"'
  | '\\' => some '\\'
  | '/' => some '/'
  | 'b' => some '\x08'
  | 'f' => some '\x0c'
  | 'n' => some '\n'
  | 'r' => some '\r'
  | 't' => some '\t'
  | _ => none

inductive LexMode
  | between
  -- A number: its last part, whether it is a natural number so far, and then its value.
  | number (part : NumberPart) (natural : Bool) (value : Nat)
  | string (part : StringPart)
  -- A word, of which these characters are still to come.
  | word (rest : List Char) (token : Token)
  -- Something is wrong; nothing more is read.
  | failed
  deriving DecidableEq, Repr

structure Lexer where
  tokens : List Token := []
  mode : LexMode := .between
  deriving DecidableEq, Repr

namespace Lexer

def emit (lexer : Lexer) (token : Token) : Lexer :=
  ⟨token :: lexer.tokens, .between⟩

def fail (lexer : Lexer) : Lexer :=
  { lexer with mode := .failed }

def numberToken (natural : Bool) (value : Nat) : Token :=
  .number (if natural && value < Nat.pow 2 64 then some value else none)

def begin (lexer : Lexer) (c : Char) : Lexer :=
  match c with
  | ' ' | '\t' | '\n' | '\r' => { lexer with mode := .between }
  | '[' => lexer.emit .openArray
  | ']' => lexer.emit .closeArray
  | '\x7b' => lexer.emit .openObject
  | '\x7d' => lexer.emit .closeObject
  | ',' => lexer.emit .comma
  | ':' => lexer.emit .colon
  | '"' => { lexer with mode := .string {} }
  | 'n' => { lexer with mode := .word ['u', 'l', 'l'] .null }
  | 't' => { lexer with mode := .word ['r', 'u', 'e'] (.bool true) }
  | 'f' => { lexer with mode := .word ['a', 'l', 's', 'e'] (.bool false) }
  | '-' => { lexer with mode := .number .minus false 0 }
  | '0' => { lexer with mode := .number .zero true 0 }
  | c =>
    if c.isDigit then { lexer with mode := .number .digits true (c.toNat - '0'.toNat) }
    else lexer.fail

def stringChar (lexer : Lexer) (s : StringPart) (c : Char) : Lexer :=
  match s.escape with
  | .none =>
    if c == '"' then lexer.emit (.string s.value)
    else if c == '\\' then { lexer with mode := .string { s with escape := .backslash } }
    else if c.toNat < 0x20 then lexer.fail
    else { lexer with mode := .string (s.push c) }
  | .backslash =>
    if c == 'u' then { lexer with mode := .string { s with escape := .unicode 0 0 } }
    else match unescape? c with
      | some c => { lexer with mode := .string (s.push c) }
      | none => lexer.fail
  | .unicode digits value =>
    match hexDigit? c with
    | none => lexer.fail
    | some digit =>
      let value := 16 * value + digit
      if digits = 3 then { lexer with mode := .string (s.pushUnit value) }
      else { lexer with mode := .string { s with escape := .unicode (digits + 1) value } }

def step (lexer : Lexer) (c : Char) : Lexer :=
  match lexer.mode with
  | .between => lexer.begin c
  | .number part natural value =>
    match part.next? c with
    | some next =>
      let natural := natural && (next = .zero || next = .digits)
      { lexer with mode := .number next natural (10 * value + (c.toNat - '0'.toNat)) }
    | none =>
      if part.isComplete && !(part = .zero && c.isDigit) then
        (lexer.emit (numberToken natural value)).begin c
      else lexer.fail
  | .string s => lexer.stringChar s c
  | .word (expected :: rest) token =>
    if c ≠ expected then lexer.fail
    else if rest.isEmpty then lexer.emit token
    else { lexer with mode := .word rest token }
  | .word [] _ | .failed => lexer.fail

def finish (lexer : Lexer) : List Token × Bool :=
  match lexer.mode with
  | .between => (lexer.tokens.reverse, true)
  | .number part natural value =>
    if part.isComplete then ((numberToken natural value :: lexer.tokens).reverse, true)
    else (lexer.tokens.reverse, false)
  | .string _ | .word _ _ | .failed => (lexer.tokens.reverse, false)

end Lexer

def tokenize (text : String) : List Token × Bool :=
  (text.toList.foldl Lexer.step {}).finish

end DeadCode.Json
