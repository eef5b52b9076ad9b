import DeadCode.Toml.Basic
import DeadCode.Toml.Text

namespace DeadCode.Toml

def isWordChar (c : Char) : Bool :=
  c.isAlphanum || c == '_' || c == '+' || c == '-' || c == '.' || c == ':'

-- The digits of a number, without the single underscores that may stand between them.
def digits? (isDigit : Char → Bool) : List Char → Option (List Char)
  | [] => none
  | [c] => if isDigit c then some [c] else none
  | c :: '_' :: rest => if isDigit c then (digits? isDigit rest).map (c :: ·) else none
  | c :: rest => if isDigit c then (digits? isDigit rest).map (c :: ·) else none

def valueOf (base : Nat) (digits : List Char) : Nat :=
  digits.foldl (fun n c => base * n + (hexDigit? c).getD 0) 0

def sign (word : List Char) : Bool × List Char :=
  match word with
  | '-' :: rest => (true, rest)
  | '+' :: rest => (false, rest)
  | _ => (false, word)

-- Decimal digits of a whole number, which has no zero before them.
def wholeDigits? (word : List Char) : Option (List Char) := do
  let digits ← digits? Char.isDigit word
  if digits.head? = some '0' && digits.length ≠ 1 then none else return digits

def integer? (word : List Char) : Option Int :=
  match word with
  | '0' :: 'x' :: rest => based 16 (fun c => (hexDigit? c).isSome) rest
  | '0' :: 'o' :: rest => based 8 (fun c => '0' ≤ c && c ≤ '7') rest
  | '0' :: 'b' :: rest => based 2 (fun c => c == '0' || c == '1') rest
  | _ => do
    let (negative, rest) := sign word
    let n := valueOf 10 (← wholeDigits? rest)
    if negative then if n ≤ Nat.pow 2 63 then return -n else none
    else if n < Nat.pow 2 63 then return n else none
where
  based (base : Nat) (isDigit : Char → Bool) (rest : List Char) : Option Int := do
    let n := valueOf base (← digits? isDigit rest)
    if n < Nat.pow 2 63 then return n else none

-- Whether `significand * 10 ^ scale` is too large for a floating-point number of 64 bits.
def overflows (significand : Nat) (scale : Int) : Bool :=
  let limit := Nat.pow 2 1024 - Nat.pow 2 970
  let magnitude := (significand.repr.length : Int) + scale
  if significand = 0 || magnitude < 300 then false
  else if 400 < magnitude then true
  else if 0 ≤ scale then limit ≤ significand * Nat.pow 10 scale.toNat
  else limit * Nat.pow 10 (-scale).toNat ≤ significand

def fraction? : List Char → Option (List Char × List Char)
  | '.' :: rest => do
    let run := rest.takeWhile fun c => c.isDigit || c == '_'
    return (← digits? Char.isDigit run, rest.drop run.length)
  | rest => some ([], rest)

def exponent? : List Char → Option Int
  | [] => some 0
  | e :: rest => do
    guard (e == 'e' || e == 'E')
    let (negative, rest) := sign rest
    let n := valueOf 10 (← digits? Char.isDigit rest)
    return if negative then -n else n

def decimal? (word : List Char) : Option (Nat × Int) := do
  let run := word.takeWhile fun c => c.isDigit || c == '_'
  let whole ← wholeDigits? run
  let rest := word.drop run.length
  guard (!rest.isEmpty)
  let (decimals, rest) ← fraction? rest
  let exponent ← exponent? rest
  return (valueOf 10 (whole ++ decimals), exponent - decimals.length)

-- Whether a word is a floating-point number. One that is too large is refused, unless it is
-- negative.
def isFloat (word : List Char) : Bool :=
  let (negative, rest) := sign word
  rest == "inf".toList || rest == "nan".toList ||
    (decimal? rest).any fun (significand, scale) => negative || !overflows significand scale

def twoDigits? (limit : Nat) (a b : Char) : Option Nat := do
  guard (a.isDigit && b.isDigit)
  let n := valueOf 10 [a, b]
  if n ≤ limit then return n else none

def daysIn (year month : Nat) : Nat :=
  if month = 2 then
    if year % 4 = 0 && (year % 100 ≠ 0 || year % 400 = 0) then 29 else 28
  else if month = 4 || month = 6 || month = 9 || month = 11 then 30
  else 31

def afterDate? : List Char → Option (List Char)
  | y₁ :: y₂ :: y₃ :: y₄ :: '-' :: m₁ :: m₂ :: '-' :: d₁ :: d₂ :: rest => do
    guard ([y₁, y₂, y₃, y₄].all Char.isDigit)
    let month ← twoDigits? 12 m₁ m₂
    let day ← twoDigits? (daysIn (valueOf 10 [y₁, y₂, y₃, y₄]) month) d₁ d₂
    guard (1 ≤ month && 1 ≤ day)
    return rest
  | _ => none

def afterTime? : List Char → Option (List Char)
  | h₁ :: h₂ :: ':' :: m₁ :: m₂ :: ':' :: s₁ :: s₂ :: rest => do
    let _ ← twoDigits? 23 h₁ h₂
    let _ ← twoDigits? 59 m₁ m₂
    let _ ← twoDigits? 60 s₁ s₂
    match rest with
    | '.' :: digits =>
      let after := digits.dropWhile Char.isDigit
      guard (after.length < digits.length)
      return after
    | _ => return rest
  | _ => none

def isOffset : List Char → Bool
  | [] => true
  | [c] => c == 'Z' || c == 'z'
  | [c, h₁, h₂, ':', m₁, m₂] =>
    (c == '+' || c == '-') && (twoDigits? 23 h₁ h₂).isSome && (twoDigits? 59 m₁ m₂).isSome
  | _ => false

def isOffsetTime (word : List Char) : Bool :=
  (afterTime? word).any isOffset

def isDatetime (word : List Char) : Bool :=
  (afterTime? word).any List.isEmpty ||
  match afterDate? word with
  | some [] => true
  | some (c :: rest) => (c == 'T' || c == 't') && isOffsetTime rest
  | none => false

def afterBlankTime (s : List Char) : List Char :=
  match s with
  | ' ' :: rest =>
    let word := rest.takeWhile isWordChar
    if isOffsetTime word then rest.drop word.length else s
  | _ => s

def scalar : Parser Value := fun s =>
  let word := s.takeWhile isWordChar
  let rest := s.drop word.length
  if word == "true".toList then some (.bool true, rest)
  else if word == "false".toList then some (.bool false, rest)
  else if isDatetime word then
    let rest := if (afterDate? word).any List.isEmpty then afterBlankTime rest else rest
    some (.datetime, rest)
  else if isFloat word then some (.float, rest)
  else (integer? word).map fun n => (.integer n, rest)

end DeadCode.Toml
