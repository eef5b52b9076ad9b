import DeadCode.Glob.Basic

namespace DeadCode.Glob

-- The state of reading. Tokens and branches are collected in reverse.
structure Parser where
  tokens : List Token := []
  -- For each open brace, innermost first: its finished branches, and the tokens before it.
  groups : List (List (List Token) × List Token) := []

namespace Parser

def push (p : Parser) (token : Token) : Parser :=
  { p with tokens := token :: p.tokens }

def openGroup (p : Parser) : Parser :=
  ⟨[], ([], p.tokens) :: p.groups⟩

def comma (p : Parser) : Parser :=
  match p.groups with
  | [] => p.push (.literal ',')
  | (branches, outer) :: groups => ⟨[], (p.tokens.reverse :: branches, outer) :: groups⟩

def closeGroup (p : Parser) : Except Fault Parser :=
  match p.groups with
  | [] => .error .unopenedChoice
  | (branches, outer) :: groups =>
    .ok ⟨.choice (p.tokens.reverse :: branches).reverse :: outer, groups⟩

def twoStars (p : Parser) : Parser :=
  (p.push .many).push .many

-- Whether `**` after a character can stand for whole directories. Inside of braces this holds after
-- a comma or an opening brace too, be they escaped.
def bounds (p : Parser) (before : Option Char) : Bool :=
  before == some '/' || (!p.groups.isEmpty && (before == some ',' || before == some '\x7b'))

-- `**`, depending on the character before it and the text after it. Also tells whether a slash
-- after it belongs to it. What stands for whole directories takes the place of the token before it.
def doubleStar (p : Parser) (before : Option Char) (rest : List Char) : Parser × Bool :=
  let next := rest.head?
  if p.tokens.isEmpty then
    if next.all (· == '/') then (p.push .leading, next.isSome) else (p.twoStars, false)
  else if !p.bounds before then (p.twoStars, false)
  else
    let atEnd := next.isNone || (!p.groups.isEmpty && (next == some ',' || next == some '\x7d'))
    if atEnd || next == some '/' then
      let token := match p.tokens.head? with
        | some .leading => .leading
        | some .inside => .inside
        | _ => if atEnd then .inside else .between
      ({ p with tokens := token :: p.tokens.drop 1 }, !atEnd)
    else (p.twoStars, false)

end Parser

-- The inside of a character class, up to its closing bracket, with the ranges read so far in
-- reverse. A dash opens a range from the character before it, unless it stands first or last.
def readClass (ranges : List (Char × Char)) (inRange : Bool) : (rest : List Char) →
    Except Fault (List (Char × Char) × { r : List Char // r.length < rest.length })
  | [] => .error .unclosedClass
  | c :: rest =>
    let shorter := fun (ranges, r) => (ranges, ⟨r.val, Nat.lt_succ_of_lt r.property⟩)
    match ranges with
    | [] => shorter <$> readClass [(c, c)] false rest
    | (first, last) :: others =>
      if c == ']' then
        .ok ((if inRange then ('-', '-') :: ranges else ranges).reverse, ⟨rest, Nat.lt_succ_self _⟩)
      else if inRange then
        if c < first then .error (.invalidRange first c)
        else shorter <$> readClass ((first, c) :: others) false rest
      else if c == '-' then shorter <$> readClass ((first, last) :: others) true rest
      else shorter <$> readClass ((c, c) :: ranges) false rest

def read (p : Parser) (before : Option Char) (rest : List Char) : Except Fault Parser :=
  match rest with
  | [] => if p.groups.isEmpty then .ok p else .error .unclosedChoice
  | '?' :: rest => read (p.push .any) (some '?') rest
  | '*' :: '*' :: rest =>
    match p.doubleStar before rest with
    | (p, true) => read p (some '/') (rest.drop 1)
    | (p, false) => read p (some '*') rest
  | '*' :: rest => read (p.push .many) (some '*') rest
  | '[' :: '!' :: rest | '[' :: '^' :: rest => do
    let (ranges, ⟨rest, _⟩) ← readClass [] false rest
    read (p.push (.range true ranges)) (some ']') rest
  | '[' :: rest => do
    let (ranges, ⟨rest, _⟩) ← readClass [] false rest
    read (p.push (.range false ranges)) (some ']') rest
  | '\x7b' :: rest => read p.openGroup (some '\x7b') rest
  | '\x7d' :: rest => do read (← p.closeGroup) (some '\x7d') rest
  | ',' :: rest => read p.comma (some ',') rest
  | ['\\'] => .error .danglingEscape
  | '\\' :: c :: rest => read (p.push (.literal c)) (some c) rest
  | c :: rest => read (p.push (.literal c)) (some c) rest
termination_by rest.length
decreasing_by all_goals simp_wf; try omega

def parse (pattern : String) : Except Fault (List Token) := do
  return (← read {} none pattern.toList).tokens.reverse

end DeadCode.Glob
