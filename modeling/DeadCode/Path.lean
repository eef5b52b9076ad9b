namespace DeadCode.Path

inductive Part
  | root
  | here
  | parent
  | name (text : List Char)
  deriving DecidableEq, Repr

def isAbsolute (path : String) : Bool :=
  path.toList.head? == some '/'

def join (base path : String) : String :=
  if isAbsolute path then path
  else if base.isEmpty || base.toList.getLast? == some '/' then base ++ path
  else base ++ "/" ++ path

def segments : List Char → List (List Char)
  | [] => [[]]
  | c :: rest =>
    match c, segments rest with
    | '/', parts => [] :: parts
    | c, first :: parts => (c :: first) :: parts
    | c, [] => [[c]]

def isIdle (segment : List Char) : Bool :=
  segment.isEmpty || segment == ['.']

def Part.ofSegment (segment : List Char) : Part :=
  if segment == ['.', '.'] then parent else name segment

def parts (path : String) : List Part :=
  let rest := ((segments path.toList).filter (!isIdle ·)).map Part.ofSegment
  match segments path.toList with
  | [] :: _ :: _ => .root :: rest
  | ['.'] :: _ => .here :: rest
  | _ => rest

def splitSegment (path : List Char) : List Char × List Char :=
  (path.takeWhile (· != '/'), (path.dropWhile (· != '/')).drop 1)

def skipIdle (path : List Char) : List Char :=
  match path with
  | [] => []
  | c :: rest =>
    if isIdle (splitSegment (c :: rest)).1 then skipIdle (splitSegment (c :: rest)).2
    else c :: rest
termination_by path.length
decreasing_by
  simp only [splitSegment, List.length_drop, List.length_cons]
  have := (List.dropWhile_suffix (l := c :: rest) (· != '/')).length_le
  simp only [List.length_cons] at this
  omega

structure Cursor where
  -- Nothing has been read yet, so a leading slash or `.` still counts.
  atStart : Bool
  rest : List Char
  deriving DecidableEq, Repr

namespace Cursor

def ofString (path : String) : Cursor :=
  ⟨true, path.toList⟩

def startsHere (path : List Char) : Bool :=
  (splitSegment path).1 == ['.']

def next? (c : Cursor) : Option (Part × Cursor) :=
  if c.atStart && c.rest.head? == some '/' then some (.root, ⟨false, c.rest.drop 1⟩)
  else if c.atStart && startsHere c.rest then some (.here, ⟨false, c.rest.drop 1⟩)
  else match skipIdle c.rest with
    | [] => none
    | rest =>
      let (segment, rest) := splitSegment rest
      some (.ofSegment segment, ⟨false, rest⟩)

def after? : Cursor → List Part → Option Cursor
  | c, [] => some c
  | c, part :: parts => do
    let (first, rest) ← c.next?
    if first = part then rest.after? parts else none

-- The number of characters at the start that count as a part of their own.
def leading (c : Cursor) : Nat :=
  if c.atStart && (c.rest.head? == some '/' || startsHere c.rest) then 1 else 0

def toString (c : Cursor) : String :=
  let rest := if c.atStart then c.rest else skipIdle c.rest
  let body := (skipIdle (rest.drop c.leading).reverse).reverse
  String.ofList (rest.take c.leading ++ body)

end Cursor

def relativeTo? (path base : String) : Option String :=
  ((Cursor.ofString path).after? (parts base)).map Cursor.toString

def shown (path base : String) : String :=
  (relativeTo? path base).getD path

end DeadCode.Path
