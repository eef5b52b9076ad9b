import DeadCode.Glob.Expression
import DeadCode.Glob.Parser
import DeadCode.Glob.Strategy

namespace DeadCode.Glob

-- For each place of a name, from its start to its end: whether reading can have come this far.
abbrev Reach := List Bool

namespace Reach

def start (bytes : List UInt8) : Reach :=
  true :: bytes.map fun _ => false

def one (bytes : List UInt8) (p : UInt8 → Bool) (reach : Reach) : Reach :=
  false :: List.zipWith (fun here byte => here && p byte) reach bytes

def any (reach : Reach) : Reach :=
  go false reach
where
  go (seen : Bool) : Reach → Reach
    | [] => []
    | here :: rest => (seen || here) :: go (seen || here) rest

def union (a b : Reach) : Reach :=
  List.zipWith (· || ·) a b

def atEnd (reach : Reach) : Bool :=
  reach.getLast?.getD false

end Reach

def inRange (byte : UInt8) (first last : Char) : Bool :=
  (byteRanges first last).any fun (low, high) => low ≤ byte && byte ≤ high

def slash (byte : UInt8) : Bool :=
  byte == 47

mutual

-- Whether a token is an empty choice, which counts as if it were not there.
def Token.isVoid : Token → Bool
  | .choice branches => areAllVoid branches
  | _ => false

def isVoid : List Token → Bool
  | [] => true
  | token :: tokens => token.isVoid && isVoid tokens

def areAllVoid : List (List Token) → Bool
  | [] => true
  | branch :: branches => isVoid branch && areAllVoid branches

end

mutual

def Token.read (bytes : List UInt8) : Token → Reach → Reach
  | .literal c, reach => (utf8 c).foldl (fun reach byte => reach.one bytes (· == byte)) reach
  | .any, reach => reach.one bytes fun _ => true
  | .many, reach => reach.any
  | .leading, reach => reach.union (reach.any.one bytes slash)
  | .inside, reach => (reach.one bytes slash).any
  | .between, reach =>
    let below := reach.one bytes slash
    below.union (below.any.one bytes slash)
  | .range negated ranges, reach =>
    reach.one bytes fun byte => ranges.any (fun (first, last) => inRange byte first last) != negated
  | .choice branches, reach =>
    if areAllVoid branches then reach else readAny bytes branches reach

def readAll (bytes : List UInt8) : List Token → Reach → Reach
  | [], reach => reach
  | token :: tokens, reach => readAll bytes tokens (token.read bytes reach)

-- Reads one of several branches. A branch without any content is left out.
def readAny (bytes : List UInt8) : List (List Token) → Reach → Reach
  | [], reach => reach.map fun _ => false
  | branch :: branches, reach =>
    let others := readAny bytes branches reach
    if isVoid branch then others else (readAll bytes branch reach).union others

end

-- Whether the last component of a name is `..`, which is not a file name.
def endsInParent (name : String) : Bool :=
  name == ".." || ['/', '.', '.'].isSuffixOf name.toList

def needsFinalDot (tokens : List Token) : Bool :=
  tokens.getLast?.any (Token.isChar '.') &&
    [.fileName, .extension].contains (Strategy.ofTokens tokens)

-- Whether a pattern matches the whole name. A pattern that looks for a dot at the end of the file
-- name finds none in a name that ends in `..`.
def isMatch (tokens : List Token) (name : String) : Bool :=
  let bytes := name.toList.flatMap utf8
  if needsFinalDot tokens && endsInParent name then false
  else match tokens with
    | [.leading] => true
    | _ => (readAll bytes tokens (.start bytes)).atEnd

end DeadCode.Glob

namespace DeadCode

structure GlobList where
  globs : List (List Glob.Token)

namespace GlobList

def empty : GlobList := ⟨[]⟩

open Glob in
-- What is wrong with the expressions of several patterns. Those that go with an extension are looked
-- at one by one and before the others, which are numbered. Those for the last part of the name have no
-- choices in them and are never too deep.
def expressionFault? (globs : List (List Token)) : Option String :=
  match (globs.filter (Strategy.ofTokens · = .extension)).find? isTooDeep with
  | some tokens => some s!"error parsing glob '{expressionText tokens}': error parsing pattern 0"
  | none =>
    ((globs.filter (Strategy.ofTokens · = .expression)).findIdx? isTooDeep).map fun i =>
      s!"error parsing pattern {i}"

-- Reads patterns. The first one with a fault is reported; if all of them can be read, their
-- expressions are looked at together.
def ofStrings (patterns : List String) : Except Failure GlobList := do
  let globs ← patterns.mapM fun pattern =>
    (Glob.parse pattern).mapError fun fault =>
      .pattern pattern s!"error parsing glob '{pattern}': {fault.message}"
  match expressionFault? globs with
  | some detail => throw (.pattern (", ".intercalate patterns) detail)
  | none => return ⟨globs⟩

def isEmpty (list : GlobList) : Bool :=
  list.globs.isEmpty

def covers (list : GlobList) (name : String) : Bool :=
  list.globs.any (Glob.isMatch · name)

def allows (list : GlobList) (name : String) : Bool :=
  list.isEmpty || list.covers name

end GlobList

end DeadCode
