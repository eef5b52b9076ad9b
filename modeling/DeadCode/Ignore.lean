namespace DeadCode

inductive NamePattern
  | startsWith (text : List Char)
  | endsWith (text : List Char)
  | contains (text : List Char)
  deriving DecidableEq, Repr

def occursIn (text : List Char) : List Char → Bool
  | [] => text.isEmpty
  | c :: rest => text.isPrefixOf (c :: rest) || occursIn text rest

namespace NamePattern

-- Reads a pattern. A star at the end leaves the end open; otherwise a star at the beginning leaves
-- the beginning open; without either the text may stand anywhere in the name.
def ofString (pattern : String) : NamePattern :=
  let text := pattern.toList
  if text.getLast? = some '*' then startsWith text.dropLast
  else match text with
    | '*' :: rest => endsWith rest
    | _ => contains text

def covers (pattern : NamePattern) (name : String) : Bool :=
  match pattern with
  | startsWith text => text.isPrefixOf name.toList
  | endsWith text => text.isSuffixOf name.toList
  | contains text => occursIn text name.toList

end NamePattern

abbrev IgnoreList := List NamePattern

namespace IgnoreList

def ofStrings (patterns : List String) : IgnoreList :=
  patterns.map NamePattern.ofString

def covers (ignore : IgnoreList) (name : String) : Bool :=
  ignore.any (NamePattern.covers · name)

end IgnoreList

end DeadCode
