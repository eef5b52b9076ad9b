namespace DeadCode.Toml

inductive Origin
  -- Written between braces. It is complete.
  | inline
  -- Opened by a header of its own.
  | header
  -- Passed through on the way to the table of a header.
  | implied
  -- Passed through by a key with dots.
  | dotted
  deriving DecidableEq, Repr

inductive Value
  | string (value : String)
  | bool (value : Bool)
  | integer (value : Int)
  | float
  | datetime
  | array (items : List Value)
  | table (origin : Origin) (entries : List (String × Value))
  -- The tables of a repeated header.
  | tables (elements : List Value)

namespace Value

def replaceEntry (key : String) (value : Value) (entries : List (String × Value)) :
    List (String × Value) :=
  entries.map fun (k, v) => if k = key then (k, value) else (k, v)

-- Changes the table at a path, which begins in a given table. Tables that are missing on the way are
-- added; of the tables of a repeated header, the last one is meant. A key with dots does not lead
-- through the table of a header.
def modifyAt (byDots : Bool) (change : Value → Option Value) : List String → Value → Option Value
  | [], t => change t
  | key :: path, .table origin entries =>
    match entries.lookup key with
    | none => do
      let child ← modifyAt byDots change path (.table (if byDots then .dotted else .implied) [])
      return .table origin (entries ++ [(key, child)])
    | some (.table .header inner) =>
      if byDots then none
      else do
        let child ← modifyAt byDots change path (.table .header inner)
        return .table origin (replaceEntry key child entries)
    | some (.table .implied inner) => do
      let child ← modifyAt byDots change path (.table .implied inner)
      return .table origin (replaceEntry key child entries)
    | some (.table .dotted inner) => do
      let child ← modifyAt byDots change path (.table .dotted inner)
      return .table origin (replaceEntry key child entries)
    | some (.tables elements) => do
      let last ← elements.getLast?
      let last ← modifyAt byDots change path last
      return .table origin (replaceEntry key (.tables (elements.dropLast ++ [last])) entries)
    | some _ => none
  | _ :: _, _ => none

-- Adds an entry with a new key to a table. A table that keys with dots have made only grows by
-- such keys, and no other table does.
def addEntry (byDots : Bool) (key : String) (value : Value) : Value → Option Value
  | .table origin entries =>
    if (origin = .dotted) ≠ byDots || (entries.lookup key).isSome then none
    else some (.table origin (entries ++ [(key, value)]))
  | _ => none

def addKey (t : Value) (path : List String) (value : Value) : Option Value := do
  let key ← path.getLast?
  let byDots := !path.dropLast.isEmpty
  t.modifyAt true (addEntry byDots key value) path.dropLast

-- Opens the table of a header. A table that has a header already cannot be opened again.
def openTable (path : List String) (root : Value) : Option Value := do
  let key ← path.getLast?
  root.modifyAt false (openIn key) path.dropLast
where
  openIn (key : String) : Value → Option Value
    | .table origin entries =>
      match entries.lookup key with
      | none => some (.table origin (entries ++ [(key, .table .header [])]))
      | some (.table .implied inner) =>
        some (.table origin (replaceEntry key (.table .header inner) entries))
      | some _ => none
    | _ => none

def openElement (path : List String) (root : Value) : Option Value := do
  let key ← path.getLast?
  root.modifyAt false (openIn key) path.dropLast
where
  openIn (key : String) : Value → Option Value
    | .table origin entries =>
      match entries.lookup key with
      | none => some (.table origin (entries ++ [(key, .tables [.table .header []])]))
      | some (.tables elements) =>
        let grown := .tables (elements ++ [.table .header []])
        some (.table origin (replaceEntry key grown entries))
      | some _ => none
    | _ => none

def lookup? (key : String) : Value → Option Value
  | .table _ entries => entries.lookup key
  | _ => none

end Value

end DeadCode.Toml
