namespace DeadCode

abbrev Text := List Char

namespace Text

def byteSize (text : Text) : Nat :=
  text.foldr (fun c size => c.utf8Size + size) 0

-- How many characters stand before a byte offset, if the offset falls between two characters.
def charsBefore? (text : Text) (offset : Nat) : Option Nat :=
  go text offset 0
where
  go : Text → Nat → Nat → Option Nat
    | _, 0, before => some before
    | [], _ + 1, _ => none
    | c :: rest, offset, before =>
      if c.utf8Size ≤ offset then go rest (offset - c.utf8Size) (before + 1) else none

def replace? (text : Text) (start stop : Nat) (filler : Text) : Option Text := do
  let i ← text.charsBefore? start
  let j ← text.charsBefore? stop
  return text.take i ++ filler ++ text.drop j

def breaks (text : Text) : Text :=
  text.filter (· == '\n')

-- The number of lines. A line break ends a line, so one at the very end starts no further line.
def lineCount (text : Text) : Nat :=
  text.count '\n' + if text.getLast?.all (· == '\n') then 0 else 1

end Text

end DeadCode
