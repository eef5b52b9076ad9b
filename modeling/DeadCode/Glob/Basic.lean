import DeadCode.Failure

namespace DeadCode.Glob

inductive Token
  | literal (c : Char)
  -- `?`: any one byte.
  | any
  -- `*`: any bytes, slashes included.
  | many
  -- `**` before the first slash: any leading directories.
  | leading
  -- `/**` at the end: anything below.
  | inside
  -- `/**/` in the middle: any directories in between.
  | between
  -- `[...]`: one byte out of some ranges, or one outside of all of them.
  | range (negated : Bool) (ranges : List (Char × Char))
  -- Braces: any of several patterns.
  | choice (branches : List (List Token))
  deriving Repr

inductive Fault
  | unclosedClass
  | invalidRange (first last : Char)
  | unopenedChoice
  | unclosedChoice
  | danglingEscape
  deriving DecidableEq, Repr

def Fault.message : Fault → String
  | unclosedClass => "unclosed character class; missing ']'"
  | invalidRange first last => s!"invalid range; '{first}' > '{last}'"
  | unopenedChoice =>
    "unopened alternate group; missing '\x7b' (maybe escape '\x7d' with '[\x7d]'?)"
  | unclosedChoice =>
    "unclosed alternate group; missing '\x7d' (maybe escape '\x7b' with '[\x7b]'?)"
  | danglingEscape => "dangling '\\'"

end DeadCode.Glob
