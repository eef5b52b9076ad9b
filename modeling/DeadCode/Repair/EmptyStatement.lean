import DeadCode.Repair.Basic
import DeadCode.Text.Blank
import DeadCode.Text.Front

namespace DeadCode.Repair

open Text

-- The beginning of a line: the start of the text, where nothing needs to be taken, or a line
-- break.
def lineStarts (before : Option Char) (text : Text) : List (Front text) :=
  (if before.isNone then [.nothing text] else []) ++ (Front.char? (· == '\n') text).toList

-- Blanks up to the end of a statement: a semicolon after them, or else the last line break among
-- them.
def statementEnd? (text : Text) : Option (Front text) :=
  let blanks := Front.takeWhile isBlank text
  match Front.char? (· == ';') blanks.rest with
  | some semicolon => some (blanks.append semicolon)
  | none =>
    let after := (blanks.taken.reverse.takeWhile (· != '\n')).length
    let size := blanks.taken.length - after
    if size = 0 then none else some ⟨text.take size, text.drop size, List.take_append_drop ..⟩

def binders : List Text :=
  ["var".toList, "const".toList, "let".toList]

def statementHead (text : Text) : Front text :=
  let indent := Front.takeWhile (· == ' ') text
  match Front.word? "export".toList indent.rest with
  | some word => indent.append (word.append (Front.takeWhile (· == ' ') word.rest))
  | none => indent

def bareStatement? (text : Text) : Option (Front text) := do
  let head := statementHead text
  let keyword ← Front.oneOf? binders head.rest
  let ending ← statementEnd? keyword.rest
  return head.append (keyword.append ending)

theorem bareStatement?_inked {text : Text} {s : Front text} (h : bareStatement? text = some s) :
    ∃ c ∈ s.taken, c ≠ '\n' := by
  simp only [bareStatement?, bind, Option.bind_eq_some_iff] at h
  obtain ⟨keyword, hk, ending, -, h⟩ := h
  have inked : ∀ word ∈ binders, ∃ c ∈ word, c ≠ '\n' := by simp [binders]
  obtain ⟨c, mem, hc⟩ := inked _ (Front.taken_of_oneOf? hk)
  cases h
  exact ⟨c, by simp [mem], hc⟩

def emptyStatement : Pattern := fun before text =>
  (lineStarts before text).findSome? fun start =>
    match h : bareStatement? start.rest with
    | none => none
    | some s => some {
        kept := []
        dropped := start.taken ++ s.taken
        rest := s.rest
        split := by simp [s.split, start.split]
        inked := by
          obtain ⟨c, mem, hc⟩ := bareStatement?_inked h
          exact ⟨c, by simp [mem], hc⟩ }

end DeadCode.Repair
