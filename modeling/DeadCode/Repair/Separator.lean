import DeadCode.Repair.Basic
import DeadCode.Text.Blank
import DeadCode.Text.Front
import DeadCode.Text.Word

namespace DeadCode.Repair

open Text

def isNameStart (c : Char) : Bool :=
  c.isAlpha || c == '_' || c == '$'

def isNameChar (c : Char) : Bool :=
  isNameStart c || c.isDigit

-- A name between blanks and the comma after it.
def slot? (text : Text) : Option (Front text) := do
  let blanks := Front.takeWhile isBlank text
  let first ← Front.char? isNameStart blanks.rest
  let name := first.append (Front.takeWhile isNameChar first.rest)
  let padded := name.append (Front.takeWhile isBlank name.rest)
  let comma ← Front.char? (· == ',') padded.rest
  return blanks.append (padded.append comma)

theorem slot?_ne_nil {text : Text} {e : Front text} (h : slot? text = some e) : e.taken ≠ [] := by
  simp only [slot?, bind, Option.bind_eq_some_iff] at h
  obtain ⟨first, hf, comma, -, h⟩ := h
  obtain ⟨c, -, hc⟩ := Front.taken_of_char? hf
  cases h
  simp [hc]

def slots (text : Text) : Front text :=
  match _ : slot? text with
  | none => .nothing text
  | some e => e.append (slots e.rest)
termination_by text.length
decreasing_by exact e.length_rest_lt (slot?_ne_nil ‹_›)

-- The beginning of a name list: the keyword as a word of its own, the brace, and the filled slots
-- up to the first empty one.
def nameList? (before : Option Char) (text : Text) : Option (Front text) := do
  let keyword ← Front.oneOf? ["export".toList, "import".toList] text
  guard (before.all (!isWord ·))
  let padded := keyword.append (Front.takeWhile isBlank keyword.rest)
  let brace ← Front.char? (· == '\x7b') padded.rest
  let list := padded.append brace
  return list.append (slots list.rest)

-- A comma where a name list expects a name. The blanks before it go with it.
def separator : Pattern := fun before text => do
  let list ← nameList? before text
  let blanks := Front.takeWhile isBlank list.rest
  match h : Front.char? (· == ',') blanks.rest with
  | none => none
  | some comma => some {
      kept := list.taken
      dropped := blanks.taken ++ comma.taken
      rest := comma.rest
      split := by rw [List.append_assoc, comma.split, blanks.split, list.split]
      inked := by
        obtain ⟨c, hc, ht⟩ := Front.taken_of_char? h
        exact ⟨c, by simp [ht], by rintro rfl; simp at hc⟩ }

end DeadCode.Repair
