import DeadCode.Text.Basic
import Mathlib.Data.List.Basic

namespace DeadCode.Text

-- The text without its line breaks.
def ink (text : Text) : Text :=
  text.filter (· != '\n')

@[simp]
theorem ink_append (a b : Text) : ink (a ++ b) = a.ink ++ b.ink :=
  List.filter_append ..

theorem ink_cons (c : Char) (text : Text) : ink (c :: text) = ink [c] ++ text.ink :=
  ink_append [c] text

@[simp]
theorem ink_breaks (text : Text) : ink text.breaks = [] := by
  simp [ink, breaks]

end DeadCode.Text
