import DeadCode.Text.Basic

namespace DeadCode.Repair

-- An occurrence of a pattern at the front of a text: what it keeps, what it drops, and what
-- follows. It drops something other than line breaks, so taking it out always makes progress.
structure Hit (text : Text) where
  kept : Text
  dropped : Text
  rest : Text
  split : kept ++ (dropped ++ rest) = text
  inked : ∃ c ∈ dropped, c ≠ '\n'

theorem Hit.rest_length_lt {text : Text} (hit : Hit text) : hit.rest.length < text.length := by
  obtain ⟨c, mem, _⟩ := hit.inked
  have := List.length_pos_of_mem mem
  have := congrArg List.length hit.split
  simp only [List.length_append] at this
  omega

-- A pattern is tried at a place of a text: it sees the character before the place, if there is
-- one, and the text from there on.
abbrev Pattern := Option Char → (text : Text) → Option (Hit text)

-- One pass over the text: every occurrence, from left to right and without overlap, gives way to
-- what it keeps and to what `filler` makes of the rest of it.
def Pattern.pass (pattern : Pattern) (filler : Text → Text) (text : Text) : Text :=
  go [] none text
where
  go (done : Text) (before : Option Char) (text : Text) : Text :=
    match pattern before text with
    | some hit =>
      go ((hit.kept ++ filler hit.dropped).reverse ++ done) hit.dropped.getLast? hit.rest
    | none =>
      match text with
      | [] => done.reverse
      | c :: rest => go (c :: done) (some c) rest
  termination_by text.length
  decreasing_by
    · exact hit.rest_length_lt
    · simp

def settle (pass : Text → Text) (text : Text) : Text :=
  let next := pass text
  if next.length < text.length then settle pass next else text
termination_by text.length

end DeadCode.Repair
