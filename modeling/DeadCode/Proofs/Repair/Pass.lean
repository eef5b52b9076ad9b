import DeadCode.Proofs.Edit.Lines
import DeadCode.Proofs.Repair.Reading

namespace DeadCode

namespace Text

variable {text : Text}

theorem ink_filler (keepLines : Bool) (removed : Text) : ink (filler keepLines removed) = [] := by
  cases keepLines
  case false => rfl
  case true => exact ink_breaks removed

theorem filler_shorter (keepLines : Bool) (h : ∃ c ∈ text, c ≠ '\n') :
    (filler keepLines text).length < text.length := by
  have ⟨c, hm, hc⟩ := h
  cases keepLines
  case false => exact List.length_pos_of_mem hm
  case true => exact List.length_filter_lt_length_iff_exists.mpr ⟨c, hm, by simpa using hc⟩

end Text

namespace Repair

open Text

variable {pattern : Pattern} {before : Option Char} {text : Text} {fill : Text → Text}

-- What is dropped always leaves less behind.
theorem Hit.length_lt (hit : Hit text) (keepLines : Bool) {out : Text}
    (h : out.length ≤ hit.rest.length) :
    (hit.kept ++ (filler keepLines hit.dropped ++ out)).length < text.length := by
  have hf := filler_shorter keepLines hit.inked
  have hs := congrArg List.length hit.split
  simp only [List.length_append] at hs ⊢
  omega

-- What a pass makes of a text from a place on.
def Pattern.passFrom (pattern : Pattern) (fill : Text → Text) (before : Option Char) (text : Text) :
    Text :=
  match pattern before text with
  | some hit =>
    hit.kept ++ (fill hit.dropped ++ passFrom pattern fill hit.dropped.getLast? hit.rest)
  | none =>
    match text with
    | [] => []
    | c :: rest => c :: passFrom pattern fill (some c) rest
termination_by text.length
decreasing_by
  · exact hit.rest_length_lt
  · simp

namespace Pattern

theorem passFrom_of_some {hit : Hit text} (h : pattern before text = some hit) :
    pattern.passFrom fill before text =
      hit.kept ++ (fill hit.dropped ++ pattern.passFrom fill hit.dropped.getLast? hit.rest) := by
  rw [passFrom.eq_def, h]

theorem passFrom_of_none (h : pattern before (c :: text) = none) :
    pattern.passFrom fill before (c :: text) = c :: pattern.passFrom fill (some c) text := by
  rw [passFrom, h]

theorem go_pass_eq (done : Text) : pass.go pattern fill done before text =
    done.reverse ++ pattern.passFrom fill before text := by
  fun_induction pass.go pattern fill done before text
  case case1 h hi => rw [hi, passFrom_of_some h]; simp
  case case2 h => rw [passFrom, h]; simp
  case case3 h hi => rw [hi, passFrom_of_none h]; simp

theorem pass_eq (text : Text) : pattern.pass fill text = pattern.passFrom fill none text :=
  go_pass_eq []

theorem passFrom_shorter (pattern : Pattern) (keepLines : Bool) (before : Option Char) (text : Text) :
    pattern.passFrom (filler keepLines) before text = text ∨
      (pattern.passFrom (filler keepLines) before text).length < text.length := by
  fun_induction passFrom pattern (filler keepLines) before text
  case case1 hit hx hi =>
    exact .inr <| hit.length_lt keepLines <|
      hi.elim (fun h => Nat.le_of_eq (congrArg List.length h)) Nat.le_of_lt
  case case2 hx => exact .inl rfl
  case case3 c rest hx hi => simpa using hi

theorem pass_shorter (pattern : Pattern) (keepLines : Bool) (text : Text) :
    pattern.pass (filler keepLines) text = text ∨
      (pattern.pass (filler keepLines) text).length < text.length :=
  pass_eq text ▸ pattern.passFrom_shorter keepLines none text

end Pattern

-- A pass more makes no difference.
theorem settle_pass {pass : Text → Text} (h : pass text = text ∨ (pass text).length < text.length) :
    settle pass (pass text) = settle pass text := by
  rcases h with h | h
  case inl => rw [h]
  case inr => rw [settle.eq_def pass text, if_pos h]

theorem settle_of_length {pass : Text → Text} (h : ¬(pass text).length < text.length) :
    settle pass text = text := by
  rw [settle, if_neg h]

end Repair

end DeadCode
