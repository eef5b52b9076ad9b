import DeadCode.Proofs.Repair.Occurrence

namespace DeadCode

open Text

namespace Repair

-- The course of a repair that goes over a text until a pass has found nothing, or has changed nothing, and
-- takes no notice of lengths: how many passes have changed the text before the last one, and the text then.
inductive Rounds (pattern : Pattern) (keepLines : Bool) : Text → Nat → Text → Prop
  | absent : ¬pattern.Occurs text → Rounds pattern keepLines text 0 text
  | same   : pattern.Occurs text → pattern.pass (filler keepLines) text = text →
    Rounds pattern keepLines text 0 text
  | again  : pattern.Occurs text → pattern.pass (filler keepLines) text ≠ text →
    Rounds pattern keepLines (pattern.pass (filler keepLines) text) rounds out →
    Rounds pattern keepLines text (rounds + 1) out

namespace Rounds

variable {pattern : Pattern} {keepLines : Bool} {text out : Text} {rounds : Nat}

-- Each round has taken at least one character.
theorem length_add_le (h : Rounds pattern keepLines text rounds out) :
    rounds + out.length ≤ text.length := by
  induction h
  case absent => omega
  case same => omega
  case again text _ _ ho _ _ hi =>
    have := (pattern.pass_lt_iff keepLines text).mpr ho
    omega

theorem settle_eq (h : Rounds pattern keepLines text rounds out) :
    settle (pattern.pass (filler keepLines)) text = out := by
  induction h
  case absent h => exact Pattern.settle_of_not_occurs keepLines h
  case same h => exact settle_of_length (by simp [h])
  case again text _ _ _ _ _ hi => exact (settle_pass (pattern.pass_shorter keepLines text)).symm.trans hi

theorem not_occurs (h : Rounds pattern keepLines text rounds out) : ¬pattern.Occurs out :=
  h.settle_eq ▸ pattern.not_occurs_settle keepLines text

end Rounds

theorem Pattern.exists_rounds (pattern : Pattern) (keepLines : Bool) (text : Text) :
    ∃ rounds, Rounds pattern keepLines text rounds (settle (pattern.pass (filler keepLines)) text) := by
  fun_induction settle (pattern.pass (filler keepLines)) text
  case case1 text next hl hi =>
    obtain ⟨rounds, h⟩ := hi
    have hn : next ≠ text := fun he => Nat.lt_irrefl _ (he ▸ hl)
    exact ⟨rounds + 1, .again (pattern.pass_lt_iff keepLines text |>.mp hl) hn h⟩
  case case2 text _ hl => exact ⟨0, .absent ((pattern.pass_lt_iff keepLines text).not.mp hl)⟩

-- What it means that a repair comes to an end, whatever text it is given:
-- 1. a pass that finds something makes the text shorter
-- 2. the repair ends, and its result is that of `settle`
-- 3. however it takes its course, no more passes change the text than it has characters
-- 4. and there is no other result, and nothing more to find in it
structure Pattern.Ends (pattern : Pattern) (keepLines : Bool) : Prop where
  shorter : ∀ text, pattern.Occurs text → (pattern.pass (filler keepLines) text).length < text.length
  ends    : ∀ text, ∃ rounds,
    Rounds pattern keepLines text rounds (settle (pattern.pass (filler keepLines)) text)
  bounded : ∀ text rounds out, Rounds pattern keepLines text rounds out → rounds ≤ text.length
  settled : ∀ text rounds out, Rounds pattern keepLines text rounds out →
    settle (pattern.pass (filler keepLines)) text = out ∧ ¬pattern.Occurs out

theorem Pattern.ends (pattern : Pattern) (keepLines : Bool) : pattern.Ends keepLines where
  shorter text := (pattern.pass_lt_iff keepLines text).mpr
  ends := pattern.exists_rounds keepLines
  bounded _ _ _ h := Nat.le_trans (Nat.le_add_right ..) h.length_add_le
  settled _ _ _ h := ⟨h.settle_eq, h.not_occurs⟩

end Repair

namespace Text

open Repair

-- Either repair comes to an end on every text. One after the other, they change a text no more often than it
-- has characters.
theorem repairs_end (keepLines : Bool) : separator.Ends keepLines ∧ emptyStatement.Ends keepLines ∧
    ∀ text : Text, ∃ commas statements,
      Rounds separator keepLines text commas (text.uncluttered keepLines) ∧
      Rounds emptyStatement keepLines (text.uncluttered keepLines) statements (text.repaired keepLines) ∧
      commas + statements ≤ text.length := by
  refine ⟨separator.ends keepLines, emptyStatement.ends keepLines, fun text => ?_⟩
  have ⟨commas, hc⟩ := separator.exists_rounds keepLines text
  have ⟨statements, hs⟩ := emptyStatement.exists_rounds keepLines (text.uncluttered keepLines)
  refine ⟨commas, statements, hc, hs, ?_⟩
  calc
    commas + statements ≤ commas + (text.uncluttered keepLines).length :=
      Nat.add_le_add_left (Nat.le_trans (Nat.le_add_right ..) hs.length_add_le) _
    _ ≤ text.length := hc.length_add_le

end Text

end DeadCode
