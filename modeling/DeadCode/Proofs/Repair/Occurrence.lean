import DeadCode.Edit.Source
import DeadCode.Proofs.Repair.Pass

namespace DeadCode

open Text

namespace Repair

variable {pattern : Pattern} {before : Option Char} {c : Char} {text : Text} {keepLines : Bool}

-- The pattern finds something at some place of the text.
def Pattern.Occurs (pattern : Pattern) (text : Text) : Prop :=
  ∃ a b, text = a ++ b ∧ (pattern a.getLast? b).isSome

-- The same from a place on that has a character before it.
def Pattern.OccursFrom (pattern : Pattern) (before : Option Char) (text : Text) : Prop :=
  ∃ a b, text = a ++ b ∧ (pattern (a.getLast?.or before) b).isSome

namespace Pattern

theorem occursFrom_none : pattern.OccursFrom none text ↔ pattern.Occurs text := by
  simp only [OccursFrom, Occurs, Option.or_none]

theorem occursFrom_nil (h : pattern before [] = none) : ¬pattern.OccursFrom before [] := by
  rintro ⟨a, b, he, ho⟩
  obtain ⟨rfl, rfl⟩ := List.append_eq_nil_iff.mp he.symm
  simp [h] at ho

theorem occursFrom_cons (h : pattern before (c :: text) = none) :
    pattern.OccursFrom before (c :: text) ↔ pattern.OccursFrom (some c) text := by
  have hl (a : Text) : (c :: a).getLast?.or before = a.getLast?.or (some c) := by
    cases a <;> simp [List.getLast?_cons]
  constructor
  case mp =>
    rintro ⟨a, b, he, ho⟩
    cases a
    case nil =>
      subst he
      simp [h] at ho
    case cons d a =>
      cases he
      exact ⟨a, b, rfl, hl a ▸ ho⟩
  case mpr =>
    rintro ⟨a, b, rfl, ho⟩
    exact ⟨c :: a, b, rfl, hl a ▸ ho⟩

theorem passFrom_eq_self_iff (pattern : Pattern) (keepLines : Bool) (before : Option Char) (text : Text) :
    pattern.passFrom (filler keepLines) before text = text ↔ ¬pattern.OccursFrom before text := by
  fun_induction passFrom pattern (filler keepLines) before text
  case case1 before text hit hx _ =>
    have ho : pattern.OccursFrom before text := ⟨[], text, rfl, by simp [hx]⟩
    have hr := pattern.passFrom_shorter keepLines hit.dropped.getLast? hit.rest
    have hl := hit.length_lt keepLines <|
      hr.elim (fun h => Nat.le_of_eq (congrArg List.length h)) Nat.le_of_lt
    exact iff_of_false (fun he => by rw [he] at hl; exact Nat.lt_irrefl _ hl) (not_not_intro ho)
  case case2 hx => simp [occursFrom_nil hx]
  case case3 c rest hx hi => rw [List.cons_inj_right, hi, occursFrom_cons hx]

theorem pass_eq_self_iff (pattern : Pattern) (keepLines : Bool) (text : Text) :
    pattern.pass (filler keepLines) text = text ↔ ¬pattern.Occurs text := by
  rw [pass_eq, passFrom_eq_self_iff, occursFrom_none]

theorem pass_lt_iff (pattern : Pattern) (keepLines : Bool) (text : Text) :
    (pattern.pass (filler keepLines) text).length < text.length ↔ pattern.Occurs text := by
  have hs := pattern.pass_eq_self_iff keepLines text
  constructor
  case mp =>
    intro hl
    by_contra ho
    rw [hs.mpr ho] at hl
    exact Nat.lt_irrefl _ hl
  case mpr => exact fun ho => (pattern.pass_shorter keepLines text).resolve_left fun he => hs.mp he ho

-- A repair stops where there is nothing more for it to find.
theorem not_occurs_settle (pattern : Pattern) (keepLines : Bool) (text : Text) :
    ¬pattern.Occurs (settle (pattern.pass (filler keepLines)) text) := by
  fun_induction settle (pattern.pass (filler keepLines)) text
  case case1 hi => exact hi
  case case2 text _ hl => exact (pattern.pass_lt_iff keepLines text).not.mp hl

theorem length_settle_le (pattern : Pattern) (keepLines : Bool) (text : Text) :
    (settle (pattern.pass (filler keepLines)) text).length ≤ text.length := by
  fun_induction settle (pattern.pass (filler keepLines)) text
  case case1 hl hi => exact Nat.le_trans hi (Nat.le_of_lt hl)
  case case2 => exact Nat.le_refl _

theorem settle_lt_of_occurs (keepLines : Bool) (h : pattern.Occurs text) :
    (settle (pattern.pass (filler keepLines)) text).length < text.length := by
  have hl := (pattern.pass_lt_iff keepLines text).mpr h
  rw [← settle_pass (.inr hl)]
  exact Nat.lt_of_le_of_lt (pattern.length_settle_le ..) hl

theorem settle_of_not_occurs (keepLines : Bool) (h : ¬pattern.Occurs text) :
    settle (pattern.pass (filler keepLines)) text = text :=
  settle_of_length ((pattern.pass_lt_iff keepLines text).not.mpr h)

end Pattern

end Repair

namespace Text

open Repair

variable {text : Text} {keepLines : Bool}

-- The text once the stray commas are gone, before anything else is repaired.
def uncluttered (text : Text) (keepLines : Bool) : Text :=
  settle (separator.pass (filler keepLines)) text

theorem repaired_of_uncluttered (text : Text) (keepLines : Bool) : text.repaired keepLines =
    settle (emptyStatement.pass (filler keepLines)) (text.uncluttered keepLines) :=
  rfl

theorem not_occurs_repaired (text : Text) (keepLines : Bool) :
    ¬emptyStatement.Occurs (text.repaired keepLines) :=
  emptyStatement.not_occurs_settle keepLines _

theorem repaired_lt_of_occurs (keepLines : Bool) (h : separator.Occurs text) :
    (text.repaired keepLines).length < text.length :=
  Nat.lt_of_le_of_lt (emptyStatement.length_settle_le ..) (separator.settle_lt_of_occurs keepLines h)

theorem repaired_of_not_occurs (keepLines : Bool) (h : ¬separator.Occurs text) :
    text.repaired keepLines = settle (emptyStatement.pass (filler keepLines)) text := by
  rw [repaired_of_uncluttered, uncluttered, Pattern.settle_of_not_occurs keepLines h]

theorem repaired_eq_self_iff :
    text.repaired keepLines = text ↔ ¬separator.Occurs text ∧ ¬emptyStatement.Occurs text := by
  constructor
  case mp =>
    intro he
    have hs : ¬separator.Occurs text := fun h => by
      have := repaired_lt_of_occurs keepLines h
      rw [he] at this
      exact Nat.lt_irrefl _ this
    exact ⟨hs, he ▸ text.not_occurs_repaired keepLines⟩
  case mpr =>
    rintro ⟨hs, he⟩
    rw [repaired_of_not_occurs keepLines hs, Pattern.settle_of_not_occurs keepLines he]

-- No empty statement is left, but a stray comma can be: one that only the removal of an empty statement
-- has made stray. A second run takes it out, and changes nothing if there is none.
theorem repaired_again (text : Text) (keepLines : Bool) :
    ¬emptyStatement.Occurs (text.repaired keepLines) ∧
    ((text.repaired keepLines).repaired keepLines = text.repaired keepLines ↔
      ¬separator.Occurs (text.repaired keepLines)) ∧
    (separator.Occurs (text.repaired keepLines) → emptyStatement.Occurs (text.uncluttered keepLines) ∧
      ((text.repaired keepLines).repaired keepLines).length < (text.repaired keepLines).length) := by
  have he := text.not_occurs_repaired keepLines
  refine ⟨he, by rw [repaired_eq_self_iff, and_iff_left he], fun hs => ⟨?_, repaired_lt_of_occurs _ hs⟩⟩
  by_contra hn
  rw [repaired_of_uncluttered, Pattern.settle_of_not_occurs keepLines hn] at hs
  exact separator.not_occurs_settle keepLines text hs

-- The statement stands in the way of the comma at first.
def interrupted : Text :=
  "import \x7b\nconst;, a \x7d".toList

theorem repaired_interrupted :
    interrupted.repaired false = "import \x7b, a \x7d".toList ∧
    (interrupted.repaired false).repaired false ≠ interrupted.repaired false ∧
    interrupted.repaired true = "import \x7b\n, a \x7d".toList ∧
    (interrupted.repaired true).repaired true ≠ interrupted.repaired true := by
  decide +kernel

theorem repaired_again_interrupted : separator.Occurs (interrupted.repaired false) ∧
    emptyStatement.Occurs (interrupted.uncluttered false) ∧
    ((interrupted.repaired false).repaired false).length < (interrupted.repaired false).length := by
  have hs : separator.Occurs (interrupted.repaired false) := ⟨[], _, rfl, by decide +kernel⟩
  exact ⟨hs, (repaired_again interrupted false).right.right hs⟩

end Text

end DeadCode
