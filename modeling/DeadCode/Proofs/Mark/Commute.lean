import DeadCode.Proofs.Analysis.Marked
import DeadCode.Proofs.Mark.Exact
import Mathlib.Data.List.Permutation

namespace DeadCode

theorem Flags.insert_right_comm (a b c : Flags) : (a.insert b).insert c = (a.insert c).insert b := by
  rw [insert, insert, insert, insert, BitVec.or_assoc, BitVec.or_comm b.bits, BitVec.or_assoc]

namespace Project

variable {p : Project} {flag other : Flags} {mode mode' : Mode} {x : Node}

theorem contains_mark_iff (hp : p.WellFormed) : ((p.mark flag mode).1.flags.get x).contains flag ↔
    (p.flags.get x).contains flag ∨ ∃ path, p.Path flag mode x path := by
  classical
  rw [flags_mark hp, ← reached_iff_exists_path hp]
  split
  case isTrue h => simp [h]
  case isFalse h => simp [h]

-- The project after two runs.
def markTwice (p : Project) (flag : Flags) (mode : Mode) (other : Flags) (mode' : Mode) : Project :=
  ((p.mark flag mode).1.mark other mode').1

theorem markTwice_frame (p : Project) (flag : Flags) (mode : Mode) (other : Flags) (mode' : Mode) :
    p.markTwice flag mode other mode' = { p with flags := (p.markTwice flag mode other mode').flags } := by
  rw [markTwice, mark_fst, mark_fst p]

section

variable (hp : p.WellFormed) (hd : flag.bits &&& other.bits = 0)
include hp hd

-- The first run puts nothing in the way of the second one, and opens no new ways.
theorem reached_mark_of_disjoint :
    (p.mark flag mode).1.Reached other mode' = p.Reached other mode' := by
  have hf : flagged (p.mark flag mode).1.flags other = flagged p.flags other := by
    ext x
    simp only [flagged, Set.mem_ofPred_eq, contains_mark_of_disjoint hp hd]
  rw [Reached, hf, mark_fst, successors_withFlags]
  rfl

open Classical in
theorem flags_markTwice (x : Node) : (p.markTwice flag mode other mode').flags.get x =
    if p.Reached other mode' x then ((p.mark flag mode).1.flags.get x).insert other
    else (p.mark flag mode).1.flags.get x := by
  rw [markTwice, flags_mark (hp.mark flag mode), reached_mark_of_disjoint hp hd]

theorem flags_markTwice_comm (x : Node) : (p.markTwice flag mode other mode').flags.get x =
    (p.markTwice other mode' flag mode).flags.get x := by
  classical
  have hd' : other.bits &&& flag.bits = 0 := BitVec.and_comm .. ▸ hd
  rw [flags_markTwice hp hd, flags_markTwice hp hd', flags_mark hp, flags_mark hp]
  split <;> split
  case isTrue.isTrue => exact Flags.insert_right_comm ..
  all_goals rfl

-- The second run leaves the flag of the first one where it is.
theorem contains_markTwice_iff (x : Node) :
    ((p.markTwice flag mode other mode').flags.get x).contains flag ↔
      (p.flags.get x).contains flag ∨ ∃ path, p.Path flag mode x path := by
  have hd' : other.bits &&& flag.bits = 0 := BitVec.and_comm .. ▸ hd
  rw [markTwice, contains_mark_of_disjoint (hp.mark flag mode) hd', contains_mark_iff hp]

theorem count_mark_mark : ((p.mark flag mode).1.mark other mode').2 = (p.mark other mode').2 := by
  classical
  have hn : (p.mark flag mode).1.nodes = p.nodes := by
    rw [mark_fst]
    rfl
  have hc (x) : ((p.mark flag mode).1.flags.get x).contains other = (p.flags.get x).contains other :=
    contains_mark_of_disjoint hp hd x
  rw [count_mark (hp.mark flag mode), count_mark hp, newlyFlagged, newlyFlagged, hn]
  congr 1
  apply List.filter_congr
  intro x _
  have ht : ((p.mark flag mode).1.mark other mode').1.flags.get x = _ := flags_markTwice hp hd x
  rw [ht, flags_mark hp other, hc x]
  split
  case isTrue => simp
  case isFalse => rw [hc x]

end

-- What it means that two runs on a project do not get in each other's way:
-- 1. whichever comes first, every node carries the same flags in the end
-- 2. each of them counts as many nodes as if it had come first
-- 3. a flag ends up on the nodes that have had it from the beginning, and on those to which a way leads
--    that has been free of it from the beginning
-- 4. nothing but flags changes
structure Independent (p : Project) (flag : Flags) (mode : Mode) (other : Flags) (mode' : Mode) : Prop where
  flags   : ∀ x, (p.markTwice flag mode other mode').flags.get x =
    (p.markTwice other mode' flag mode).flags.get x
  counts  : ((p.mark other mode').1.mark flag mode).2 = (p.mark flag mode).2
  counts' : ((p.mark flag mode).1.mark other mode').2 = (p.mark other mode').2
  gains   : ∀ x, ((p.markTwice flag mode other mode').flags.get x).contains flag ↔
    (p.flags.get x).contains flag ∨ ∃ path, p.Path flag mode x path
  gains'  : ∀ x, ((p.markTwice flag mode other mode').flags.get x).contains other ↔
    (p.flags.get x).contains other ∨ ∃ path, p.Path other mode' x path
  frame   : p.markTwice flag mode other mode' =
    { p with flags := (p.markTwice flag mode other mode').flags }
  frame'  : p.markTwice other mode' flag mode =
    { p with flags := (p.markTwice other mode' flag mode).flags }

theorem mark_comm (rs : List Registration) (flags : FlagTable)
    (hd : flag.bits &&& other.bits = 0) (mode mode' : Mode) :
    { ofRegistrations rs with flags }.Independent flag mode other mode' := by
  have hp := (wellFormed_ofRegistrations rs).withFlags flags
  have hd' : other.bits &&& flag.bits = 0 := BitVec.and_comm .. ▸ hd
  exact {
    flags := flags_markTwice_comm hp hd
    counts := count_mark_mark hp hd'
    counts' := count_mark_mark hp hd
    gains := contains_markTwice_iff hp hd
    gains' x := by
      rw [flags_markTwice_comm hp hd]
      exact contains_markTwice_iff hp hd' x
    frame := markTwice_frame ..
    frame' := markTwice_frame .. }

-- Two declarations that refer to each other, one of them in words only.
def mutualCalls : List Registration :=
  [.file "a.ts" true, .file "b.ts" false,
    .declaration 0 (some "f") false ⟨2, 6, 17, by decide, by decide⟩,
    .declaration 1 (some "g") false ⟨2, 6, 17, by decide, by decide⟩,
    .usage ⟨.checker, 0, some 0, 8, 1⟩, .usage ⟨.grep, 1, some 1, 8, 0⟩]

-- The usage by which the checker gets from one to the other is flagged, so only the fuzzy run passes.
def barrier : FlagTable := { usages := #[.reachedByChecker] }

theorem mark_comm_barrier :
    let p := { ofRegistrations mutualCalls with flags := barrier }
    Flags.reachedByChecker.bits &&& Flags.reachedByGrep.bits = 0 ∧
      (p.mark .reachedByChecker .strict).2 = 3 ∧ (p.mark .reachedByGrep .fuzzy).2 = 7 ∧
      p.Independent .reachedByChecker .strict .reachedByGrep .fuzzy :=
  ⟨by decide, by cbv, by cbv, mark_comm mutualCalls barrier (by decide) .strict .fuzzy⟩

end Project

end DeadCode
