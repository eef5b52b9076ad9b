import DeadCode.Progress

namespace DeadCode.Checkpoint

-- A checkpoint before a run.
def fresh (enabled : Bool) : Checkpoint where
  enabled := enabled

-- Of so many ticks, counted from one, those that are reported.
def due (ticks : Nat) : List Nat :=
  (List.range' 1 ticks).filter (· % 101 == 0)

-- What is reported of a marking run that has marked so many nodes.
def markReports (marked : Nat) : List Progress :=
  (due marked).map (fun n => { phase := .mark, marked := n }) ++ [{ phase := .mark, marked }]

theorem due_succ (n : Nat) : due (n + 1) = due n ++ if (n + 1) % 101 = 0 then [n + 1] else [] := by
  rw [due, List.range'_1_concat, List.filter_append, Nat.add_comm 1 n, due]
  split
  case isTrue h => simp [h]
  case isFalse h => simp [h]

theorem tickAll_concat (c : Checkpoint) (snapshots : List Progress) (p : Progress) :
    c.tickAll (snapshots ++ [p]) = (c.tickAll snapshots).tick p :=
  List.foldl_append

section

variable {c : Checkpoint} {p : Progress}

theorem tick_of_disabled (h : c.enabled = false) : c.tick p = c := by
  simp [tick, isDue, h]

theorem tickAll_of_disabled (h : c.enabled = false) (snapshots : List Progress) :
    c.tickAll snapshots = c := by
  induction snapshots
  case nil => rfl
  case cons hi => rwa [tickAll, List.foldl_cons, tick_of_disabled h]

theorem flush_of_disabled (h : c.enabled = false) : c.flush p = c := by
  simp [flush, h]

theorem tick_of_due (he : c.enabled) (h : budget ≤ c.ticks) : c.tick p = c.report p := by
  simp [tick, isDue, he, h]

theorem tick_of_not_due (he : c.enabled) (h : c.ticks < budget) :
    c.tick p = { c with ticks := c.ticks + 1 } := by
  have : ¬budget ≤ c.ticks := Nat.not_le_of_lt h
  simp [tick, isDue, he, this]

theorem flush_of_enabled (he : c.enabled) : c.flush p = c.report p := by
  simp [flush, he]

end

section

variable (c : Checkpoint) (he : c.enabled) (ht : c.ticks = 0)
include he ht

-- The induction is on the number of ticks: what has been counted is the remainder, so the next tick is due
-- if it brings the remainder back to zero.
theorem tickAll_eq (snapshot : Nat → Progress) (n : Nat) :
    c.tickAll ((List.range' 1 n).map snapshot) =
      { c with ticks := n % 101, reports := c.reports ++ (due n).map snapshot } := by
  induction n
  case zero =>
    obtain ⟨_, _, _⟩ := c
    simpa [tickAll, due] using ht
  case succ n hi =>
    rw [List.range'_1_concat, List.map_append, List.map_singleton, tickAll_concat, hi, due_succ,
      Nat.add_comm 1 n]
    by_cases h : (n + 1) % 101 = 0
    case pos =>
      have hd : 100 ≤ n % 101 := by omega
      rw [tick_of_due]
      · simp [report, h]
      · exact he
      · exact hd
    case neg =>
      have hd : n % 101 < 100 := by omega
      have hn : (n + 1) % 101 = n % 101 + 1 := by omega
      rw [tick_of_not_due]
      · simp [hn]
      · exact he
      · exact hd

-- A phase that begins with nothing counted reports the ticks that are due and what there is at its end, and
-- leaves nothing counted.
theorem flush_tickAll (snapshot : Nat → Progress) (n : Nat) (p : Progress) :
    (c.tickAll ((List.range' 1 n).map snapshot)).flush p =
      { c with reports := c.reports ++ ((due n).map snapshot ++ [p]) } := by
  rw [c.tickAll_eq he ht, flush_of_enabled]
  · simp [report, ht]
  · exact he

theorem marking_eq (n : Nat) : c.marking n = { c with reports := c.reports ++ markReports n } := by
  rw [marking, markReports, ← c.flush_tickAll he ht, List.range'_eq_map_range, List.map_map]
  simp only [Function.comp_def, Nat.add_comm 1]

end

end DeadCode.Checkpoint
