namespace DeadCode

inductive Phase
  | ingest
  | mark
  deriving DecidableEq, Repr

def Phase.name : Phase → String
  | ingest => "ingest"
  | mark => "mark"

structure Progress where
  phase : Phase
  files : Nat := 0
  declarations : Nat := 0
  usages : Nat := 0
  marked : Nat := 0
  deriving DecidableEq, Repr

-- Counts the ticks since the last report and keeps the reports. A checkpoint that is not enabled
-- does neither.
structure Checkpoint where
  enabled : Bool
  ticks : Nat := 0
  reports : List Progress := []
  deriving DecidableEq, Repr

namespace Checkpoint

def budget : Nat := 100

def report (c : Checkpoint) (p : Progress) : Checkpoint :=
  { c with ticks := 0, reports := c.reports ++ [p] }

def isDue (c : Checkpoint) : Bool :=
  c.enabled && budget ≤ c.ticks

-- Counts one unit of work, and reports it if more than the budget has passed.
def tick (c : Checkpoint) (p : Progress) : Checkpoint :=
  if c.isDue then c.report p
  else if c.enabled then { c with ticks := c.ticks + 1 }
  else c

-- Reports at the end of a phase, however many ticks have passed.
def flush (c : Checkpoint) (p : Progress) : Checkpoint :=
  if c.enabled then c.report p else c

def tickAll (c : Checkpoint) (snapshots : List Progress) : Checkpoint :=
  snapshots.foldl tick c

def marking (c : Checkpoint) (marked : Nat) : Checkpoint :=
  let snapshot := fun n => { phase := .mark, marked := n : Progress }
  (c.tickAll ((List.range marked).map fun i => snapshot (i + 1))).flush (snapshot marked)

def render (c : Checkpoint) : String :=
  s!"Checkpoint \x7b enabled: {c.enabled}, ticks: {c.ticks} \x7d"

end Checkpoint

end DeadCode
