import DeadCode.Fix.Basic

namespace DeadCode.Fix

def summary (fix : Fix) : String :=
  s!"\n=== {fix.mode} Summary ===\n" ++
  s!"Files edited: {fix.edited.length}\n" ++
  s!"Files removed: {fix.removed.length}\n" ++
  s!"Lines removed: {fix.linesRemoved}\n" ++
  if fix.hasErrors then s!"Errors: {fix.errors.length}\n" else ""

def complaints (fix : Fix) : String :=
  String.join (fix.errors.map fun error => s!"  - {error}\n")

end DeadCode.Fix
