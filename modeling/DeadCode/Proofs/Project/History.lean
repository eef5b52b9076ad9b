import DeadCode.Proofs.Project.WellFormed

namespace DeadCode

-- A call that registers something. The numbers it is given may be those of nothing at all.
inductive Registration
  | file (filename : String) (isEntrypoint : Bool)
  | declaration (file : Nat) (name : Option String) (isExport : Bool) (span : Span)
  | usage (u : Usage)

namespace Project

def register : Registration → EStateM GraphFault Project Nat
  | .file filename isEntrypoint => addFile filename isEntrypoint
  | .declaration file name isExport span => addDeclaration file name isExport span
  | .usage u => addUsage u

-- The project as a call leaves it behind, whether or not the call is refused.
def afterwards (p : Project) (r : Registration) : Project :=
  match (register r).run p with
  | .ok _ q => q
  | .error _ q => q

-- The project after a sequence of calls.
def ofRegistrations (rs : List Registration) : Project :=
  rs.foldl afterwards .empty

variable {p q : Project} {r : Registration} {id : Nat}

-- No call changes anything before it has made all of its checks.
theorem register_error (h : (register r).run p = .error fault q) : q = p := by
  cases r
  case file        => exact (addFile_error h).right.right
  case declaration => exact (addDeclaration_error h).right
  case usage       => exact (addUsage_error h).right

theorem afterwards_of_error (h : (register r).run p = .error fault q) : p.afterwards r = p := by
  rw [afterwards, h, register_error h]

theorem WellFormed.register (hp : p.WellFormed) (h : (register r).run p = .ok id q) : q.WellFormed := by
  cases r
  case file        => exact hp.addFile h
  case declaration => exact hp.addDeclaration h
  case usage       => exact hp.addUsage h

theorem WellFormed.afterwards (hp : p.WellFormed) (r : Registration) : (p.afterwards r).WellFormed := by
  cases h : (Project.register r).run p
  case ok =>
    rw [Project.afterwards, h]
    exact hp.register h
  case error => rwa [afterwards_of_error h]

theorem wellFormed_ofRegistrations (rs : List Registration) : (ofRegistrations rs).WellFormed :=
  List.foldlRecOn rs _ empty_wellFormed fun _ hp r _ => hp.afterwards r

end Project

end DeadCode
