import DeadCode.Analysis.Basic
import DeadCode.Proofs.Manifest.Live

namespace DeadCode

theorem Mode.flag_disjoint (mode : Mode) : mode.flag.bits &&& Flags.searched.bits = 0 := by
  cases mode <;> decide

namespace Project

variable {p : Project} {mode : Mode} {flag other : Flags}

theorem mark_fst (p : Project) (flag : Flags) (mode : Mode) :
    (p.mark flag mode).1 = { p with flags := (p.mark flag mode).1.flags } := by
  unfold mark
  split <;> rfl

theorem successors_withFlags (table : FlagTable) :
    { p with flags := table }.successors mode = p.successors mode := by
  funext x
  cases x <;> rfl

theorem reachable_withFlags (table : FlagTable) :
    { p with flags := table }.Reachable mode = p.Reachable mode := by
  rw [Reachable, Reachable, successors_withFlags]

-- Where no node carries the flag, nothing is in the way.
theorem reached_iff_reachable (hf : ∀ x, (p.flags.get x).contains flag = false) :
    p.Reached flag mode x ↔ p.Reachable mode x := by
  have : flagged p.flags flag = ∅ := by
    ext x
    simp [flagged, hf]
  rw [Reached, Reachable, this]

open Classical in
theorem contains_mark_of_disjoint (hp : p.WellFormed) (hd : flag.bits &&& other.bits = 0) (x : Node) :
    ((p.mark flag mode).1.flags.get x).contains other = (p.flags.get x).contains other := by
  rw [flags_mark hp]
  split
  case isTrue => exact Flags.contains_insert_of_disjoint hd
  case isFalse => rfl

open Classical in
theorem contains_mark_self (hp : p.WellFormed) (hf : ∀ x, (p.flags.get x).contains flag = false)
    (x : Node) : ((p.mark flag mode).1.flags.get x).contains flag ↔ p.Reachable mode x := by
  rw [flags_mark hp, ← reached_iff_reachable hf]
  split
  case isTrue h => simpa using h
  case isFalse h => simpa [hf] using h

theorem WellFormed.mark (hp : p.WellFormed) (flag : Flags) (mode : Mode) :
    (p.mark flag mode).1.WellFormed :=
  mark_fst p flag mode ▸ hp.withFlags _

end Project

namespace MarkedProject

variable {promoted : String → Bool} {m : Manifest} {p : Project}

theorem project_ofProject (p : Project) :
    (ofProject p).project = { p with flags := (ofProject p).project.flags } := by
  simp only [ofProject]
  rw [Project.mark_fst, Project.mark_fst]

@[simp]
theorem files_ofProject (p : Project) : (ofProject p).project.files = p.files := by
  rw [project_ofProject]

@[simp]
theorem declarations_ofProject (p : Project) :
    (ofProject p).project.declarations = p.declarations := by
  rw [project_ofProject]

@[simp]
theorem usages_ofProject (p : Project) : (ofProject p).project.usages = p.usages := by
  rw [project_ofProject]

@[simp]
theorem filename_ofProject (p : Project) (i : Nat) :
    (ofProject p).project.filename i = p.filename i := by
  rw [Project.filename, files_ofProject, Project.filename]

variable (h : Manifest.Ingested promoted m.files m.usages p)
include h

-- Nothing is marked while a project is built.
theorem contains_flag_of_ingested (mode : Mode) (x : Node) :
    (p.flags.get x).contains mode.flag = false := by
  have hn : Flags.none.contains mode.flag = false := by cases mode <;> decide
  have hs : Flags.searched.contains mode.flag = false := by cases mode <;> decide
  rw [h.flags]
  cases x <;> grind [Manifest.searchFlags]

theorem contains_flag (mode : Mode) (x : Node) :
    ((ofProject p).project.flags.get x).contains mode.flag ↔ p.Reachable mode x := by
  have hp := h.wellFormed
  have hn := contains_flag_of_ingested h
  let q := (p.mark Mode.strict.flag .strict).1
  have hq : q = { p with flags := q.flags } := p.mark_fst _ _
  cases mode
  case strict =>
    -- The second run leaves the flag of the first alone.
    rw [ofProject, Project.contains_mark_of_disjoint (hp.mark _ _) (by decide)]
    exact Project.contains_mark_self hp (hn .strict) x
  case fuzzy =>
    -- The first run puts no flag in the way of the second.
    have hf (x) : (q.flags.get x).contains Mode.fuzzy.flag = false := by
      rw [Project.contains_mark_of_disjoint hp (by decide)]
      exact hn .fuzzy x
    have hr : q.Reachable .fuzzy = p.Reachable .fuzzy := hq ▸ Project.reachable_withFlags _
    rw [ofProject, Project.contains_mark_self (hp.mark _ _) hf, hr]

theorem contains_searched (x : Node) :
    ((ofProject p).project.flags.get x).contains .searched =
      (Manifest.searchFlags m.files x).contains .searched := by
  have hp := h.wellFormed
  rw [ofProject, Project.contains_mark_of_disjoint (hp.mark _ _) (Mode.flag_disjoint _),
    Project.contains_mark_of_disjoint hp (Mode.flag_disjoint _), h.flags]

end MarkedProject

end DeadCode
