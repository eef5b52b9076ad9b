import DeadCode.Proofs.Analysis.Dead

namespace DeadCode

namespace Project

variable {p : Project} {options : PruneOptions} {k : Nat}

theorem successors_subset (p : Project) (x : Node) :
    p.successors .strict x ⊆ p.successors .fuzzy x := by
  cases x
  case project => exact List.Subset.refl _
  case file i => cases hf : p.files[i]? <;> simp [successors, hf, Mode.followsGrep]
  case declaration i => cases hd : p.declarations[i]? <;> simp [successors, hd, Mode.followsGrep]
  case usage => exact List.Subset.refl _

theorem Reachable.fuzzy (h : p.Reachable .strict x) : p.Reachable .fuzzy x :=
  Worklist.Found.mono p.successors_subset h

-- All that is reached in the strict mode is reached in the fuzzy one.
def Nested (p : Project) : Prop :=
  ∀ x, (p.flags.get x).contains .reachedByChecker → (p.flags.get x).contains .reachedByGrep

variable (h : p.Nested)
include h

theorem Nested.isPrunable (k : Nat) : p.isPrunable { options with flag := .reachedByGrep } k =
    (p.isPrunable { options with flag := .reachedByChecker } k &&
      !(p.flags.get (.declaration k)).contains .reachedByGrep) := by
  have hk := h (.declaration k)
  cases hd : p.declarations[k]?
  case none => simp [Project.isPrunable, hd]
  case some d =>
    simp only [Project.isPrunable, hd, Flags.isLive]
    cases hc : (p.flags.get (.declaration k)).contains .reachedByChecker
    case false => simp only [Bool.false_or, Bool.not_or, Bool.and_assoc, Bool.and_comm, Bool.and_left_comm]
    case true => simp [hk hc]

theorem Nested.deadItem? (k : Nat) : p.deadItem? { options with flag := .reachedByGrep } k =
    (p.deadItem? { options with flag := .reachedByChecker } k).filter (·.kind = .unreferenced) := by
  cases hd : p.declarations[k]?
  case none => simp [Project.deadItem?, hd]
  case some d =>
    rw [deadItem?_of_some hd, deadItem?_of_some hd, h.isPrunable]
    cases p.isPrunable { options with flag := .reachedByChecker } k
    case false => rfl
    case true => cases (p.flags.get (.declaration k)).contains .reachedByGrep <;> rfl

theorem Nested.deadItems (options : PruneOptions) : p.deadItems { options with flag := .reachedByGrep } =
    (p.deadItems { options with flag := .reachedByChecker }).filter (·.kind = .unreferenced) := by
  rw [Project.deadItems, Project.deadItems, List.filter_filterMap]
  exact List.filterMap_congr fun k _ => h.deadItem? k

end Project

theorem MarkedProject.nested {m : Manifest} (h : Manifest.Ingested promoted m.files m.usages p) :
    (ofProject p).project.Nested := by
  intro x hx
  have hr : p.Reachable .strict x := contains_flag h .strict x |>.mp hx
  exact contains_flag h .fuzzy x |>.mpr hr.fuzzy

-- What it means that a strict and a fuzzy analysis are consistent:
-- 1. both look at one project with one set of marks
-- 2. what is reached in the strict mode is reached in the fuzzy one
-- 3. what the fuzzy analysis reports is reached in no mode
-- 4. it reports the same as the strict one, in the same order, but for what textual usages speak for
structure Analysis.Consistent (strict fuzzy : Analysis) : Prop where
  marked : fuzzy.marked = strict.marked
  nested : strict.project.Nested
  kinds  : ∀ item ∈ fuzzy.dead, item.kind ≠ .grepOnly
  dead   : fuzzy.dead = strict.dead.filter (·.kind = .unreferenced)

theorem Analysis.consistent_ofMarked {marked : MarkedProject} (h : marked.project.Nested)
    (s : Settings) (sources : GlobList) :
    Consistent (.ofMarked { s with followGrep := false } sources marked)
      (.ofMarked { s with followGrep := true } sources marked) := by
  have hd := h.deadItems ⟨.none, sources, .ofStrings s.ignore⟩
  refine ⟨rfl, h, ?_, hd⟩
  intro item hm
  have hm : item ∈ marked.project.deadItems ⟨.reachedByGrep, sources, .ofStrings s.ignore⟩ := hm
  rw [hd] at hm
  have := List.mem_filter.mp hm |>.right
  simp_all

namespace Settings

variable {s : Settings} {m : Manifest}

-- The part of an analysis in which the mode plays no role.
def survey (s : Settings) (m : Manifest) : Except AnalysisError (GlobList × MarkedProject) := do
  let entrypoints ← (GlobList.ofStrings s.entrypoints).mapError .entrypoints
  let project ← (m.toProject entrypoints.covers).mapError .ingest
  let marked := MarkedProject.ofProject project
  let sources ← (GlobList.ofStrings s.sources).mapError (.sources · marked)
  return (sources, marked)

theorem analyze_eq_survey (s : Settings) (m : Manifest) :
    s.analyze m = (fun x => .ofMarked s x.1 x.2) <$> s.survey m := by
  simp only [analyze, survey, map_bind, map_pure]

theorem nested_of_survey (h : s.survey m = .ok x) : x.2.project.Nested := by
  have ⟨_, _, h⟩ := bind_ok h
  have ⟨_, hp, h⟩ := bind_ok h
  have ⟨_, _, h⟩ := bind_ok h
  cases h
  exact MarkedProject.nested (Manifest.toProject_ok (mapError_ok hp))

-- The mode makes no difference to whether an analysis succeeds, and what is found in the fuzzy mode can
-- be read off what is found in the strict one.
theorem analyze_modes (s : Settings) (m : Manifest) :
    (∃ e, ∀ followGrep, { s with followGrep }.analyze m = .error e) ∨
    ∃ strict fuzzy, { s with followGrep := false }.analyze m = .ok strict ∧
      { s with followGrep := true }.analyze m = .ok fuzzy ∧ strict.Consistent fuzzy := by
  have ha (followGrep) : { s with followGrep }.analyze m =
      (fun x => .ofMarked { s with followGrep } x.1 x.2) <$> s.survey m := analyze_eq_survey ..
  cases h : s.survey m <;> rw [h] at ha
  case error e => exact .inl ⟨e, ha⟩
  case ok x =>
    exact .inr ⟨_, _, ha false, ha true, Analysis.consistent_ofMarked (nested_of_survey h) s x.1⟩

end Settings

end DeadCode
