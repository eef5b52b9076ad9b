import DeadCode.Proofs.Analysis.Agreement

namespace DeadCode

namespace Manifest

variable {promoted promoted' : String → Bool} {mode : Mode} {m : Manifest} {more : List UsageEntry}

-- The manifest with further usages.
def extend (m : Manifest) (more : List UsageEntry) : Manifest :=
  { m with usages := m.usages ++ more }

section

variable (he : ∀ name, promoted name → promoted' name)
include he

theorem Live.extend (h : Live promoted mode m r) : Live promoted' mode (m.extend more) r :=
  h.mono he (List.Subset.refl m.files) (List.subset_append_left _ _) fun _ _ => rfl

theorem Dead.of_extend (h : Dead promoted' mode ignore (m.extend more) x) :
    Dead promoted mode ignore m x :=
  { h with stranded := mt (Live.extend he) h.stranded }

end

end Manifest

-- An analysis to which a predicate tells the further entry files, and no patterns.
def Settings.analyzeFrom (s : Settings) (promoted : String → Bool) (m : Manifest) :
    Except AnalysisError Analysis := do
  let project ← (m.toProject promoted).mapError .ingest
  let marked := MarkedProject.ofProject project
  let sources ← (GlobList.ofStrings s.sources).mapError (.sources · marked)
  return .ofMarked s sources marked

theorem Settings.analyze_eq (s : Settings) (m : Manifest) : s.analyze m =
    (GlobList.ofStrings s.entrypoints).mapError .entrypoints >>= fun entrypoints =>
      s.analyzeFrom entrypoints.covers m :=
  rfl

theorem Settings.analyzeFrom_ok {s : Settings} (h : s.analyzeFrom promoted m = .ok a) :
    ∃ sources p, GlobList.ofStrings s.sources = .ok sources ∧ m.toProject promoted = .ok p ∧
      a = .ofMarked s sources (.ofProject p) := by
  have ⟨p, hp, h⟩ := bind_ok h
  have ⟨sources, hs, h⟩ := bind_ok h
  cases h
  exact ⟨sources, p, mapError_ok hs, mapError_ok hp, rfl⟩

-- What it means that an analysis `b` lets go of nothing that stays in an analysis `a`:
-- 1. numbers stand for the same files and declarations in both
-- 2. whatever `b` reports is reported by `a`
-- 3. whatever the plan of `b` takes away is taken away by that of `a`, be it a declaration
-- 4. or a file
structure Analysis.Within (b a : Analysis) (options : PruneOptions) : Prop where
  filenames    : b.project.files.map File.filename = a.project.files.map File.filename
  declarations : b.project.outline.declarations = a.project.outline.declarations
  reported     : List.Forall₂ b.project.Reports (b.project.prunable options) b.dead ∧
    List.Forall₂ a.project.Reports (a.project.prunable options) a.dead ∧
    (b.project.prunable options).Sublist (a.project.prunable options)
  dropped      : ∀ {k}, b.plan.Drops k → a.plan.Drops k
  deleted      : ∀ {i}, b.plan.Deletes i → a.plan.Deletes i

namespace Manifest

variable {promoted promoted' : String → Bool} {mode : Mode} {m : Manifest} {more : List UsageEntry}
variable {p q : Project} {options : PruneOptions} {i k : Nat}

variable (he : ∀ name, promoted name → promoted' name)
variable (hp : Ingested promoted m.files m.usages p)
variable (hq : Ingested promoted' (m.extend more).files (m.extend more).usages q)
include he hp hq

theorem isPrunable_of_extend (ho : options.flag = mode.flag)
    (h : (MarkedProject.ofProject q).project.isPrunable options k) :
    (MarkedProject.ofProject p).project.isPrunable options k := by
  have ⟨d, hd, _⟩ := Project.isPrunable_iff.mp h
  rw [MarkedProject.declarations_ofProject] at hd
  have ⟨x, hx, _⟩ := hq.listed_of_declaration hd
  have hx' : m.listed[k]? = some x := hx
  rw [hp.isPrunable_iff_dead options ho hx']
  exact (hq.isPrunable_iff_dead options ho hx |>.mp h).of_extend he

theorem prunable_sublist_of_extend (ho : options.flag = mode.flag) :
    ((MarkedProject.ofProject q).project.prunable options).Sublist
      ((MarkedProject.ofProject p).project.prunable options) := by
  have hs : q.declarations.size = p.declarations.size :=
    hq.size_declarations.trans hp.size_declarations.symm
  simp only [Project.prunable, MarkedProject.declarations_ofProject, hs]
  exact List.monotone_filter_right _ fun k => isPrunable_of_extend he hp hq ho

-- The further entry files are the only files that are not what they were.
theorem file_of_extend (hf : q.files[i]? = some f) : ∃ g, p.files[i]? = some g ∧
    g.filename = f.filename ∧ g.declarations = f.declarations ∧ (g.isEntrypoint → f.isEntrypoint) := by
  have ⟨e, hi, hn, hb⟩ := hq.entry_of_file hf
  have ⟨g, hg, hn', hb'⟩ := hp.file_of_entry hi
  have hl := (hp.listAt_files hi).trans (hq.listAt_files hi).symm
  simp only [listAt, hf, hg, Option.map_some, Option.elim_some] at hl
  exact ⟨g, hg, hn'.trans hn.symm, Array.toList_inj.mp hl,
    fun h => hb ▸ FileEntry.isEntry_mono he (hb' ▸ h)⟩

theorem drops_of_extend (ho : options.flag = mode.flag)
    (h : ((MarkedProject.ofProject q).project.plan options).Drops k) :
    ((MarkedProject.ofProject p).project.plan options).Drops k := by
  have hwp := MarkedProject.wellFormed_ofProject hp.wellFormed
  have hwq := MarkedProject.wellFormed_ofProject hq.wellFormed
  have ⟨hk, d, hd, ha⟩ := Project.drops_plan_iff hwq |>.mp h
  rw [MarkedProject.declarations_ofProject] at hd
  have ⟨x, hx, hm⟩ := hq.listed_of_declaration hd
  have ⟨d', hd', hm'⟩ := hp.declaration_of_listed hx
  refine Project.drops_plan_iff hwp |>.mpr ⟨isPrunable_of_extend he hp hq ho hk, d', ?_, ?_⟩
  · rwa [MarkedProject.declarations_ofProject]
  · rw [MarkedProject.filename_ofProject, hm'.file, hp.filename_of_listed hx]
    rwa [MarkedProject.filename_ofProject, hm.file, hq.filename_of_listed hx] at ha

theorem deletes_of_extend (ho : options.flag = mode.flag)
    (h : ((MarkedProject.ofProject q).project.plan options).Deletes i) :
    ((MarkedProject.ofProject p).project.plan options).Deletes i := by
  have ⟨f, hf, ha, hb, hn, hd⟩ := Project.deletes_plan_iff.mp h
  rw [MarkedProject.files_ofProject] at hf
  have ⟨g, hg, hn', hd', hb'⟩ := file_of_extend he hp hq hf
  refine Project.deletes_plan_iff.mpr ⟨g, ?_, hn' ▸ ha, ?_, hd' ▸ hn, ?_⟩
  · rwa [MarkedProject.files_ofProject]
  · simpa [hb] using hb'
  · exact fun k hk => isPrunable_of_extend he hp hq ho (hd k (hd' ▸ hk))

end Manifest

-- Whoever knows of more usages and more entry files does not let go of anything more.
theorem Settings.analyzeFrom_within {s : Settings} (he : ∀ name, promoted name → promoted' name)
    (h : s.analyzeFrom promoted m = .ok a) (h' : s.analyzeFrom promoted' (m.extend more) = .ok b) :
    ∃ sources, GlobList.ofStrings s.sources = .ok sources ∧
      b.Within a ⟨s.sweepFlag, sources, .ofStrings s.ignore⟩ := by
  have ⟨sources, p, hs, hp, ha⟩ := analyzeFrom_ok h
  have ⟨sources', q, hs', hq, hb⟩ := analyzeFrom_ok h'
  cases hs.symm.trans hs'
  have hp := Manifest.toProject_ok hp
  have hq := Manifest.toProject_ok hq
  subst ha hb
  refine ⟨sources, hs, ?_⟩
  exact {
    filenames := by
      simp only [Analysis.project, Analysis.ofMarked, MarkedProject.files_ofProject]
      exact hp.filenames_eq hq
    declarations := by
      simp only [Analysis.project, Analysis.ofMarked, MarkedProject.declarations_ofProject,
        Project.outline]
      exact hp.declarations_eq hq
    reported := ⟨Project.reports_deadItems, Project.reports_deadItems,
      Manifest.prunable_sublist_of_extend he hp hq rfl⟩
    dropped := Manifest.drops_of_extend he hp hq rfl
    deleted := Manifest.deletes_of_extend he hp hq rfl }

-- Once the main file is known to use the second declaration of `old.ts`, and `stale.ts` to be an entry
-- file, only the first declaration of `old.ts` still goes.
theorem Settings.analyzeFrom_within_leftover : ∃ a b,
    ({ root := "" } : Settings).analyzeFrom (fun _ => false) .leftover = .ok a ∧
    ({ root := "" } : Settings).analyzeFrom (· == "stale.ts") (Manifest.leftover.extend
      [{ kind := .checker, file := "main.ts", target := ⟨"old.ts", 1⟩ }]) = .ok b ∧
    a.plan = [⟨1, "old.ts", [1, 2], .delete⟩, ⟨2, "stale.ts", [3], .delete⟩] ∧
    b.plan = [⟨1, "old.ts", [1], .snip [⟨0, 2, 12, by decide, by decide⟩]⟩] ∧
    ∃ sources, GlobList.ofStrings [] = .ok sources ∧ b.Within a ⟨.reachedByChecker, sources, []⟩ := by
  obtain ⟨a, h, ha⟩ : ∃ a, ({ root := "" } : Settings).analyzeFrom (fun _ => false) .leftover = .ok a ∧
      a.plan = [⟨1, "old.ts", [1, 2], .delete⟩, ⟨2, "stale.ts", [3], .delete⟩] :=
    exists_ok (by cbv)
  obtain ⟨b, h', hb⟩ : ∃ b, ({ root := "" } : Settings).analyzeFrom (· == "stale.ts")
      (Manifest.leftover.extend [{ kind := .checker, file := "main.ts", target := ⟨"old.ts", 1⟩ }]) =
        .ok b ∧ b.plan = [⟨1, "old.ts", [1], .snip [⟨0, 2, 12, by decide, by decide⟩]⟩] :=
    exists_ok (by cbv)
  exact ⟨a, b, h, h', ha, hb, analyzeFrom_within (by simp) h h'⟩

end DeadCode
