import DeadCode.Proofs.Analysis.Dead
import DeadCode.Proofs.Plan

namespace DeadCode

namespace Project

variable {p : Project} {options : PruneOptions} {flag : Flags}

-- Whether somebody has looked for references to the code that a usage is part of. Code outside of
-- declarations goes with its file, so it is the declarations of the file that matter.
def Searched (p : Project) (u : Usage) : Prop :=
  match u.container with
  | some c => (p.flags.get (.declaration c)).contains .searched
  | none => ∃ f, p.files[u.file]? = some f ∧ f.declarations ≠ #[] ∧
    ∀ k ∈ f.declarations, (p.flags.get (.declaration k)).contains .searched

theorem isPrunable_of_ignore_nil (hi : options.ignore = []) (hd : p.declarations[k]? = some d) :
    p.isPrunable options k = !(p.flags.get (.declaration k)).isLive options.flag := by
  have hn : d.name.any options.ignore.covers = false := by
    cases d.name <;> simp [hi, IgnoreList.covers]
  have hf : options.ignore.covers (p.filename d.file) = false := by simp [hi, IgnoreList.covers]
  simp [isPrunable, hd, hn, hf]

-- Where all files may change and nothing is ignored, a declaration goes if it is dead.
theorem drops_plan_iff_not_live (hp : p.WellFormed) (hs : ∀ name, options.sources.allows name)
    (hi : options.ignore = []) (hd : p.declarations[k]? = some d) :
    (p.plan options).Drops k ↔ (p.flags.get (.declaration k)).isLive options.flag = false := by
  simp [drops_plan_iff hp, isPrunable_of_ignore_nil hi hd, hd, hs]

end Project

namespace MarkedProject

variable {promoted : String → Bool} {m : Manifest} {p : Project}
variable {mode : Mode} {options : PruneOptions}

theorem wellFormed_ofProject (hp : p.WellFormed) : (ofProject p).project.WellFormed :=
  project_ofProject p ▸ hp.withFlags _

variable (h : Manifest.Ingested promoted m.files m.usages p)
include h

theorem contains_flag_of_leads (hl : p.Leads mode x y)
    (hx : ((ofProject p).project.flags.get x).contains mode.flag) :
    ((ofProject p).project.flags.get y).contains mode.flag := by
  rw [contains_flag h] at hx ⊢
  exact hx.step h.wellFormed hl

section

variable (hf : options.flag = mode.flag) (hs : ∀ name, options.sources.allows name)
variable (hi : options.ignore = []) {k : Nat}
include hf hs hi

-- What has been searched and stays is reached. A file that is not reached has no declaration that is
-- reached, so if all of them have been searched, it goes.
theorem contains_flag_of_spares (hu : p.usages[k]? = some u)
    (hk : ((ofProject p).project.plan options).Spares u) (hl : (ofProject p).project.Searched u) :
    ((ofProject p).project.flags.get u.owner).contains mode.flag := by
  have hp := wellFormed_ofProject h.wellFormed
  cases hc : u.container <;> simp only [Project.Searched, Usage.owner, hc] at hl ⊢
  case some c =>
    obtain ⟨d, hd, _⟩ := (h.wellFormed.fits hu).container hc
    rw [← declarations_ofProject] at hd
    -- A declaration that stays is reached, unless nobody has looked for it.
    have := hk.container c hc
    rw [Project.drops_plan_iff_not_live hp hs hi hd, hf] at this
    simpa [Flags.isLive, hl] using this
  case none =>
    by_contra hn
    obtain ⟨f, hf', he, ha⟩ := hl
    refine hk.file <| Project.deletes_plan_iff.mpr ⟨f, hf', hs _, ?entry, he, ?prunable⟩
    case entry =>
      -- An entry file would be reached.
      rw [← Bool.not_eq_true]
      intro hb
      rw [files_ofProject] at hf'
      exact hn <| contains_flag h mode _ |>.mpr <|
        Project.Reachable.project.step h.wellFormed <| .entry hf' hb
    case prunable =>
      intro k hk
      obtain ⟨d, hd, hi'⟩ := hp.declaration_of_mem hf' hk
      rw [Project.isPrunable_of_ignore_nil hi hd, hf]
      rw [declarations_ofProject] at hd
      -- A declaration that is reached would load the file.
      have : ¬((ofProject p).project.flags.get (.declaration k)).contains mode.flag :=
        fun hx => hn <| hi' ▸ contains_flag_of_leads h (.loads hd) hx
      simpa [Flags.isLive, ha k hk] using this

theorem not_drops_target (hu : p.usages[k]? = some u) (hc : mode.counts u.kind)
    (hk : ((ofProject p).project.plan options).Spares u)
    (hl : ((ofProject p).project.flags.get u.owner).contains mode.flag ∨
      (ofProject p).project.Searched u) :
    ¬((ofProject p).project.plan options).Drops u.target := by
  have hp := wellFormed_ofProject h.wellFormed
  have ho : ((ofProject p).project.flags.get u.owner).contains mode.flag :=
    hl.elim id (contains_flag_of_spares h hf hs hi hu hk)
  have ht := contains_flag_of_leads h (.means hu) <| contains_flag_of_leads h (.emits hu hc) ho
  have ⟨d, hd⟩ : ∃ d, p.declarations[u.target]? = some d :=
    ⟨_, Array.getElem?_eq_getElem (h.wellFormed.fits hu).target⟩
  rw [← declarations_ofProject] at hd
  simp [Project.drops_plan_iff_not_live hp hs hi hd, hf, Flags.isLive, ht]

end

end MarkedProject

-- Nothing that stays refers to something that goes, unless it stays only because nobody has looked
-- for references to it.
theorem Settings.no_dangling_usage {s : Settings} (h : s.analyze m = .ok a) (hs : s.sources = [])
    (hi : s.ignore = []) {k : Nat} (hu : a.project.usages[k]? = some u) (hk : u.kind = .checker)
    (hp : a.plan.Spares u)
    (hl : (a.project.flags.get u.owner).contains s.sweepFlag ∨ a.project.Searched u) :
    ¬a.plan.Drops u.target := by
  have ⟨entrypoints, sources, p, _, hs', hm, ha⟩ := analyze_ok h
  subst ha
  have hu : p.usages[k]? = some u := by rwa [← MarkedProject.usages_ofProject]
  have hm := Manifest.toProject_ok hm
  refine MarkedProject.not_drops_target hm rfl ?sources ?ignore hu ?counts hp hl
  case sources =>
    rw [hs] at hs'
    cases hs'
    exact fun _ => rfl
  case ignore => simp [hi, IgnoreList.ofStrings]
  case counts => simp [hk, Mode.counts]

theorem Settings.analyze_sample : ∃ a, ({ root := "" } : Settings).analyze .sample = .ok a ∧
    a.plan = [⟨1, "lib.ts", [2], .snip [⟨20, 20, 30, by decide, by decide⟩]⟩] ∧
    a.project.usages = #[⟨.checker, 0, none, 0, 0⟩, ⟨.checker, 1, some 1, 15, 2⟩,
      ⟨.checker, 2, none, 15, 2⟩, ⟨.checker, 3, none, 0, 2⟩] ∧
    (a.project.flags.get (.file 0)).contains .reachedByChecker :=
  exists_ok (by cbv)

theorem Settings.no_dangling_usage_sample : ∃ a u,
    ({ root := "" } : Settings).analyze .sample = .ok a ∧ a.project.usages[0]? = some u ∧
    u.kind = .checker ∧ a.plan.Spares u ∧ (a.project.flags.get u.owner).contains .reachedByChecker ∧
    ¬a.plan.Drops u.target := by
  have ⟨a, h, hp, hu, hf⟩ := analyze_sample
  have hu : a.project.usages[0]? = some ⟨.checker, 0, none, 0, 0⟩ := by simp [hu]
  have hs : a.plan.Spares ⟨.checker, 0, none, 0, 0⟩ := ⟨by simp [Plan.Deletes, hp], by simp⟩
  exact ⟨a, _, h, hu, rfl, hs, hf, no_dangling_usage h rfl rfl hu rfl hs (.inl hf)⟩

-- None of the usages of the helper is reached, but the text of all of them stays.
theorem Settings.unsearched_usage_dangles : ∃ a, ({ root := "" } : Settings).analyze .sample = .ok a ∧
    ∀ k ∈ [1, 2, 3], ∃ u, a.project.usages[k]? = some u ∧ u.kind = .checker ∧ a.plan.Spares u ∧
      a.plan.Drops u.target := by
  have ⟨a, h, hp, hu, _⟩ := analyze_sample
  refine ⟨a, h, ?_⟩
  simp [hu, hp, Plan.spares_iff, Plan.Deletes, Plan.Drops]

end DeadCode
