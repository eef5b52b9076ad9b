import DeadCode.Proofs.Analysis.Findings
import DeadCode.Proofs.Manifest.Consistent

namespace DeadCode

namespace Manifest

-- Two manifests that list the same entries.
structure Reorders (m' m : Manifest) : Prop where
  files  : m'.files.Perm m.files
  usages : m'.usages.Perm m.usages

section

variable {promoted : String → Bool} {mode : Mode} {ignore : IgnoreList} {m m' : Manifest}

theorem Reorders.symm (h : m'.Reorders m) : m.Reorders m' :=
  ⟨h.files.symm, h.usages.symm⟩

theorem Lists.mono (hf : fs ⊆ gs) (h : Lists fs t) : Lists gs t := by
  have ⟨f, hm, h⟩ := h
  exact ⟨f, hf hm, h⟩

theorem UsageEntry.Consistent.mono {e : UsageEntry} (hf : fs ⊆ gs) (h : e.Consistent fs) :
    e.Consistent gs where
  file := by
    have ⟨f, hm, h⟩ := h.file
    exact ⟨f, hf hm, h⟩
  target := h.target.mono hf
  container j hj := h.container j hj |>.mono hf

theorem Consistent.reorder (h : m'.Reorders m) (hc : m'.Consistent) : m.Consistent where
  filenames := h.files.map _ |>.nodup_iff.mp hc.filenames
  usages e he := hc.usages e (h.usages.symm.subset he) |>.mono h.files.subset

theorem toProject_succeeds_iff (promoted : String → Bool) :
    (∃ p, m.toProject promoted = .ok p) ↔ m.Consistent := by
  constructor
  case mp =>
    intro ⟨p, h⟩
    have h := toProject_ok h
    exact ⟨h.filenames, fun e he => h.usages_consistent he⟩
  case mpr =>
    intro hc
    cases h : m.toProject promoted
    case error => exact absurd hc (firstFault_of_toProject h).not_consistent
    case ok p => exact ⟨p, rfl⟩

-- A file is found by its name, wherever it is listed.
theorem find?_filename_perm {fs gs : List FileEntry} (hn : (fs.map FileEntry.filename).Nodup)
    (hp : fs.Perm gs) (name : String) :
    fs.find? (·.filename = name) = gs.find? (·.filename = name) := by
  by_cases h : ∃ f ∈ fs, f.filename = name
  case pos =>
    obtain ⟨f, hf, rfl⟩ := h
    rw [find?_filename hn hf, find?_filename (hp.map _ |>.nodup_iff.mp hn) (hp.subset hf)]
  case neg =>
    have hf : fs.find? (·.filename = name) = none := by simpa using h
    have hg : gs.find? (·.filename = name) = none := by simpa [hp.mem_iff] using h
    rw [hf, hg]

theorem regionOf_perm (hn : (fs.map FileEntry.filename).Nodup) (hp : fs.Perm gs) (e : UsageEntry) :
    regionOf fs e = regionOf gs e := by
  simp only [regionOf, containerOf, find?_filename_perm hn hp]

section

variable (hn : (m'.files.map FileEntry.filename).Nodup) (h : m'.Reorders m)
include hn h

theorem live_reorder : Live promoted mode m' = Live promoted mode m := by
  ext r
  have hr (e) := regionOf_perm hn h.files e
  constructor
  case mp => exact .mono (fun _ => id) h.files.subset h.usages.subset fun e _ => hr e
  case mpr => exact .mono (fun _ => id) h.symm.files.subset h.symm.usages.subset fun e _ => (hr e).symm

theorem dead_reorder : Dead promoted mode ignore m' = Dead promoted mode ignore m := by
  have hl : Live promoted mode m' = Live promoted mode m := live_reorder hn h
  ext x
  exact ⟨fun h => { h with stranded := hl ▸ h.stranded }, fun h => { h with stranded := hl ▸ h.stranded }⟩

theorem report_reorder : Listed.report promoted m' = Listed.report promoted m := by
  funext x
  unfold Listed.report
  rw [live_reorder hn h]

end

-- The numbers of the files do not matter to what does not look at them.
theorem filterMap_listing {g : Listed → Option β} (hg : ∀ x n, g { x with file := n } = g x) :
    (listing n fs).filterMap g = fs.flatMap fun f => (f.listing 0).filterMap g := by
  have hf (f : FileEntry) (n : Nat) : (f.listing n).filterMap g = (f.listing 0).filterMap g := by
    have hl : f.listing n = (f.listing 0).map ({ · with file := n }) := by
      apply List.ext_getElem?
      simp [FileEntry.getElem?_listing, Function.comp_def]
    rw [hl, List.filterMap_map]
    exact List.filterMap_congr fun x _ => hg x n
  induction fs generalizing n
  case nil => rfl
  case cons f fs hi => rw [listing, List.filterMap_append, hf, hi, List.flatMap_cons]

section

variable (h : m'.Reorders m)
include h

theorem filterMap_listed_perm {g : Listed → Option β} (hg : ∀ x n, g { x with file := n } = g x) :
    (m'.listed.filterMap g).Perm (m.listed.filterMap g) := by
  rw [listed, listed, filterMap_listing hg, filterMap_listing hg]
  exact h.files.flatMap_right _

variable (hn : (m'.files.map FileEntry.filename).Nodup)
include hn

theorem item?_reorder : Listed.item? promoted mode ignore m' = Listed.item? promoted mode ignore m := by
  funext x
  unfold Listed.item?
  rw [dead_reorder hn h, report_reorder hn h]

open Classical in
theorem deadTargets_perm :
    (deadTargets promoted mode ignore m').Perm (deadTargets promoted mode ignore m) := by
  unfold deadTargets
  rw [dead_reorder hn h]
  apply filterMap_listed_perm h
  exact fun x n => if_congr dead_withFile rfl rfl

theorem Refers.reorder (hr : m'.Refers promoted mode ignore s t) :
    m.Refers promoted mode ignore s t where
  source := deadTargets_perm h hn |>.mem_iff.mp hr.source
  target := deadTargets_perm h hn |>.mem_iff.mp hr.target
  usage := by
    have ⟨e, he, hc, hs, ht⟩ := hr.usage
    exact ⟨e, h.usages.mem_iff.mp he, hc, regionOf_perm hn h.files e ▸ hs, ht⟩

theorem refers_reorder : m'.Refers promoted mode ignore = m.Refers promoted mode ignore := by
  ext s t
  exact ⟨.reorder h hn, .reorder h.symm (h.files.map _ |>.nodup_iff.mp hn)⟩

theorem deadSpans_reorder :
    FileEntry.deadSpans promoted mode ignore m' = FileEntry.deadSpans promoted mode ignore m := by
  funext f
  unfold FileEntry.deadSpans
  rw [dead_reorder hn h]

theorem action_reorder :
    FileEntry.action promoted mode ignore m' = FileEntry.action promoted mode ignore m := by
  funext f
  simp only [FileEntry.action, deadSpans_reorder h hn]

end

end

end Manifest

-- Two analyses that find the same.
structure Analysis.Same (a b : Analysis) : Prop where
  dead   : a.dead = b.dead
  cycles : a.cycles = b.cycles
  plan   : a.plan = b.plan

-- Two analyses that find the same, be it under other numbers: they report the same declarations, see
-- cycles through the same ones, and plan the same for each file.
structure Analysis.Alike (a b : Analysis) : Prop where
  dead    : a.dead.Perm b.dead
  cycles  : ∀ ts, (∃ c ∈ a.cycles, ts = c.targets a.project) ↔ ∃ c ∈ b.cycles, ts = c.targets b.project
  actions : ∀ name action, (∃ x ∈ a.plan, x.filename = name ∧ x.action = action) ↔
    ∃ x ∈ b.plan, x.filename = name ∧ x.action = action

namespace Manifest

variable {promoted : String → Bool} {mode : Mode} {m m' : Manifest} {p q : Project}
variable (h : m'.Reorders m)
variable (hp : Ingested promoted m.files m.usages p) (hq : Ingested promoted m'.files m'.usages q)
include h hp hq

section

variable {options : PruneOptions} (ho : options.flag = mode.flag)
include ho

open Classical in
theorem deadItems_perm : ((MarkedProject.ofProject q).project.deadItems options).Perm
    ((MarkedProject.ofProject p).project.deadItems options) := by
  rw [hp.deadItems_eq_filterMap ho, hq.deadItems_eq_filterMap ho, item?_reorder h hq.filenames]
  exact filterMap_listed_perm h fun x n => if_congr dead_withFile rfl rfl

theorem exists_mem_find_reorder (hc : Digraph.ListsComponents components)
    (hc' : Digraph.ListsComponents components') :
    (∃ c ∈ Cycle.find (MarkedProject.ofProject q).project
      ((MarkedProject.ofProject q).project.isPrunable options) mode components',
      ts = c.targets (MarkedProject.ofProject q).project) ↔
    ∃ c ∈ Cycle.find (MarkedProject.ofProject p).project
      ((MarkedProject.ofProject p).project.isPrunable options) mode components,
      ts = c.targets (MarkedProject.ofProject p).project := by
  rw [hp.cycles_targets ho hc, hq.cycles_targets ho hc', refers_reorder h hq.filenames]

theorem exists_mem_plan_reorder :
    (∃ x ∈ (MarkedProject.ofProject q).project.plan options, x.filename = name ∧ x.action = action) ↔
      ∃ x ∈ (MarkedProject.ofProject p).project.plan options, x.filename = name ∧ x.action = action := by
  rw [hp.exists_mem_plan_iff ho, hq.exists_mem_plan_iff ho]
  simp only [deadSpans_reorder h hq.filenames, action_reorder h hq.filenames, h.files.mem_iff]

-- If only the usages have been reordered, the numbers are the same too.
variable (hf : m'.files = m.files)
include hf

theorem deadItems_reorder : (MarkedProject.ofProject q).project.deadItems options =
    (MarkedProject.ofProject p).project.deadItems options := by
  rw [hp.deadItems_eq_filterMap ho, hq.deadItems_eq_filterMap ho, item?_reorder h hq.filenames, listed,
    hf, listed]

theorem isPrunable_reorder : (MarkedProject.ofProject q).project.isPrunable options =
    (MarkedProject.ofProject p).project.isPrunable options := by
  funext k
  rw [Bool.eq_iff_iff, hp.isPrunable_iff_listed ho, hq.isPrunable_iff_listed ho,
    dead_reorder hq.filenames h, listed, hf, listed]

theorem find_reorder (hc : Digraph.ListsComponents components)
    (hc' : Digraph.ListsComponents components') :
    Cycle.find (MarkedProject.ofProject q).project
      ((MarkedProject.ofProject q).project.isPrunable options) mode components' =
    Cycle.find (MarkedProject.ofProject p).project
      ((MarkedProject.ofProject p).project.isPrunable options) mode components := by
  have ht : q.target? = p.target? := by
    funext k
    rw [hq.target?_eq, hp.target?_eq, listed, hf, listed]
  apply Cycle.find_eq_find hc' hc
  case hp => exact MarkedProject.wellFormed_ofProject hq.wellFormed
  case hq => exact MarkedProject.wellFormed_ofProject hp.wellFormed
  case hd =>
    have hd := congrArg (Array.map Declaration.name) (hp.declarations_eq (hf ▸ hq))
    simpa [Project.outline, Function.comp_def] using hd
  case hr =>
    ext i j
    rw [(hq.reflects_refers ho).iff, (hp.reflects_refers ho).iff, ht, refers_reorder h hq.filenames]

theorem plan_reorder : (MarkedProject.ofProject q).project.plan options =
    (MarkedProject.ofProject p).project.plan options := by
  have hs : q.files.size = p.files.size := by rw [hq.size_files, hf, hp.size_files]
  simp only [Project.plan, MarkedProject.files_ofProject, hs]
  apply List.filterMap_congr
  intro i hi
  have hi : i < m.files.length := by simpa [hp.size_files] using hi
  obtain ⟨f, hi⟩ : ∃ f, m.files[i]? = some f := ⟨_, List.getElem?_eq_getElem hi⟩
  rw [hp.planFile?_eq ho hi, hq.planFile?_eq ho (hf ▸ hi), isPrunable_reorder h hp hq ho hf,
    deadSpans_reorder h hq.filenames, action_reorder h hq.filenames, hf]

end

end Manifest

namespace Settings

variable {s : Settings} {m m' : Manifest}

theorem analyze_succeeds (h : m'.Reorders m) (ha : s.analyze m' components' = .ok a) :
    ∃ b, s.analyze m components = .ok b := by
  have ⟨entrypoints, sources, q, he, hs, hq, _⟩ := analyze_ok ha
  have ⟨p, hp⟩ := Manifest.toProject_succeeds_iff entrypoints.covers |>.mpr <|
    Manifest.toProject_succeeds_iff _ |>.mp ⟨q, hq⟩ |>.reorder h
  refine ⟨.ofMarked s sources (.ofProject p) components, ?_⟩
  simp [analyze, he, hs, hp, Except.mapError, bind, Except.bind, pure, Except.pure]

-- It suffices to look at analyses that have got through all of their stages.
theorem analyze_reorder {R : Analysis → Analysis → Prop} (h : m'.Reorders m)
    (hr : ∀ {promoted sources p q}, Manifest.Ingested promoted m.files m.usages p →
      Manifest.Ingested promoted m'.files m'.usages q →
      R (.ofMarked s sources (.ofProject q) components') (.ofMarked s sources (.ofProject p) components)) :
    Option.Rel R (s.analyze m' components').toOption (s.analyze m components).toOption := by
  cases ha : s.analyze m' components' <;> cases hb : s.analyze m components
  case error.error => exact .none
  case error.ok =>
    have ⟨a, ha'⟩ : ∃ a, s.analyze m' components' = .ok a := analyze_succeeds h.symm hb
    cases ha.symm.trans ha'
  case ok.error =>
    have ⟨b, hb'⟩ : ∃ b, s.analyze m components = .ok b := analyze_succeeds h ha
    cases hb.symm.trans hb'
  case ok.ok =>
    have ⟨_, _, q, he, hs, hq, ha⟩ := analyze_ok ha
    have ⟨_, _, p, he', hs', hp, hb⟩ := analyze_ok hb
    cases he.symm.trans he'
    cases hs.symm.trans hs'
    subst ha hb
    exact .some <| hr (Manifest.toProject_ok hp) (Manifest.toProject_ok hq)

-- The order of the usages does not matter at all, and that of the files only to the numbers. The two
-- analyses need not list the components of a graph in the same order.
theorem analyze_order (s : Settings) (m : Manifest) {components components' : Digraph Nat → List (List Nat)}
    (hc : Digraph.ListsComponents components) (hc' : Digraph.ListsComponents components') :
    (∀ us, us.Perm m.usages → Option.Rel Analysis.Same
      (s.analyze { m with usages := us } components').toOption (s.analyze m components).toOption) ∧
    ∀ fs, fs.Perm m.files → Option.Rel Analysis.Alike
      (s.analyze { m with files := fs } components').toOption (s.analyze m components).toOption := by
  constructor
  case left =>
    intro us hu
    have h : { m with usages := us }.Reorders m := ⟨.refl _, hu⟩
    exact analyze_reorder h fun hp hq => {
      dead := Manifest.deadItems_reorder h hp hq rfl rfl
      cycles := Manifest.find_reorder h hp hq rfl rfl hc hc'
      plan := Manifest.plan_reorder h hp hq rfl rfl }
  case right =>
    intro fs hf
    have h : { m with files := fs }.Reorders m := ⟨hf, .refl _⟩
    exact analyze_reorder h fun hp hq => {
      dead := Manifest.deadItems_perm h hp hq rfl
      cycles _ := Manifest.exists_mem_find_reorder h hp hq rfl hc hc'
      actions _ _ := Manifest.exists_mem_plan_reorder h hp hq rfl }

end Settings

-- Two files whose declarations use each other, and nothing else does.
def Manifest.ring : Manifest where
  files  := [
    { filename := "ping.ts", declarations := [{ name := "ping", span := ⟨1, 1, 9, by decide, by decide⟩ }] },
    { filename := "pong.ts", declarations := [{ name := "pong", span := ⟨1, 1, 9, by decide, by decide⟩ }] }]
  usages := [
    { kind := .checker, file := "ping.ts", location := 5, target := ⟨"pong.ts", 0⟩ },
    { kind := .checker, file := "pong.ts", location := 5, target := ⟨"ping.ts", 0⟩ }]

-- The same cycle, once seen from the one end and once from the other.
theorem Settings.analyze_order_ring : ∃ a b, ({ root := "" } : Settings).analyze .ring = .ok a ∧
    ({ root := "" } : Settings).analyze { Manifest.ring with files := Manifest.ring.files.reverse }
      (fun g => g.components.reverse) = .ok b ∧
    a.cycles = [⟨[0, 1], ["ping", "pong"]⟩] ∧ b.cycles = [⟨[0, 1], ["pong", "ping"]⟩] ∧ b.Alike a := by
  obtain ⟨a, ha, hc⟩ : ∃ a, ({ root := "" } : Settings).analyze .ring = .ok a ∧
      a.cycles = [⟨[0, 1], ["ping", "pong"]⟩] :=
    exists_ok (by cbv)
  obtain ⟨b, hb, hd⟩ : ∃ b, ({ root := "" } : Settings).analyze
      { Manifest.ring with files := Manifest.ring.files.reverse } (fun g => g.components.reverse) = .ok b ∧
      b.cycles = [⟨[0, 1], ["pong", "ping"]⟩] :=
    exists_ok (by cbv)
  have h := (analyze_order { root := "" } .ring Digraph.components_listed
    Digraph.components_listed.reverse).right _ (List.reverse_perm _)
  rw [ha, hb] at h
  exact ⟨a, b, ha, hb, hc, hd, Option.rel_some_some.mp h⟩

end DeadCode
