import DeadCode.Proofs.Analysis.Agreement
import DeadCode.Proofs.Cycle.Listing

namespace DeadCode

-- Where a declaration is listed, by the name of its file and its place there.
def Project.target? (p : Project) (k : Nat) : Option Manifest.Target := do
  let d ← p.declarations[k]?
  let f ← p.files[d.file]?
  return ⟨f.filename, f.declarations.toList.idxOf k⟩

def Cycle.targets (p : Project) (c : Cycle) : Set Manifest.Target :=
  { t | ∃ k ∈ c.members, p.target? k = some t }

namespace Manifest

variable {promoted : String → Bool} {mode : Mode} {ignore : IgnoreList} {m : Manifest}

theorem dead_withFile {x : Listed} : Dead promoted mode ignore m { x with file := n } ↔
    Dead promoted mode ignore m x :=
  ⟨fun h => ⟨h.searched, h.filename, h.name, h.stranded⟩,
    fun h => ⟨h.searched, h.filename, h.name, h.stranded⟩⟩

open Classical in
-- What an analysis reports of a declaration, if anything.
noncomputable def Listed.item? (promoted : String → Bool) (mode : Mode) (ignore : IgnoreList)
    (m : Manifest) (x : Listed) : Option DeadItem :=
  if Dead promoted mode ignore m x then some (x.report promoted m) else none

open Classical in
noncomputable def deadTargets (promoted : String → Bool) (mode : Mode) (ignore : IgnoreList)
    (m : Manifest) : List Target :=
  m.listed.filterMap fun x => if Dead promoted mode ignore m x then some x.target else none

-- A usage that counts leads from one dead declaration to another one.
structure Refers (promoted : String → Bool) (mode : Mode) (ignore : IgnoreList) (m : Manifest)
    (s t : Target) : Prop where
  source : s ∈ deadTargets promoted mode ignore m
  target : t ∈ deadTargets promoted mode ignore m
  usage  : ∃ e ∈ m.usages, mode.counts e.kind ∧ regionOf m.files e = .declaration s ∧ e.target = t

theorem mem_deadTargets : t ∈ deadTargets promoted mode ignore m ↔
    ∃ x ∈ m.listed, Dead promoted mode ignore m x ∧ x.target = t := by
  simp [deadTargets]

open Classical in
-- The spans of a file that are to go.
noncomputable def FileEntry.deadSpans (promoted : String → Bool) (mode : Mode) (ignore : IgnoreList)
    (m : Manifest) (f : FileEntry) : List Span :=
  (f.listing 0).filterMap fun x =>
    if Dead promoted mode ignore m x then some x.entry.span else none

noncomputable def FileEntry.action (promoted : String → Bool) (mode : Mode) (ignore : IgnoreList)
    (m : Manifest) (f : FileEntry) : FileAction :=
  let spans := f.deadSpans promoted mode ignore m
  if !f.isEntry promoted && spans.length == f.declarations.length then .delete else .snip spans

theorem Denotes.region_unique (hr : Denotes fs x r) (hs : Denotes fs x s) : r = s := by
  cases hr <;> cases hs
  case file hf _ hg =>
    cases hf.symm.trans hg
    rfl
  case declaration hx _ hy =>
    cases hx.symm.trans hy
    rfl

section

variable (hn : (fs.map FileEntry.filename).Nodup) (hr : Resolves fs e u)
include hn hr

theorem Resolves.owner_iff (hx : (listing 0 fs)[k]? = some x) :
    u.owner = .declaration k ↔ regionOf fs e = .declaration x.target := by
  constructor
  case mp => exact fun ho => (ho ▸ hr.denotes).region_unique (.declaration hx)
  case mpr => exact hr.denotes.unique hn (.declaration hx)

theorem Resolves.target_iff (hx : (listing 0 fs)[k]? = some x) : u.target = k ↔ e.target = x.target := by
  have ⟨y, hy, ht⟩ := hr.target
  rw [← ht]
  constructor
  case mp =>
    intro he
    rw [he, hx] at hy
    cases hy
    rfl
  case mpr => exact listed_unique hn hy hx

end

namespace Ingested

variable {p : Project} {options : PruneOptions} {i k : Nat}

section

variable (h : Ingested promoted m.files m.usages p)
include h

theorem declaration_of_none (hx : m.listed[k]? = none) : p.declarations[k]? = none := by
  have hn : p.declarations.size = m.listed.length := h.size_declarations
  simpa [hn] using hx

theorem deadOf_eq_filter (hi : m.files[i]? = some f) (hg : p.files[i]? = some g) :
    (MarkedProject.ofProject p).project.deadOf options g =
      (List.range' (offset m.files i) f.declarations.length).filter
        ((MarkedProject.ofProject p).project.isPrunable options) := by
  rw [← MarkedProject.files_ofProject] at hg
  rw [Project.deadOf_eq hg, MarkedProject.files_ofProject, h.listAt_files hi]

theorem target?_eq : p.target? k = m.listed[k]?.map Listed.target := by
  cases hx : m.listed[k]?
  case none => simp [Project.target?, h.declaration_of_none hx]
  case some x =>
    have ⟨d, hd, hm⟩ := h.declaration_of_listed hx
    have ⟨f, hf, hj, hn, _, hk⟩ := of_getElem?_listing hx
    have ⟨g, hg, hn', _⟩ := h.file_of_entry hf
    have hl := h.listAt_files hf
    simp only [listAt, hg, Option.map_some, Option.elim_some] at hl
    obtain ⟨hj, _⟩ := List.getElem?_eq_some_iff.mp hj
    have hi : (List.range' (offset m.files x.file) f.declarations.length).idxOf k = x.index := by
      have hr := List.Nodup.idxOf_getElem (List.nodup_range' (s := offset m.files x.file)) x.index
        (by rwa [List.length_range'])
      rwa [List.getElem_range', Nat.one_mul, ← hk] at hr
    simp [Project.target?, Listed.target, hd, hm.file, hg, hl, hi, hn, hn']

theorem exists_usage_iff (hx : m.listed[i]? = some x) (hy : m.listed[j]? = some y) :
    (∃ u ∈ p.usages, mode.counts u.kind ∧ u.owner = .declaration i ∧ u.target = j) ↔
      ∃ e ∈ m.usages, mode.counts e.kind ∧ regionOf m.files e = .declaration x.target ∧
        e.target = y.target := by
  constructor
  case mp =>
    intro ⟨u, hu, hc, hs, ht⟩
    have ⟨n, hn⟩ := Array.mem_iff_getElem?.mp hu
    have ⟨e, he, hr⟩ := h.entry_of_usage hn
    exact ⟨e, List.mem_of_getElem? he, hr.kind ▸ hc, hr.owner_iff h.filenames hx |>.mp hs,
      hr.target_iff h.filenames hy |>.mp ht⟩
  case mpr =>
    intro ⟨e, he, hc, hs, ht⟩
    have ⟨n, hn⟩ := List.mem_iff_getElem?.mp he
    have ⟨u, hu, hr⟩ := h.usage_of_entry hn
    exact ⟨u, Array.mem_of_getElem? hu, hr.kind ▸ hc, hr.owner_iff h.filenames hx |>.mpr hs,
      hr.target_iff h.filenames hy |>.mpr ht⟩

variable (ho : options.flag = mode.flag)
include ho

theorem isPrunable_iff_listed : (MarkedProject.ofProject p).project.isPrunable options k ↔
    ∃ x, m.listed[k]? = some x ∧ Dead promoted mode options.ignore m x := by
  cases hx : m.listed[k]?
  case none => simp [Project.isPrunable, h.declaration_of_none hx]
  case some x => simp [h.isPrunable_iff_dead options ho hx]

theorem mem_deadTargets_iff (hx : m.listed[k]? = some x) :
    x.target ∈ deadTargets promoted mode options.ignore m ↔
      (MarkedProject.ofProject p).project.isPrunable options k := by
  rw [mem_deadTargets, h.isPrunable_iff_dead options ho hx]
  constructor
  case mp =>
    intro ⟨y, hy, hd, ht⟩
    have ⟨l, hl⟩ := List.mem_iff_getElem?.mp hy
    cases listed_unique h.filenames hl hx ht
    cases hl.symm.trans hx
    exact hd
  case mpr => exact fun hd => ⟨x, List.mem_of_getElem? hx, hd, rfl⟩

-- To refer to each other is the same for the declarations of a project and for what they stand for.
theorem reflects_refers : Cycle.Reflects
    (Cycle.Refers (MarkedProject.ofProject p).project
      ((MarkedProject.ofProject p).project.isPrunable options) mode)
    (m.Refers promoted mode options.ignore) p.target? where
  iff {i j} := by
    simp only [h.target?_eq, Option.map_eq_some_iff]
    constructor
    case mp =>
      intro hr
      have ⟨x, hx, _⟩ := h.isPrunable_iff_listed ho |>.mp hr.source
      have ⟨y, hy, _⟩ := h.isPrunable_iff_listed ho |>.mp hr.target
      exact ⟨_, _, ⟨x, hx, rfl⟩, ⟨y, hy, rfl⟩,
        h.mem_deadTargets_iff ho hx |>.mpr hr.source, h.mem_deadTargets_iff ho hy |>.mpr hr.target,
        h.exists_usage_iff hx hy |>.mp (MarkedProject.usages_ofProject p ▸ hr.usage)⟩
    case mpr =>
      rintro ⟨_, _, ⟨x, hx, rfl⟩, ⟨y, hy, rfl⟩, hr⟩
      exact ⟨h.mem_deadTargets_iff ho hx |>.mp hr.source, h.mem_deadTargets_iff ho hy |>.mp hr.target,
        MarkedProject.usages_ofProject p ▸ (h.exists_usage_iff hx hy |>.mpr hr.usage)⟩
  covers {s t} hr := by
    have ⟨x, hx, _, ht⟩ := mem_deadTargets.mp hr.target
    have ⟨k, hk⟩ := List.mem_iff_getElem?.mp hx
    exact ⟨k, by simp [h.target?_eq, hk, ht]⟩

theorem deadItems_eq_filterMap : (MarkedProject.ofProject p).project.deadItems options =
    m.listed.filterMap (Listed.item? promoted mode options.ignore m) := by
  have hn : p.declarations.size = m.listed.length := h.size_declarations
  rw [Project.deadItems, MarkedProject.declarations_ofProject, hn,
    filterMap_range (h.deadItem?_eq options ho)]
  rfl

open Classical in
theorem spans_deadOf (hi : m.files[i]? = some f) (hg : p.files[i]? = some g) :
    (MarkedProject.ofProject p).project.spans ((MarkedProject.ofProject p).project.deadOf options g) =
      f.deadSpans promoted mode options.ignore m := by
  have hl : f.declarations.length = (f.listing 0).length := by simp
  rw [h.deadOf_eq_filter hi hg, List.range'_eq_map_range, Project.spans, List.filterMap_filter,
    List.filterMap_map, hl]
  apply filterMap_range
  intro j x hj
  simp only [FileEntry.getElem?_listing, Option.map_eq_some_iff] at hj
  obtain ⟨entry, he, rfl⟩ := hj
  obtain ⟨hj, rfl⟩ := List.getElem?_eq_some_iff.mp he
  have hx := getElem?_listing hi hj
  obtain ⟨d, hd, hm⟩ := h.declaration_of_listed hx
  have hp := (h.isPrunable_iff_dead options ho hx).trans (dead_withFile (n := 0)).symm
  simp only [Function.comp_apply, MarkedProject.declarations_ofProject, hd, Option.map_some, hm.span]
  exact if_congr hp rfl rfl

theorem length_deadOf (hi : m.files[i]? = some f) (hg : p.files[i]? = some g) :
    ((MarkedProject.ofProject p).project.deadOf options g).length =
      (f.deadSpans promoted mode options.ignore m).length := by
  have hd : ∀ k ∈ (MarkedProject.ofProject p).project.deadOf options g,
      (MarkedProject.ofProject p).project.isPrunable options k :=
    fun _ hk => (List.mem_filter.mp hk).right
  simpa [h.spans_deadOf ho hi hg] using (congrArg List.length (Project.spans_eq hd)).symm

-- The plan for a file, by what the manifest says of it.
theorem planFile?_eq (hi : m.files[i]? = some f) :
    (MarkedProject.ofProject p).project.planFile? options i =
      if options.sources.allows f.filename ∧ f.deadSpans promoted mode options.ignore m ≠ [] then
        some ⟨i, f.filename, (List.range' (offset m.files i) f.declarations.length).filter
          ((MarkedProject.ofProject p).project.isPrunable options),
          f.action promoted mode options.ignore m⟩
      else none := by
  have ⟨g, hg, hn, he⟩ := h.file_of_entry hi
  have hs : g.declarations.size = f.declarations.length := by
    simpa [listAt, hg] using congrArg List.length (h.listAt_files hi)
  have hd := h.length_deadOf ho hi hg
  have ha : (MarkedProject.ofProject p).project.actionOf options g =
      f.action promoted mode options.ignore m := by
    rw [Project.actionOf, h.spans_deadOf ho hi hg, hd, hs, he]
    rfl
  have hz : (MarkedProject.ofProject p).project.deadOf options g ≠ [] ↔
      f.deadSpans promoted mode options.ignore m ≠ [] := by
    simp only [← List.length_pos_iff, hd]
  rw [Project.planFile?_of_some (by rwa [MarkedProject.files_ofProject]), ha, hn,
    ← h.deadOf_eq_filter hi hg]
  simp only [hz]

theorem exists_mem_plan_iff :
    (∃ x ∈ (MarkedProject.ofProject p).project.plan options, x.filename = name ∧ x.action = action) ↔
      ∃ f ∈ m.files, f.filename = name ∧ options.sources.allows name ∧
        f.deadSpans promoted mode options.ignore m ≠ [] ∧
        f.action promoted mode options.ignore m = action := by
  simp only [Project.plan, List.mem_filterMap, List.mem_range, MarkedProject.files_ofProject,
    h.size_files]
  constructor
  case mp =>
    rintro ⟨x, ⟨i, hi, hx⟩, hn, ha⟩
    have hi := List.getElem?_eq_getElem hi
    simp only [h.planFile?_eq ho hi, Option.ite_none_right_eq_some, Option.some.injEq] at hx
    obtain ⟨⟨hs, hd⟩, rfl⟩ := hx
    exact ⟨_, List.mem_of_getElem? hi, hn, hn ▸ hs, hd, ha⟩
  case mpr =>
    rintro ⟨f, hf, rfl, hs, hd, ha⟩
    obtain ⟨i, hi⟩ := List.mem_iff_getElem?.mp hf
    have hx := h.planFile?_eq ho hi
    rw [if_pos ⟨hs, hd⟩] at hx
    exact ⟨_, ⟨i, (List.getElem?_eq_some_iff.mp hi).1, hx⟩, rfl, ha⟩

theorem cycles_targets {components : Digraph Nat → List (List Nat)}
    (hc : Digraph.ListsComponents components) {ts : Set Target} :
    (∃ c ∈ Cycle.find (MarkedProject.ofProject p).project
      ((MarkedProject.ofProject p).project.isPrunable options) mode components,
      ts = c.targets (MarkedProject.ofProject p).project) ↔
      ts ∈ Cycle.Classes (m.Refers promoted mode options.ignore) := by
  have hp := MarkedProject.wellFormed_ofProject h.wellFormed
  have ht : (MarkedProject.ofProject p).project.target? = p.target? := by
    funext k
    simp [Project.target?]
  rw [(h.reflects_refers ho).mem_classes_iff]
  simp only [(Cycle.lists_find hc hp).mem_classes_iff, Cycle.targets, ht]
  constructor
  case mp =>
    intro ⟨c, hc, he⟩
    exact ⟨_, ⟨c, hc, rfl⟩, he⟩
  case mpr =>
    rintro ⟨_, ⟨c, hc, rfl⟩, he⟩
    exact ⟨c, hc, he⟩

end

end Ingested

end Manifest

end DeadCode
