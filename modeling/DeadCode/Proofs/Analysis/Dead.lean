import DeadCode.Proofs.Analysis.Marked

namespace DeadCode

-- An analysis that succeeds has got through all of its stages.
theorem Settings.analyze_ok {s : Settings} (h : s.analyze m components = .ok a) :
    ∃ entrypoints sources p, GlobList.ofStrings s.entrypoints = .ok entrypoints ∧
      GlobList.ofStrings s.sources = .ok sources ∧ m.toProject entrypoints.covers = .ok p ∧
      a = .ofMarked s sources (.ofProject p) components := by
  have ⟨entrypoints, he, h⟩ := bind_ok h
  have ⟨p, hp, h⟩ := bind_ok h
  have ⟨sources, hs, h⟩ := bind_ok h
  cases h
  exact ⟨entrypoints, sources, p, mapError_ok he, mapError_ok hs, mapError_ok hp, rfl⟩

theorem filterMap_range {xs : List α} {f : Nat → Option β} {g : α → Option β}
    (h : ∀ {k x}, xs[k]? = some x → f k = g x) :
    (List.range xs.length).filterMap f = xs.filterMap g := by
  have hf : List.range xs.length = xs.zipIdx.map Prod.snd := by simp [List.range_eq_range']
  have hg : xs = xs.zipIdx.map Prod.fst := by simp
  rw [hf]
  conv_rhs => rw [hg]
  rw [List.filterMap_map, List.filterMap_map]
  exact List.filterMap_congr fun x hx => h (List.mem_zipIdx_iff_getElem?.mp hx)

theorem Project.deadItem?_of_some {p : Project} (hd : p.declarations[k]? = some d) :
    p.deadItem? options k =
      if p.isPrunable options k then
        some ⟨d.name, p.filename d.file, d.span, d.isExport,
          if (p.flags.get (.declaration k)).contains .reachedByGrep then .grepOnly else .unreferenced⟩
      else none := by
  unfold deadItem?
  cases p.isPrunable options k <;> simp [hd, guard]

namespace Manifest

-- A declaration is dead if references to it have been looked for, it is not ignored, and no living
-- code leads to it.
structure Dead (promoted : String → Bool) (mode : Mode) (ignore : IgnoreList) (m : Manifest)
    (x : Listed) : Prop where
  searched : x.searched
  filename : ¬ignore.covers x.filename
  name     : ∀ name ∈ x.entry.name, ¬ignore.covers name
  stranded : ¬Live promoted mode m (.declaration x.target)

open Classical in
noncomputable def Listed.report (promoted : String → Bool) (m : Manifest) (x : Listed) :
    DeadItem where
  name     := x.entry.name
  file     := x.filename
  span     := x.entry.span
  isExport := x.entry.isExport
  kind     := if Live promoted .fuzzy m (.declaration x.target) then .grepOnly else .unreferenced

namespace Ingested

variable {promoted : String → Bool} {m : Manifest} {p : Project} {x : Listed} {k : Nat}
variable (h : Ingested promoted m.files m.usages p)
include h

theorem nodup_targets : (m.listed.map Listed.target).Nodup := by
  rw [List.nodup_iff_getElem?_ne_getElem?]
  intro i j hi hj he
  simp only [List.getElem?_map, List.length_map] at he hj
  have hx := List.getElem?_eq_getElem (Nat.lt_trans hi hj)
  have hy := List.getElem?_eq_getElem hj
  rw [hx, hy] at he
  exact Nat.ne_of_lt hi <| listed_unique h.filenames hx hy (Option.some.inj he)

theorem filename_of_listed (hx : m.listed[k]? = some x) : p.filename x.file = x.filename := by
  have ⟨f, hf, _, hn, _⟩ := of_getElem?_listing hx
  have ⟨g, hg, he, _⟩ := h.file_of_entry hf
  simp [Project.filename, hg, he, hn]

theorem contains_flag_iff_live (mode : Mode) (hx : m.listed[k]? = some x) :
    ((MarkedProject.ofProject p).project.flags.get (.declaration k)).contains mode.flag ↔
      Live promoted mode m (.declaration x.target) := by
  rw [MarkedProject.contains_flag h, h.reachable_iff_live (.declaration hx)]

theorem contains_searched_eq (hx : m.listed[k]? = some x) :
    ((MarkedProject.ofProject p).project.flags.get (.declaration k)).contains .searched =
      x.searched := by
  have hx : (listing 0 m.files)[k]? = some x := hx
  rw [MarkedProject.contains_searched h, searchFlags, hx, Option.any_some]
  cases x.searched <;> decide

theorem isPrunable_iff_dead (options : PruneOptions) (ho : options.flag = mode.flag)
    (hx : m.listed[k]? = some x) : (MarkedProject.ofProject p).project.isPrunable options k ↔
      Dead promoted mode options.ignore m x := by
  have ⟨d, hd, hm⟩ := h.declaration_of_listed hx
  simp only [Project.isPrunable, MarkedProject.declarations_ofProject, hd, ho, Flags.isLive,
    MarkedProject.filename_ofProject, hm.file, hm.name, h.filename_of_listed hx,
    h.contains_searched_eq hx, Bool.not_or, Bool.not_not, Bool.and_eq_true, Bool.not_eq_true',
    ← Bool.not_eq_true, h.contains_flag_iff_live mode hx, Option.any_eq_true]
  constructor
  case mp =>
    intro ⟨⟨⟨hl, hs⟩, hf⟩, hn⟩
    exact ⟨hs, hf, fun name hm hi => hn ⟨name, hm, hi⟩, hl⟩
  case mpr =>
    intro hd
    exact ⟨⟨⟨hd.stranded, hd.searched⟩, hd.filename⟩, fun ⟨name, hm, hi⟩ => hd.name name hm hi⟩

open Classical in
theorem deadItem?_eq (options : PruneOptions) (ho : options.flag = mode.flag)
    (hx : m.listed[k]? = some x) : (MarkedProject.ofProject p).project.deadItem? options k =
      if Dead promoted mode options.ignore m x then some (x.report promoted m) else none := by
  have ⟨d, hd, hm⟩ := h.declaration_of_listed hx
  have hg := h.contains_flag_iff_live .fuzzy hx
  rw [← MarkedProject.declarations_ofProject] at hd
  simp only [Project.deadItem?_of_some hd, h.isPrunable_iff_dead options ho hx, Listed.report, ← hg,
    MarkedProject.filename_ofProject, hm.file, hm.name, hm.span, hm.isExport, h.filename_of_listed hx]
  rfl

open Classical in
theorem deadItems_eq (options : PruneOptions) (ho : options.flag = mode.flag) :
    (MarkedProject.ofProject p).project.deadItems options =
      (m.listed.filter (Dead promoted mode options.ignore m ·)).map (Listed.report promoted m) := by
  have hn : p.declarations.size = m.listed.length := h.size_declarations
  rw [Project.deadItems, MarkedProject.declarations_ofProject, hn,
    filterMap_range (h.deadItem?_eq options ho), ← List.filterMap_eq_map, List.filterMap_filter]
  simp

end Ingested

end Manifest

open Classical Manifest in
-- An analysis reports the dead declarations in the order of the manifest, each of them once.
theorem Settings.analyze_dead {s : Settings} (h : s.analyze m = .ok a) : ∃ entrypoints : GlobList,
    GlobList.ofStrings s.entrypoints = .ok entrypoints ∧ (m.listed.map Listed.target).Nodup ∧
    a.dead = (m.listed.filter (Dead entrypoints.covers s.mode (.ofStrings s.ignore) m ·)).map
      (Listed.report entrypoints.covers m) := by
  have ⟨entrypoints, sources, p, he, _, hp, ha⟩ := analyze_ok h
  have hi := toProject_ok hp
  exact ⟨entrypoints, he, hi.nodup_targets, ha ▸ hi.deadItems_eq _ rfl⟩

-- A library of which the entry file uses only the first declaration. The others are a bare statement,
-- and a helper to which only that statement and two stray files refer.
def Manifest.sample : Manifest where
  files  := [
    { filename := "main.ts", isEntrypoint := true },
    { filename := "lib.ts", declarations := [
      { name := "used", span := ⟨0, 0, 10, by decide, by decide⟩ },
      { span := ⟨10, 10, 20, by decide, by decide⟩ },
      { name := "helper", span := ⟨20, 20, 30, by decide, by decide⟩ }] },
    { filename := "extra.ts", declarations := [{ span := ⟨0, 0, 10, by decide, by decide⟩ }] },
    { filename := "notes.ts" }]
  usages := [
    { kind := .checker, file := "main.ts", target := ⟨"lib.ts", 0⟩ },
    { kind := .checker, file := "lib.ts", location := 15, target := ⟨"lib.ts", 2⟩ },
    { kind := .checker, file := "extra.ts", location := 15, target := ⟨"lib.ts", 2⟩ },
    { kind := .checker, file := "notes.ts", target := ⟨"lib.ts", 2⟩ }]

open Classical Manifest in
theorem Settings.analyze_dead_sample : ∃ a, ({ root := "" } : Settings).analyze .sample = .ok a ∧
    a.dead = [⟨"helper", "lib.ts", ⟨20, 20, 30, by decide, by decide⟩, false, .unreferenced⟩] ∧
    ∃ entrypoints : GlobList, GlobList.ofStrings [] = .ok entrypoints ∧
      (sample.listed.map Listed.target).Nodup ∧
      a.dead = (sample.listed.filter (Dead entrypoints.covers .strict [] sample ·)).map
        (Listed.report entrypoints.covers sample) := by
  have ⟨a, h, hd⟩ : ∃ a, ({ root := "" } : Settings).analyze .sample = .ok a ∧
      a.dead = [⟨"helper", "lib.ts", ⟨20, 20, 30, by decide, by decide⟩, false, .unreferenced⟩] :=
    exists_ok (by cbv)
  exact ⟨a, h, hd, analyze_dead h⟩

end DeadCode
