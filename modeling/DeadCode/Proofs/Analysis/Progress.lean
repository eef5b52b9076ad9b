import DeadCode.Proofs.Analysis.Dead
import DeadCode.Proofs.Analysis.Tracked
import DeadCode.Proofs.Mark.Exact

namespace DeadCode

namespace Manifest

-- What has been done at the `n`-th tick. A file has been begun if fewer than `n` declarations come before it.
def progressAt (m : Manifest) (n : Nat) : Progress where
  phase        := .ingest
  files        := (List.range m.files.length).countP (offset m.files · < n)
  declarations := min n m.listed.length
  usages       := n - m.listed.length

def totals (m : Manifest) : Progress where
  phase        := .ingest
  files        := m.files.length
  declarations := m.listed.length
  usages       := m.usages.length

-- What is reported while the project is built.
def ingestReports (m : Manifest) : List Progress :=
  (Checkpoint.due (m.listed.length + m.usages.length)).map m.progressAt ++ [m.totals]

-- The files up to that of the `k`-th declaration have been begun, and no others.
theorem countP_offset {m : Manifest} (h : m.listed[k]? = some x) :
    (List.range m.files.length).countP (offset m.files · < k + 1) = x.file + 1 := by
  have ⟨f, hf, hx, _, _, hk⟩ := of_getElem?_listing h
  have ⟨hi, _⟩ := List.getElem?_eq_some_iff.mp hf
  have ⟨hj, _⟩ := List.getElem?_eq_some_iff.mp hx
  have ⟨n, hn⟩ := Nat.exists_eq_add_of_le (Nat.succ_le_of_lt hi)
  -- The files are cut in two after that of the declaration.
  have hr : List.range m.files.length = List.range (x.file + 1) ++ List.range' (x.file + 1) n := by
    simpa [List.range_eq_range', hn] using (List.range'_append_1 (s := 0) (m := x.file + 1) (n := n)).symm
  have hb : ∀ i ∈ List.range (x.file + 1), decide (offset m.files i < k + 1) := by
    intro i hi
    have := offset_mono m.files (Nat.le_of_lt_succ (List.mem_range.mp hi))
    simp only [decide_eq_true_eq]
    omega
  have ha : ∀ i ∈ List.range' (x.file + 1) n, ¬decide (offset m.files i < k + 1) := by
    intro i hi
    have := offset_mono m.files (List.mem_range'_1.mp hi).left
    rw [offset_succ hf] at this
    simp only [decide_eq_true_eq]
    omega
  rw [hr, List.countP_append, List.countP_eq_length.mpr hb, List.countP_eq_zero.mpr ha, List.length_range]

theorem progressAt_declaration {m : Manifest} (h : m.listed[k]? = some x) :
    m.progressAt (k + 1) = ⟨.ingest, x.file + 1, k + 1, 0, 0⟩ := by
  have ⟨hk, _⟩ := List.getElem?_eq_some_iff.mp h
  rw [progressAt, countP_offset h, Nat.min_eq_left hk, Nat.sub_eq_zero_of_le hk]

theorem progressAt_usage (m : Manifest) (k : Nat) :
    m.progressAt (m.listed.length + (k + 1)) =
      ⟨.ingest, m.files.length, m.listed.length, k + 1, 0⟩ := by
  have hf : ∀ i ∈ List.range m.files.length, decide (offset m.files i < m.listed.length + (k + 1)) := by
    intro i _
    have : offset m.files i ≤ m.listed.length := offset_le m.files i
    simp only [decide_eq_true_eq]
    omega
  rw [progressAt, List.countP_eq_length.mpr hf, List.length_range, Nat.min_eq_right (Nat.le_add_right ..),
    Nat.add_sub_cancel_left]

theorem snapshots_eq_map (m : Manifest) : snapshots m.files m.usages.length =
    (List.range' 1 (m.listed.length + m.usages.length)).map m.progressAt := by
  have hd : (m.listed.zipIdx.map fun x => ⟨.ingest, x.1.file + 1, x.2 + 1, 0, 0⟩) =
      (List.range' 1 m.listed.length).map m.progressAt := by
    apply List.ext_getElem?
    intro k
    cases hx : m.listed[k]?
    case none =>
      have : m.listed.length ≤ k := List.getElem?_eq_none_iff.mp hx
      simp [this]
    case some x =>
      obtain ⟨hk, he⟩ := List.getElem?_eq_some_iff.mp hx
      simp [hk, he, progressAt_declaration hx, Nat.add_comm 1]
  have hu : ((List.range m.usages.length).map fun k =>
      ⟨.ingest, m.files.length, m.listed.length, k + 1, 0⟩) =
      (List.range' (1 + m.listed.length) m.usages.length).map m.progressAt := by
    rw [List.range'_eq_map_range, List.map_map]
    refine List.map_congr_left fun k _ => ?_
    have hk : 1 + m.listed.length + k = m.listed.length + (k + 1) := by omega
    rw [Function.comp_apply, hk, progressAt_usage]
  rw [← List.range'_append_1, List.map_append, ← hd, ← hu]
  rfl

end Manifest

namespace Checkpoint

variable {c : Checkpoint}

theorem ingesting_eq {m : Manifest} (h : Manifest.Ingested promoted m.files m.usages p) (he : c.enabled)
    (ht : c.ticks = 0) : c.ingesting p = { c with reports := c.reports ++ m.ingestReports } := by
  have hc : p.counters = m.totals := h.counters_eq
  have hs : ingestSnapshots p =
      (List.range' 1 (m.listed.length + m.usages.length)).map m.progressAt :=
    h.snapshots_eq.trans m.snapshots_eq_map
  calc
    c.ingesting p = (c.tickAll (ingestSnapshots p)).flush (p.counters) := rfl
    _ = _ := by rw [hs, hc, c.flush_tickAll he ht, Manifest.ingestReports]

-- Each phase begins with nothing counted, as the one before it has ended with a report.
theorem reports_markingBoth {m : Manifest} (h : Manifest.Ingested promoted m.files m.usages p)
    (he : c.enabled) (ht : c.ticks = 0) : (c.markingBoth (.ofProject p)).reports = c.reports ++
      (m.ingestReports ++ markReports (MarkedProject.ofProject p).strict ++
        markReports (MarkedProject.ofProject p).fuzzy) := by
  have hm (reports n) : { c with reports }.marking n = { c with reports := reports ++ markReports n } :=
    { c with reports }.marking_eq he ht n
  rw [markingBoth_ofProject, ingesting_eq h he ht, hm, hm]
  simp

theorem analysis_of_disabled (h : c.enabled = false) (r : Except AnalysisError Analysis) :
    c.analysis r = c := by
  have hm (m : MarkedProject) : c.markingBoth m = c := by
    simp only [markingBoth, marking, ingesting, registering, tickAll_of_disabled h, flush_of_disabled h]
  cases r
  case ok a => exact hm a.marked
  case error e =>
    cases e
    case sources _ m => exact hm m
    case ingest => exact tickAll_of_disabled h _
    all_goals rfl

end Checkpoint

namespace MarkedProject

theorem strict_ofProject (hp : p.WellFormed) : (ofProject p).strict =
    (p.newlyFlagged (p.mark Mode.strict.flag .strict).1 Mode.strict.flag).length :=
  Project.count_mark hp ..

theorem fuzzy_ofProject (hp : p.WellFormed) : (ofProject p).fuzzy =
    ((p.mark Mode.strict.flag .strict).1.newlyFlagged (ofProject p).project Mode.fuzzy.flag).length :=
  Project.count_mark (hp.mark ..) ..

end MarkedProject

-- The projects that an analysis goes through: the one that is built from the manifest, the one after the first
-- marking run, and its own, after the second.
structure Analysis.Stages (a : Analysis) (s : Settings) (m : Manifest) (built strict : Project) : Prop where
  ingest : ∃ entrypoints, GlobList.ofStrings s.entrypoints = .ok entrypoints ∧
    m.toProject entrypoints.covers = .ok built
  first  : (built.mark Mode.strict.flag .strict).1 = strict
  second : (strict.mark Mode.fuzzy.flag .fuzzy).1 = a.project

namespace Settings

open Checkpoint

-- If an analysis succeeds with a fresh checkpoint at its side:
-- 1. there are reports on the building of the project and on both marking runs, by the number of nodes that
--    they have newly marked, and no others
-- 2. with a checkpoint that is not enabled the analysis is the same, and nothing is reported
-- 3. without any checkpoint the analysis is the same too, and the reports can be told from it
theorem track_reports {s : Settings} (h : (s.track m).run (fresh true) = .ok a c) :
    (∃ built strict, a.Stages s m built strict ∧ c.reports = m.ingestReports ++
      markReports (built.newlyFlagged strict Mode.strict.flag).length ++
      markReports (strict.newlyFlagged a.project Mode.fuzzy.flag).length) ∧
    (s.track m).run (fresh false) = .ok a (fresh false) ∧
    s.analyze m = .ok a ∧ c = (fresh true).analysis (s.analyze m) := by
  rw [track_eq] at h
  cases ha : s.analyze m
  case error => simp [ha, conclude] at h
  case ok =>
    rw [ha] at h
    cases h
    have ⟨entrypoints, _, p, he, _, hp, hm⟩ := analyze_ok ha
    have hi := Manifest.toProject_ok hp
    subst hm
    refine ⟨⟨p, _, ⟨⟨entrypoints, he, hp⟩, rfl, rfl⟩, ?_⟩, ?_, rfl, rfl⟩
    · have hr := reports_markingBoth (c := fresh true) hi rfl rfl
      rwa [MarkedProject.strict_ofProject hi.wellFormed, MarkedProject.fuzzy_ofProject hi.wellFormed] at hr
    · rw [track_eq, ha, analysis_of_disabled rfl]
      rfl

-- Nothing but the patterns and the manifest can be at fault.
theorem exists_analysis {s : Settings} {entrypoints sources : GlobList}
    (he : GlobList.ofStrings s.entrypoints = .ok entrypoints)
    (hs : GlobList.ofStrings s.sources = .ok sources) (hm : m.Consistent) : ∃ a, s.analyze m = .ok a := by
  cases hp : m.toProject entrypoints.covers
  case error => exact absurd hm (Manifest.firstFault_of_toProject hp).not_consistent
  case ok p =>
    refine ⟨.ofMarked s sources (.ofProject p), ?_⟩
    rw [analyze, he, hs]
    simp only [Except.mapError, ok_bind, hp]
    rfl

end Settings

-- Two files with so many declarations that the first report is due in the second of them, another one
-- without declarations, and so many usages that the second report is due among them.
def Manifest.crowded : Manifest where
  files  := [
    { filename := "main.ts", isEntrypoint := true,
      declarations := List.replicate 60 { span := ⟨31, 47, 59, by decide, by decide⟩ } },
    { filename := "lib.ts", declarations := List.replicate 60 { span := ⟨31, 47, 59, by decide, by decide⟩ } },
    { filename := "notes.ts" }]
  usages := List.replicate 90 { kind := .checker, file := "main.ts", target := ⟨"lib.ts", 3⟩ }

theorem Manifest.crowded_consistent : crowded.Consistent where
  filenames := by simp [crowded]
  usages e he := by
    cases List.eq_of_mem_replicate he
    exact ⟨by simp [crowded], by simp [Lists, crowded], by simp⟩

theorem Settings.track_reports_crowded : ∃ a c,
    (({ root := "" } : Settings).track .crowded).run (.fresh true) = .ok a c ∧
    Manifest.crowded.ingestReports =
      [⟨.ingest, 2, 101, 0, 0⟩, ⟨.ingest, 3, 120, 82, 0⟩, ⟨.ingest, 3, 120, 90, 0⟩] ∧
    (∃ built strict, a.Stages { root := "" } .crowded built strict ∧
      c.reports = Manifest.crowded.ingestReports ++
        Checkpoint.markReports (built.newlyFlagged strict Mode.strict.flag).length ++
        Checkpoint.markReports (strict.newlyFlagged a.project Mode.fuzzy.flag).length) ∧
    (({ root := "" } : Settings).track .crowded).run (.fresh false) = .ok a (.fresh false) ∧
    ({ root := "" } : Settings).analyze .crowded = .ok a ∧
    c = (Checkpoint.fresh true).analysis (({ root := "" } : Settings).analyze .crowded) := by
  have ⟨a, ha⟩ : ∃ a, ({ root := "" } : Settings).analyze .crowded = .ok a :=
    exists_analysis rfl rfl Manifest.crowded_consistent
  have h : (({ root := "" } : Settings).track .crowded).run (.fresh true) =
      .ok a ((Checkpoint.fresh true).analysis (.ok a)) := by
    rw [track_eq, ha]
    rfl
  exact ⟨a, _, h, by cbv, track_reports h⟩

end DeadCode
