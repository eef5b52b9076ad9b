import DeadCode.Proofs.Analysis.Safe
import Mathlib.Data.List.Permutation

namespace DeadCode

theorem forall₂_filterMap {xs : List α} {P : α → Bool} {f : α → Option β} {R : α → β → Prop}
    (hp : ∀ x ∈ xs, P x → ∃ y, f x = some y ∧ R x y) (hn : ∀ x ∈ xs, ¬P x → f x = none) :
    List.Forall₂ R (xs.filter P) (xs.filterMap f) := by
  induction xs
  case nil => exact .nil
  case cons x xs hi =>
    have hi := hi (fun y hy => hp y (.tail _ hy)) (fun y hy => hn y (.tail _ hy))
    by_cases hx : P x
    case pos =>
      have ⟨y, hy, hr⟩ := hp x (.head _) hx
      rw [List.filter_cons_of_pos hx, List.filterMap_cons_some hy]
      exact .cons hr hi
    case neg =>
      rw [List.filter_cons_of_neg hx, List.filterMap_cons_none (hn x (.head _) hx)]
      exact hi

theorem map_some_filterMap {xs : List α} {f : α → Option β} (h : ∀ x ∈ xs, (f x).isSome) :
    (xs.filterMap f).map some = xs.map f := by
  induction xs
  case nil => rfl
  case cons x xs hi =>
    have ⟨y, hy⟩ := Option.isSome_iff_exists.mp (h x (.head _))
    rw [List.filterMap_cons_some hy, List.map_cons, List.map_cons, hy, hi fun z hz => h z (.tail _ hz)]

namespace Manifest.Ingested

variable {promoted : String → Bool} {fs : List FileEntry} {p : Project}

theorem flatMap_listAt (h : Ingested promoted fs us p) : n ≤ fs.length →
    (List.range n).flatMap (listAt p.files File.declarations) = List.range (offset fs n) := by
  induction n
  case zero => simp [offset, listing]
  case succ n hi =>
    intro hn
    have hf := List.getElem?_eq_getElem hn
    rw [List.range_succ, List.flatMap_append, hi (Nat.le_of_succ_le hn), List.flatMap_singleton,
      h.listAt_files hf, offset_succ hf, List.range_add, List.range'_eq_map_range]

-- File by file, the declarations come in the order of their numbers.
theorem flatMap_declarations (h : Ingested promoted fs us p) :
    (List.range p.files.size).flatMap (listAt p.files File.declarations) =
      List.range p.declarations.size := by
  rw [h.size_files, h.flatMap_listAt (Nat.le_refl _), h.size_declarations, offset, List.take_length]

end Manifest.Ingested

namespace Project

variable {p : Project} {options : PruneOptions} {i k : Nat}

-- The declarations that are to go, in the order of their numbers.
def prunable (p : Project) (options : PruneOptions) : List Nat :=
  (List.range p.declarations.size).filter (p.isPrunable options)

def fileOf? (p : Project) (k : Nat) : Option Nat :=
  p.declarations[k]?.map Declaration.file

-- Whether the file of a declaration may change.
def allowed (p : Project) (sources : GlobList) (k : Nat) : Bool :=
  (p.fileOf? k).any fun i => sources.allows (p.filename i)

theorem mem_prunable : k ∈ p.prunable options ↔ p.isPrunable options k := by
  simp only [prunable, List.mem_filter, List.mem_range, and_iff_right_iff_imp]
  intro hk
  have ⟨_, hd, _⟩ := isPrunable_iff.mp hk
  exact (Array.getElem?_eq_some_iff.mp hd).1

theorem deadOf_eq (hf : p.files[i]? = some f) :
    p.deadOf options f = (listAt p.files File.declarations i).filter (p.isPrunable options) := by
  simp [deadOf, listAt, hf]

theorem WellFormed.deadOf_eq_filter (hp : p.WellFormed) (hf : p.files[i]? = some f) :
    p.deadOf options f = (p.prunable options).filter (p.fileOf? · = some i) := by
  rw [deadOf_eq hf, hp.declarations, indicesOf, prunable, List.filter_comm]
  congr 1
  funext k
  simp [fileOf?]
  cases p.declarations[k]? <;> simp

theorem WellFormed.allowed_of_mem {sources : GlobList} (hp : p.WellFormed) (hf : p.files[i]? = some f)
    (hk : k ∈ listAt p.files File.declarations i) : p.allowed sources k = sources.allows f.filename := by
  rw [hp.declarations] at hk
  have ⟨d, hd, hi⟩ := mem_indicesOf.mp hk
  simp [allowed, fileOf?, filename, hd, hi, hf]

-- What a plan takes from a file that may not change, or that has nothing to give, is nothing.
theorem WellFormed.dead_planFile? (hp : p.WellFormed) (hf : p.files[i]? = some f) :
    (p.planFile? options i).toList.flatMap FilePlan.dead =
      (listAt p.files File.declarations i).filter fun k =>
        p.allowed options.sources k && p.isPrunable options k := by
  rw [planFile?_of_some hf, List.filter_congr fun k hk => by rw [hp.allowed_of_mem hf hk]]
  cases options.sources.allows f.filename
  case false => simp
  case true =>
    simp only [Bool.true_and, ← deadOf_eq hf]
    by_cases hn : p.deadOf options f = []
    case pos => simp [hn]
    case neg => simp [hn]

theorem WellFormed.flatMap_dead (hp : p.WellFormed) : (p.plan options).flatMap FilePlan.dead =
    ((List.range p.files.size).flatMap (listAt p.files File.declarations)).filter fun k =>
      p.allowed options.sources k && p.isPrunable options k := by
  rw [plan, List.filterMap_eq_flatMap_toList, List.flatMap_assoc, List.filter_flatMap]
  apply List.flatMap_congr
  intro i hi
  exact hp.dead_planFile? (Array.getElem?_eq_getElem (List.mem_range.mp hi))

theorem WellFormed.map_file_plan (hp : p.WellFormed) : (p.plan options).map FilePlan.file =
    (List.range p.files.size).filter fun i => options.sources.allows (p.filename i) ∧
      ∃ k ∈ p.prunable options, p.fileOf? k = some i := by
  rw [plan, List.map_filterMap, ← List.filterMap_eq_filter]
  apply List.filterMap_congr
  intro i hi
  obtain ⟨f, hf⟩ : ∃ f, p.files[i]? = some f := ⟨_, Array.getElem?_eq_getElem (List.mem_range.mp hi)⟩
  have hn : p.filename i = f.filename := by simp [filename, hf]
  have hd : p.deadOf options f ≠ [] ↔ ∃ k ∈ p.prunable options, p.fileOf? k = some i := by
    simp [hp.deadOf_eq_filter hf, List.filter_eq_nil_iff]
  simp only [planFile?_of_some hf, hn, hd, Option.guard]
  split <;> simp_all

theorem WellFormed.dead_of_mem_plan (hp : p.WellFormed) (hx : x ∈ p.plan options) :
    x.filename = p.filename x.file ∧
      x.dead = (p.prunable options).filter (p.fileOf? · = some x.file) := by
  have ⟨f, hf, _, _, he⟩ := mem_plan_iff.mp hx
  rw [← hp.deadOf_eq_filter hf, he]
  simp [filename, hf]

theorem spans_eq (h : ∀ k ∈ ks, p.isPrunable options k) :
    (p.spans ks).map some = ks.map fun k => p.declarations[k]?.map Declaration.span := by
  apply map_some_filterMap
  intro k hk
  have ⟨_, hd, _⟩ := isPrunable_iff.mp (h k hk)
  simp [hd]

theorem spans_of_mem_plan {spans : List Span} (hx : x ∈ p.plan options)
    (ha : x.action = .snip spans) :
    spans.map some = x.dead.map fun k => p.declarations[k]?.map Declaration.span := by
  have ⟨f, _, _, _, he⟩ := mem_plan_iff.mp hx
  rw [he, actionOf] at ha
  split at ha
  case isTrue => contradiction
  case isFalse =>
    cases ha
    rw [he]
    exact spans_eq fun k hk => (List.mem_filter.mp hk).right

theorem mem_deletions_plan {name : String} : name ∈ (p.plan options).deletions ↔
    ∃ f ∈ p.files, f.filename = name ∧ options.sources.allows name ∧ f.isEntrypoint = false ∧
      f.declarations ≠ #[] ∧ ∀ k ∈ f.declarations, k ∈ p.prunable options := by
  simp only [Plan.deletions, List.mem_map, List.mem_filter, decide_eq_true_eq, mem_prunable]
  constructor
  case mp =>
    intro ⟨x, ⟨hx, ha⟩, hn⟩
    have ⟨f, hf, hs, hb, hd⟩ := deletes_plan_iff.mp ⟨x, hx, rfl, ha⟩
    rw [filename_of_mem_plan hx hf] at hn
    exact ⟨f, Array.mem_of_getElem? hf, hn, hn ▸ hs, hb, hd⟩
  case mpr =>
    intro ⟨f, hf, hn, hs, hb, hd⟩
    have ⟨i, hi⟩ := Array.mem_iff_getElem?.mp hf
    have ⟨x, hx, hi', ha⟩ := deletes_plan_iff.mpr ⟨f, hi, hn ▸ hs, hb, hd⟩
    exact ⟨x, ⟨hx, ha⟩, hn ▸ filename_of_mem_plan hx (hi' ▸ hi)⟩

-- An item of the report stands for a declaration.
def Reports (p : Project) (k : Nat) (item : DeadItem) : Prop :=
  ∃ d, p.declarations[k]? = some d ∧ item.name = d.name ∧ item.file = p.filename d.file ∧
    item.span = d.span ∧ item.isExport = d.isExport

theorem reports_deadItems : List.Forall₂ p.Reports (p.prunable options) (p.deadItems options) := by
  apply forall₂_filterMap
  case hp =>
    intro k hk hp
    have hd := Array.getElem?_eq_getElem (List.mem_range.mp hk)
    rw [deadItem?_of_some hd, if_pos hp]
    exact ⟨_, rfl, _, hd, rfl, rfl, rfl, rfl⟩
  case hn =>
    intro k hk hp
    rw [deadItem?_of_some (Array.getElem?_eq_getElem (List.mem_range.mp hk)), if_neg hp]

-- What it means that a report and a plan agree on what is to go, given by its numbers `ids`:
-- 1. the report has an item for each of them, in their order
-- 2. the plan, file by file, takes those away that are in files that may change
-- 3. it does so in the files concerned, in their order, and in no others
-- 4. in each of them it takes away what there is
-- 5. where it cuts, it cuts the spans of just these declarations
-- 6. where nothing would remain it takes away the file, unless that is an entry file
structure Agree (p : Project) (sources : GlobList) (ids : List Nat) (dead : List DeadItem)
    (plan : Plan) : Prop where
  items     : List.Forall₂ p.Reports ids dead
  dropped   : plan.flatMap FilePlan.dead = ids.filter (p.allowed sources)
  files     : plan.map FilePlan.file = (List.range p.files.size).filter fun i =>
    sources.allows (p.filename i) ∧ ∃ k ∈ ids, p.fileOf? k = some i
  perFile   : ∀ x ∈ plan, x.filename = p.filename x.file ∧
    x.dead = ids.filter (p.fileOf? · = some x.file)
  spans     : ∀ x ∈ plan, ∀ spans, x.action = .snip spans →
    spans.map some = x.dead.map fun k => p.declarations[k]?.map Declaration.span
  deletions : ∀ {name}, name ∈ plan.deletions ↔ ∃ f ∈ p.files, f.filename = name ∧
    sources.allows name ∧ f.isEntrypoint = false ∧ f.declarations ≠ #[] ∧ ∀ k ∈ f.declarations, k ∈ ids

end Project

-- To go through the declarations file by file is to go through them in the order of their numbers.
theorem MarkedProject.flatMap_dead {m : Manifest}
    (h : Manifest.Ingested promoted m.files m.usages p) (options : PruneOptions) :
    let q := (ofProject p).project
    (q.plan options).flatMap FilePlan.dead =
      (q.prunable options).filter (q.allowed options.sources) := by
  intro q
  have hp : q.WellFormed := wellFormed_ofProject h.wellFormed
  rw [hp.flatMap_dead, files_ofProject, h.flatMap_declarations, Project.prunable, List.filter_filter,
    declarations_ofProject]

-- Report and plan come from two passes of their own, and still agree.
theorem Settings.plan_agrees {s : Settings} (h : s.analyze m = .ok a) : ∃ sources : GlobList,
    GlobList.ofStrings s.sources = .ok sources ∧
    a.project.Agree sources (a.project.prunable ⟨s.sweepFlag, sources, .ofStrings s.ignore⟩)
      a.dead a.plan := by
  have ⟨entrypoints, sources, p, _, hs, hm, ha⟩ := analyze_ok h
  have hi := Manifest.toProject_ok hm
  have hp := MarkedProject.wellFormed_ofProject hi.wellFormed
  subst ha
  exact ⟨sources, hs, {
    items := Project.reports_deadItems
    dropped := MarkedProject.flatMap_dead hi _
    files := hp.map_file_plan
    perFile _ hx := hp.dead_of_mem_plan hx
    spans _ hx _ ha := Project.spans_of_mem_plan hx ha
    deletions := Project.mem_deletions_plan }⟩

theorem Settings.plan_agrees_leftover : ∃ a,
    ({ root := "", sources := ["old*"] } : Settings).analyze .leftover = .ok a ∧
    a.dead.map DeadItem.name = [some "first", some "second", some "third"] ∧
    a.plan = [⟨1, "old.ts", [1, 2], .delete⟩] ∧ ∃ sources : GlobList,
      GlobList.ofStrings ["old*"] = .ok sources ∧
      a.project.Agree sources (a.project.prunable ⟨.reachedByChecker, sources, []⟩) a.dead a.plan := by
  have ⟨a, h, hd, hp⟩ : ∃ a,
      ({ root := "", sources := ["old*"] } : Settings).analyze .leftover = .ok a ∧
      a.dead.map DeadItem.name = [some "first", some "second", some "third"] ∧
      a.plan = [⟨1, "old.ts", [1, 2], .delete⟩] :=
    exists_ok (by cbv)
  exact ⟨a, h, hd, hp, plan_agrees h⟩

end DeadCode
