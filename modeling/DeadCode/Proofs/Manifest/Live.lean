import DeadCode.Proofs.Manifest.Ingest

namespace DeadCode

namespace Manifest

-- A piece of code: a declaration, or what a file holds outside of its declarations.
inductive Region
  | declaration (d : Target)
  | file (name : String)

-- The code that a usage is part of.
def regionOf (fs : List FileEntry) (e : UsageEntry) : Region :=
  match containerOf fs e with
  | some j => .declaration ⟨e.file, j⟩
  | none => .file e.file

-- The code that lives is the least set such that
-- 1. all code of an entry file lives
-- 2. a file is loaded once one of its declarations lives
-- 3. the target of a usage lives if the usage counts and the code that it is part of lives
inductive Live (promoted : String → Bool) (mode : Mode) (m : Manifest) : Region → Prop
  | entryFile : f ∈ m.files → f.isEntry promoted → Live promoted mode m (.file f.filename)
  | entryDeclaration : f ∈ m.files → f.isEntry promoted → j < f.declarations.length →
    Live promoted mode m (.declaration ⟨f.filename, j⟩)
  | loaded : Live promoted mode m (.declaration d) → Live promoted mode m (.file d.file)
  | target : e ∈ m.usages → mode.counts e.kind → Live promoted mode m (regionOf m.files e) →
    Live promoted mode m (.declaration e.target)

theorem FileEntry.isEntry_mono {f : FileEntry} (he : ∀ name, promoted name → promoted' name)
    (h : f.isEntry promoted) : f.isEntry promoted' := by
  simp only [isEntry, Bool.or_eq_true] at h ⊢
  exact h.imp_right (he _)

-- Code lives on when more entry files, files and usages are known, as long as usages stay where they are.
theorem Live.mono {m m' : Manifest} (he : ∀ name, promoted name → promoted' name)
    (hf : m.files ⊆ m'.files) (hu : m.usages ⊆ m'.usages)
    (hr : ∀ e ∈ m.usages, regionOf m.files e = regionOf m'.files e) (h : Live promoted mode m r) :
    Live promoted' mode m' r := by
  induction h
  case entryFile hm hb => exact .entryFile (hf hm) (FileEntry.isEntry_mono he hb)
  case entryDeclaration hm hb hj => exact .entryDeclaration (hf hm) (FileEntry.isEntry_mono he hb) hj
  case loaded hi => exact .loaded hi
  case target hm hc _ hi => exact .target (hu hm) hc (hr _ hm ▸ hi)

-- The code that a node of the project stands for.
inductive Denotes (fs : List FileEntry) : Node → Region → Prop
  | file : fs[i]? = some f → Denotes fs (.file i) (.file f.filename)
  | declaration : (listing 0 fs)[k]? = some x → Denotes fs (.declaration k) (.declaration x.target)

variable {promoted : String → Bool} {mode : Mode} {m : Manifest} {fs : List FileEntry} {p : Project}

section

variable (hn : (fs.map FileEntry.filename).Nodup)
include hn

theorem file_unique {f g : FileEntry} {i j : Nat} (hf : fs[i]? = some f) (hg : fs[j]? = some g)
    (he : f.filename = g.filename) : i = j := by
  have ⟨hi, _⟩ := List.getElem?_eq_some_iff.mp hf
  exact List.getElem?_inj (by simpa) hn |>.mp (by simp [hf, hg, he])

theorem listed_unique {x y : Listed} {k l : Nat} (hx : (listing 0 fs)[k]? = some x)
    (hy : (listing 0 fs)[l]? = some y) (he : x.target = y.target) : k = l := by
  have ⟨f, hf, _, hxf, _, hk⟩ := of_getElem?_listing hx
  have ⟨g, hg, _, hyg, _, hl⟩ := of_getElem?_listing hy
  simp only [Listed.target, Target.mk.injEq] at he
  rw [hk, hl, file_unique hn hf hg (by rw [← hxf, ← hyg, he.left]), he.right]

theorem Denotes.unique (hx : Denotes fs x r) (hy : Denotes fs y s) (he : r = s) : x = y := by
  cases hx <;> cases hy <;> simp only [Region.file.injEq, Region.declaration.injEq, reduceCtorEq] at he
  case file hf _ _ hg => rw [file_unique hn hf hg he]
  case declaration hx _ _ hy => rw [listed_unique hn hx hy he]

end

theorem Resolves.denotes (h : Resolves fs e u) : Denotes fs u.owner (regionOf fs e) := by
  cases hc : containerOf fs e
  case none =>
    obtain ⟨f, hf, hn⟩ := h.file
    simp only [Usage.owner, regionOf, hc, h.orphan hc]
    exact hn ▸ .file hf
  case some j =>
    obtain ⟨c, x, hu, hx, ht⟩ := h.contained hc
    simp only [Usage.owner, regionOf, hc, hu]
    exact ht ▸ .declaration hx

-- The code that a node stands for lives; for a usage, that is the code that it is part of.
def Alive (promoted : String → Bool) (mode : Mode) (m : Manifest) : Node → Prop
  | .project => True
  | .file i => ∃ f, m.files[i]? = some f ∧ Live promoted mode m (.file f.filename)
  | .declaration k => ∃ x, m.listed[k]? = some x ∧ Live promoted mode m (.declaration x.target)
  | .usage n => ∃ e, m.usages[n]? = some e ∧ mode.counts e.kind ∧
    Live promoted mode m (regionOf m.files e)

theorem alive_iff_live (hd : Denotes m.files x r) :
    Alive promoted mode m x ↔ Live promoted mode m r := by
  cases hd
  case file hf => simp [Alive, hf]
  case declaration hx => simp [Alive, listed, hx]

end Manifest

namespace Project

-- The nodes that a walk reaches when none of them is blocked.
def Reachable (p : Project) (mode : Mode) : Node → Prop :=
  Worklist.Found (p.successors mode) ∅ [.project]

theorem Reachable.project {p : Project} : p.Reachable mode .project :=
  .root (.head _) (Set.notMem_empty _)

theorem Reachable.step {p : Project} (hp : p.WellFormed) (h : p.Reachable mode x)
    (hl : p.Leads mode x y) : p.Reachable mode y :=
  Worklist.Found.step h (mem_successors_iff hp |>.mpr hl) (Set.notMem_empty _)

end Project

namespace Manifest.Ingested

variable {promoted : String → Bool} {m : Manifest} {p : Project}
variable (h : Ingested promoted m.files m.usages p)
include h

theorem reachable_entry (hi : m.files[i]? = some f) (he : f.isEntry promoted) :
    p.Reachable mode (.file i) := by
  have ⟨_, hf, _, hb⟩ := h.file_of_entry hi
  exact Project.Reachable.project.step h.wellFormed <| .entry hf (hb ▸ he)

theorem reachable_of_live (hr : Live promoted mode m r) :
    ∃ x, Denotes m.files x r ∧ p.Reachable mode x := by
  induction hr
  case entryFile f hf he =>
    have ⟨i, hi⟩ := List.mem_iff_getElem?.mp hf
    exact ⟨.file i, .file hi, h.reachable_entry hi he⟩
  case entryDeclaration f j hf he hj =>
    have ⟨i, hi⟩ := List.mem_iff_getElem?.mp hf
    have ⟨f', hf', _, hb⟩ := h.file_of_entry hi
    have hx := getElem?_listing hi hj
    have ⟨d, hd, hx'⟩ := h.declaration_of_listed hx
    have hs : p.Leads mode (.file i) _ := .holds hf' (hb ▸ he) hd hx'.file
    exact ⟨_, .declaration hx, (h.reachable_entry hi he).step h.wellFormed hs⟩
  case loaded d _ hi =>
    have ⟨y, hy, hr⟩ := hi
    cases hy
    case declaration x hx _ =>
      have ⟨d, hd, hx'⟩ := h.declaration_of_listed hx
      have ⟨f, hf, _, hn, _⟩ := of_getElem?_listing hx
      rw [Listed.target, hn]
      exact ⟨.file x.file, .file hf, hr.step h.wellFormed (hx'.file ▸ .loads hd)⟩
  case target e he hc _ hi =>
    have ⟨n, hn⟩ := List.mem_iff_getElem?.mp he
    have ⟨u, hu, hr⟩ := h.usage_of_entry hn
    have ⟨y, hy, hl⟩ := hi
    have ⟨x, hx, ht⟩ := hr.target
    cases hy.unique h.filenames hr.denotes rfl
    have := hl.step h.wellFormed <| .emits hu (hr.kind ▸ hc)
    exact ⟨_, ht ▸ .declaration hx, this.step h.wellFormed <| .means hu⟩

theorem alive_of_leads (hl : p.Leads mode x y) (hx : Alive promoted mode m x) :
    Alive promoted mode m y := by
  cases hl
  case entry i f hf hb =>
    have ⟨e, he, _, hp⟩ := h.entry_of_file hf
    exact ⟨e, he, .entryFile (List.mem_of_getElem? he) (hp ▸ hb)⟩
  case holds i f k d hf hb hd hi =>
    have ⟨e, he, _, hp⟩ := h.entry_of_file hf
    have ⟨x, hx, hm⟩ := h.listed_of_declaration hd
    have ⟨e', he', hj, hn, _⟩ := of_getElem?_listing hx
    rw [← hm.file, hi, he] at he'
    cases he'
    have ⟨hj, _⟩ := List.getElem?_eq_some_iff.mp hj
    refine ⟨x, hx, ?_⟩
    rw [Listed.target, hn]
    exact .entryDeclaration (List.mem_of_getElem? he) (hp ▸ hb) hj
  case loads k d hd =>
    have ⟨y, hy, hl⟩ := hx
    have ⟨x, hx, hm⟩ := h.listed_of_declaration hd
    cases hy.symm.trans hx
    have ⟨f, hf, _, hn, _⟩ := of_getElem?_listing hy
    rw [hm.file]
    exact ⟨f, hf, hn ▸ hl.loaded⟩
  case emits n u hu hc =>
    have ⟨e, he, hr⟩ := h.entry_of_usage hu
    exact ⟨e, he, hr.kind ▸ hc, alive_iff_live hr.denotes |>.mp hx⟩
  case means n u hu =>
    have ⟨e, he, hr⟩ := h.entry_of_usage hu
    have ⟨x, ht, hx'⟩ := hr.target
    have ⟨e', he', hc, hl⟩ := hx
    cases he.symm.trans he'
    exact ⟨x, ht, hx' ▸ .target (List.mem_of_getElem? he) hc hl⟩

theorem reachable_iff_live (hd : Denotes m.files x r) :
    p.Reachable mode x ↔ Live promoted mode m r := by
  constructor
  case mp =>
    intro hr
    rw [← alive_iff_live hd]
    clear hd
    induction hr
    case root hx _ =>
      cases List.mem_singleton.mp hx
      trivial
    case step hl _ hi => exact h.alive_of_leads (Project.mem_successors_iff h.wellFormed |>.mp hl) hi
  case mpr =>
    intro hl
    have ⟨y, hy, hr⟩ := h.reachable_of_live hl
    exact hy.unique h.filenames hd rfl ▸ hr

end Manifest.Ingested

end DeadCode
