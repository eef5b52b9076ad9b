import DeadCode.Proofs.Manifest.Mirror

namespace DeadCode.Manifest

-- A manifest lists a declaration if it lists the file with so many declarations.
def Lists (fs : List FileEntry) (t : Target) : Prop :=
  ∃ f ∈ fs, f.filename = t.file ∧ t.declaration < f.declarations.length

-- A usage that refers only to what is listed.
structure UsageEntry.Consistent (fs : List FileEntry) (e : UsageEntry) : Prop where
  file      : ∃ f ∈ fs, f.filename = e.file
  target    : Lists fs e.target
  container : ∀ j ∈ e.container, Lists fs ⟨e.file, j⟩

structure Consistent (m : Manifest) : Prop where
  filenames : (m.files.map FileEntry.filename).Nodup
  usages    : ∀ e ∈ m.usages, e.Consistent m.files

-- What is wrong with the `n`-th usage. Its file is looked at first, then its target, and last the
-- declaration that it is part of.
inductive UsageEntry.Fault (fs : List FileEntry) (n : Nat) (e : UsageEntry) : IngestFault → Prop
  | file : (∀ f ∈ fs, f.filename ≠ e.file) → Fault fs n e (.usageFileMissing n e.file e.location)
  | targetFile : (∃ f ∈ fs, f.filename = e.file) → (∀ f ∈ fs, f.filename ≠ e.target.file) →
    Fault fs n e (.targetFileMissing n e.target)
  | target : (∃ f ∈ fs, f.filename = e.file) → f ∈ fs → f.filename = e.target.file →
    f.declarations.length ≤ e.target.declaration →
    Fault fs n e (.targetMissing n e.target f.declarations.length)
  | container : f ∈ fs → f.filename = e.file → Lists fs e.target → e.container = some j →
    f.declarations.length ≤ j →
    Fault fs n e (.containerMissing n e.file e.location j f.declarations.length)

-- What is wrong with the first entry that is at fault. Files come before usages.
inductive FirstFault (m : Manifest) : IngestFault → Prop
  | file : m.files = before ++ f :: after → (before.map FileEntry.filename).Nodup →
    f.filename ∈ before.map FileEntry.filename → FirstFault m (.graph (.duplicateFile f.filename))
  | usage : (m.files.map FileEntry.filename).Nodup → m.usages = before ++ e :: after →
    (∀ e' ∈ before, e'.Consistent m.files) → e.Fault m.files before.length fault → FirstFault m fault

section

variable {fs : List FileEntry} {e : UsageEntry} (hn : (fs.map FileEntry.filename).Nodup)
include hn

theorem Lists.lt_length (h : Lists fs t) (hf : f ∈ fs) (he : f.filename = t.file) :
    t.declaration < f.declarations.length := by
  have ⟨g, hg, he', ht⟩ := h
  cases List.inj_on_of_nodup_map hn hf hg (he.trans he'.symm)
  exact ht

theorem UsageEntry.Fault.not_consistent (h : e.Fault fs n fault) : ¬e.Consistent fs := by
  intro hc
  cases h
  case file hf =>
    have ⟨f, hm, he⟩ := hc.file
    exact hf f hm he
  case targetFile hf =>
    have ⟨f, hm, he, _⟩ := hc.target
    exact hf f hm he
  case target _ hf he hl => exact absurd (hc.target.lt_length hn hf he) (Nat.not_lt_of_le hl)
  case container hf he _ hj hl =>
    exact absurd ((hc.container _ hj).lt_length hn hf he) (Nat.not_lt_of_le hl)

end

theorem FirstFault.not_consistent (h : FirstFault m fault) : ¬m.Consistent := by
  intro hc
  cases h
  case file before f after hf _ hm =>
    have hn := hc.filenames
    rw [hf, List.map_append, List.map_cons, List.nodup_middle, List.nodup_cons] at hn
    exact hn.left (List.mem_append_left _ hm)
  case usage hn hu _ hf => exact hf.not_consistent hn <| hc.usages _ (by simp [hu])

theorem lists_of_listed {fs : List FileEntry} {k : Nat} (h : (listing 0 fs)[k]? = some x) :
    Lists fs x.target := by
  have ⟨f, hf, hx, hn, _⟩ := of_getElem?_listing h
  have ⟨hj, _⟩ := List.getElem?_eq_some_iff.mp hx
  exact ⟨f, List.mem_of_getElem? hf, hn.symm, hj⟩

theorem Resolves.consistent (h : Resolves fs e u) : e.Consistent fs where
  file := by
    have ⟨f, hf, he⟩ := h.file
    exact ⟨f, List.mem_of_getElem? hf, he⟩
  target := by
    have ⟨x, hx, ht⟩ := h.target
    exact ht ▸ lists_of_listed hx
  container j hj := by
    have ⟨c, x, _, hx, ht⟩ := h.contained (j := j) (by simp [containerOf, Option.mem_def.mp hj])
    exact ht ▸ lists_of_listed hx

namespace Ingested

variable {promoted : String → Bool} {fs : List FileEntry} {e : UsageEntry} {p : Project} {i : Nat}

theorem usages_consistent (h : Ingested promoted fs us p) (he : e ∈ us) : e.Consistent fs := by
  have ⟨n, hn⟩ := List.mem_iff_getElem?.mp he
  have ⟨u, _, hr⟩ := h.usage_of_entry hn
  exact hr.consistent

-- A declaration of a file that has just been registered is never refused.
theorem addDeclaration_ne_error {ds : List DeclarationEntry} {f : FileEntry}
    (h : Ingested promoted (fs ++ [{ f with declarations := ds }]) [] p) :
    Manifest.addDeclaration fs.length f.referenceSearch p d ≠ .error stalled := by
  intro he
  cases bind_error he
  case inl he =>
    have ⟨_, he, _⟩ := proceed_error he
    exact absurd (Project.addDeclaration_error he).left (by simp [h.size_files])
  case inr he =>
    have ⟨_, _, he⟩ := he
    contradiction

theorem addEntry_error (h : Ingested promoted fs [] p)
    (he : Manifest.addFile promoted p f = .error stalled) :
    f.filename ∈ fs.map FileEntry.filename ∧ stalled.fault = .graph (.duplicateFile f.filename) := by
  cases bind_error he
  case inl he =>
    have ⟨fault, he, hs⟩ := proceed_error he
    have ⟨hi, hf, _⟩ := Project.addFile_error he
    have ⟨i, hi⟩ := Option.isSome_iff_exists.mp hi
    have ⟨e, he, hn⟩ := h.fileNamed?_eq_some hi
    exact ⟨List.mem_map.mpr ⟨e, List.mem_of_getElem? he, hn⟩, by rw [hs, hf]⟩
  case inr he =>
    -- The file itself is registered by now, so all that is left to go wrong are its declarations.
    have ⟨⟨i, q⟩, hq, he⟩ := he
    have hq := proceed_ok hq
    have ⟨_, hi, _⟩ := Project.addFile_ok hq
    rw [hi, h.size_files] at he
    have ⟨_, _, _, _, _, hr, he⟩ := foldlM_error
      (P := fun ds q => Ingested promoted (fs ++ [{ f with declarations := ds }]) [] q)
      (fun h hq => h.addDeclaration _ hq) (h.size_files ▸ hi ▸ h.addFile f hq) he
    exact absurd he hr.addDeclaration_ne_error

section

variable (h : Ingested promoted fs us p)
include h

theorem fits (hu : Resolves fs e u) : p.Fits u where
  file := by
    have ⟨f, hf, _⟩ := hu.file
    exact h.size_files ▸ (List.getElem?_eq_some_iff.mp hf).1
  target := by
    have ⟨x, hx, _⟩ := hu.target
    exact h.size_declarations ▸ (List.getElem?_eq_some_iff.mp hx).1
  container {c} hc := by
    cases hj : containerOf fs e
    case none =>
      rw [hu.orphan hj] at hc
      contradiction
    case some j =>
      have ⟨c', x, hc', hx, ht⟩ := hu.contained hj
      cases hc.symm.trans hc'
      have ⟨d, hd, hm⟩ := h.declaration_of_listed hx
      have ⟨f, hf, hn⟩ := hu.file
      have ⟨g, hg, _, hn', _⟩ := of_getElem?_listing hx
      refine ⟨d, hd, ?_⟩
      rw [hm.file]
      apply file_unique h.filenames hg hf
      rw [← hn', hn]
      exact congrArg Target.file ht

theorem resolveTarget_error (hf : ∃ f ∈ fs, f.filename = e.file)
    (ht : resolveTarget p n e.target = .error fault) : e.Fault fs n fault := by
  unfold resolveTarget at ht
  split at ht
  case h_1 hi =>
    cases ht
    exact .targetFile hf (h.fileNamed?_eq_none hi)
  case h_2 i hi =>
    have ⟨f, hf', hn⟩ := h.fileNamed?_eq_some hi
    split at ht
    case h_1 => contradiction
    case h_2 hk =>
      cases ht
      rw [h.size_declarationsOf hf']
      rw [Array.getElem?_eq_none_iff, h.size_declarationsOf hf'] at hk
      exact .target hf (List.mem_of_getElem? hf') hn hk

theorem resolveContainer_error (hf : fs[i]? = some f) (hn : f.filename = e.file)
    (ht : Lists fs e.target) (hc : resolveContainer p n i e = .error fault) : e.Fault fs n fault := by
  unfold resolveContainer at hc
  split at hc
  case h_1 => contradiction
  case h_2 j hj =>
    split at hc
    case h_1 => contradiction
    case h_2 hk =>
      cases hc
      rw [h.size_declarationsOf hf]
      rw [Array.getElem?_eq_none_iff, h.size_declarationsOf hf] at hk
      exact .container (List.mem_of_getElem? hf) hn ht hj hk

theorem resolve_error (he : resolve p n e = .error fault) : e.Fault fs n fault := by
  unfold resolve at he
  split at he
  case h_1 i hi =>
    have ⟨f, hf, hn⟩ := h.fileNamed?_eq_some hi
    have hf' := List.mem_of_getElem? hf
    cases bind_error he
    case inl => contradiction
    case inr he =>
      have ⟨_, rfl, he⟩ := he
      cases bind_error he
      case inl he => exact h.resolveTarget_error ⟨f, hf', hn⟩ he
      case inr he =>
        have ⟨k, hk, he⟩ := he
        have ⟨x, hx, ht⟩ := resolveTarget_ok h hk
        cases bind_error he
        case inl he => exact h.resolveContainer_error hf hn (ht ▸ lists_of_listed hx) he
        case inr he =>
          have ⟨_, _, he⟩ := he
          contradiction
  case h_2 hi =>
    cases he
    exact .file (h.fileNamed?_eq_none hi)

theorem addUsage_error (he : Manifest.addUsage p (e, n) = .error stalled) :
    e.Fault fs n stalled.fault := by
  cases bind_error he
  case inl he =>
    have ⟨fault, he, hs⟩ := mapError_error he
    rw [hs]
    exact h.resolve_error he
  case inr he =>
    -- What has been resolved fits the project, so it is not refused any more.
    have ⟨u, hu, he⟩ := he
    cases bind_error he
    case inl he =>
      have ⟨_, he, _⟩ := proceed_error he
      exact absurd (h.fits (resolve_ok h (mapError_ok hu))) (Project.addUsage_error he).left
    case inr he =>
      have ⟨_, _, he⟩ := he
      contradiction

end

end Ingested

theorem split_of_zipIdx {xs : List α} (h : xs.zipIdx = before ++ (x, n) :: after) :
    xs = before.map Prod.fst ++ x :: after.map Prod.fst ∧ n = (before.map Prod.fst).length := by
  constructor
  case left => simpa using congrArg (List.map Prod.fst) h
  case right =>
    have hn := congrArg (·[before.length]?) h
    simp [List.getElem?_zipIdx] at hn
    simp [hn.right]

theorem firstFault_of_toProject {m : Manifest} (h : m.toProject promoted = .error stalled) :
    m.FirstFault stalled.fault := by
  cases bind_error h
  case inl h =>
    have ⟨before, f, after, q, hs, hq, he⟩ := foldlM_error
      (P := fun fs p => Ingested promoted fs [] p) (fun h hq => h.addEntry hq) .empty h
    have ⟨hm, hf⟩ := hq.addEntry_error he
    rw [hf]
    exact .file hs hq.filenames hm
  case inr h =>
    -- The usages come with their numbers, which the invariant has to forget.
    have ⟨p, hp, h⟩ := h
    have hs : Ingested promoted m.files (([] : List (UsageEntry × Nat)).map Prod.fst) p :=
      Ingested.addEntries hp
    have ⟨before, ⟨e, n⟩, after, q, hu, hq, he⟩ := foldlM_error
      (P := fun us p => Ingested promoted m.files (us.map Prod.fst) p)
      (fun h hq => by simpa using h.addUsage hq) hs h
    have ⟨hm, hn⟩ := split_of_zipIdx hu
    exact .usage hq.filenames hm (fun _ => hq.usages_consistent) (hn ▸ hq.addUsage_error he)

-- A manifest is accepted exactly if it is consistent. What is built then mirrors it; otherwise the
-- first entry at fault is reported.
theorem toProject_exact (m : Manifest) (promoted : String → Bool) :
    ((∃ p, m.toProject promoted = .ok p) ↔ m.Consistent) ∧
    (∀ p, m.toProject promoted = .ok p → m.Mirrors promoted p) ∧
    ∀ stalled, m.toProject promoted = .error stalled → m.FirstFault stalled.fault := by
  refine ⟨⟨?_, ?_⟩, ?_, ?_⟩
  · intro ⟨p, h⟩
    have h := toProject_ok h
    exact ⟨h.filenames, fun e he => h.usages_consistent he⟩
  · intro hc
    cases h : m.toProject promoted
    case error => exact absurd hc (firstFault_of_toProject h).not_consistent
    case ok p => exact ⟨p, rfl⟩
  · exact fun p h => (toProject_ok h).mirrors
  · exact fun _ => firstFault_of_toProject

end DeadCode.Manifest
