import DeadCode.Proofs.Manifest.Live

namespace DeadCode.Manifest

-- A usage with all that the manifest says of it. The declaration that it is part of is the one that
-- the entry names, or else the first one of the file whose span contains the location.
structure UsageEntry.Matches (fs : List FileEntry) (e : UsageEntry) (u : Usage) : Prop where
  kind     : u.kind = e.kind
  location : u.location = e.location
  place    : ∃ f, fs[u.file]? = some f ∧ f.filename = e.file ∧
    u.container = (e.container.or (f.declarations.findIdx? (·.span.contains e.location))).map
      (offset fs u.file + ·)
  target   : ∃ i f, fs[i]? = some f ∧ f.filename = e.target.file ∧
    u.target = offset fs i + e.target.declaration

-- A project that shows a manifest as it is. The declarations of a file have consecutive numbers, which
-- begin where those of the files before it end.
structure Mirrors (m : Manifest) (promoted : String → Bool) (p : Project) : Prop where
  sizes        : p.files.size = m.files.length ∧ p.declarations.size = m.listed.length ∧
    p.usages.size = m.usages.length
  files        : ∀ {i : Nat} {e}, m.files[i]? = some e → ∃ f, p.files[i]? = some f ∧
    f.filename = e.filename ∧ f.isEntrypoint = (e.isEntrypoint || promoted e.filename) ∧
    f.declarations.toList = List.range' (offset m.files i) e.declarations.length
  declarations : ∀ {i j : Nat} {e entry}, m.files[i]? = some e → e.declarations[j]? = some entry →
    ∃ d, p.declarations[offset m.files i + j]? = some d ∧ d.file = i ∧ d.name = entry.name ∧
      d.isExport = entry.isExport ∧ d.span = entry.span
  usages       : ∀ {n : Nat} {e}, m.usages[n]? = some e →
    ∃ u, p.usages[n]? = some u ∧ e.Matches m.files u
  searched     : ∀ node, (p.flags.get node).contains .searched ↔
    (∃ i f, node = .file i ∧ m.files[i]? = some f ∧ f.referenceSearch) ∨
    ∃ i f j entry, node = .declaration (offset m.files i + j) ∧ m.files[i]? = some f ∧
      f.declarations[j]? = some entry ∧ f.referenceSearch ∧ entry.searched

variable {fs : List FileEntry} {node : Node} {k : Nat}

theorem number_of_listed (h : (listing 0 fs)[k]? = some x) : ∃ f, fs[x.file]? = some f ∧
    f.filename = x.target.file ∧ k = offset fs x.file + x.target.declaration := by
  have ⟨f, hf, _, hn, _, hk⟩ := of_getElem?_listing h
  exact ⟨f, hf, hn.symm, hk⟩

theorem contains_searchFlags : (searchFlags fs node).contains .searched ↔
    (∃ i f, node = .file i ∧ fs[i]? = some f ∧ f.referenceSearch) ∨
    ∃ i f j entry, node = .declaration (offset fs i + j) ∧ fs[i]? = some f ∧
      f.declarations[j]? = some entry ∧ f.referenceSearch ∧ entry.searched := by
  have hs (b : Bool) : (if b then Flags.searched else .none).contains .searched = b := by
    cases b <;> rfl
  have hn : Flags.none.contains .searched = false := rfl
  cases node
  case project => simp [searchFlags, hn]
  case usage => simp [searchFlags, hn]
  case file i =>
    simp only [searchFlags, hs]
    simp [Option.any_eq_true]
  case declaration k =>
    simp only [searchFlags, hs]
    simp only [Option.any_eq_true, Listed.searched, Bool.and_eq_true, reduceCtorEq, false_and,
      exists_false, false_or, Node.declaration.injEq]
    constructor
    case mp =>
      rintro ⟨x, hx, hf, he⟩
      obtain ⟨f, hi, hj, _, hr, hk⟩ := of_getElem?_listing hx
      exact ⟨x.file, f, x.index, x.entry, hk, hi, hj, hr ▸ hf, he⟩
    case mpr =>
      rintro ⟨i, f, j, entry, hk, hi, hj, hf, he⟩
      obtain ⟨hl, rfl⟩ := List.getElem?_eq_some_iff.mp hj
      exact ⟨_, hk ▸ getElem?_listing hi hl, hf, he⟩

namespace Ingested

theorem container_eq (h : Ingested promoted fs us p) (hu : Resolves fs e u)
    (hf : fs[u.file]? = some f) (hn : f.filename = e.file) :
    u.container = (e.container.or (f.declarations.findIdx? (·.span.contains e.location))).map
      (offset fs u.file + ·) := by
  have he : containerOf fs e =
      e.container.or (f.declarations.findIdx? (·.span.contains e.location)) := by
    unfold containerOf
    cases e.container
    case none => simp [← hn, find?_filename h.filenames (List.mem_of_getElem? hf)]
    case some => rfl
  rw [← he]
  cases hc : containerOf fs e
  case none => exact hu.orphan hc
  case some j =>
    have ⟨c, x, hc, hx, ht⟩ := hu.contained hc
    have ⟨g, hg, hn', hk⟩ := number_of_listed hx
    rw [hc, hk, ht, file_unique h.filenames hg hf (by rw [hn', hn, ht])]
    rfl

theorem usage_matches (h : Ingested promoted fs us p) (hu : Resolves fs e u) : e.Matches fs u where
  kind := hu.kind
  location := hu.location
  place := by
    have ⟨f, hf, hn⟩ := hu.file
    exact ⟨f, hf, hn, h.container_eq hu hf hn⟩
  target := by
    have ⟨x, hx, ht⟩ := hu.target
    have ⟨f, hf, hn, hk⟩ := number_of_listed hx
    exact ⟨x.file, f, hf, ht ▸ hn, ht ▸ hk⟩

theorem mirrors {m : Manifest} (h : Ingested promoted m.files m.usages p) : m.Mirrors promoted p where
  sizes := ⟨h.size_files, h.size_declarations, by simpa using h.usages.length_eq.symm⟩
  files hi := by
    have ⟨f, hf, hn, he⟩ := h.file_of_entry hi
    have hl := h.listAt_files hi
    simp only [listAt, hf, Option.map_some, Option.elim_some] at hl
    exact ⟨f, hf, hn, he, hl⟩
  declarations hi hj := by
    obtain ⟨hl, rfl⟩ := List.getElem?_eq_some_iff.mp hj
    obtain ⟨d, hd, hm⟩ := h.declaration_of_listed (getElem?_listing hi hl)
    exact ⟨d, hd, hm.file, hm.name, hm.isExport, hm.span⟩
  usages hn := by
    obtain ⟨u, hu, hr⟩ := h.usage_of_entry hn
    exact ⟨u, hu, h.usage_matches hr⟩
  searched node := by
    rw [h.flags]
    exact contains_searchFlags

end Ingested

end DeadCode.Manifest
