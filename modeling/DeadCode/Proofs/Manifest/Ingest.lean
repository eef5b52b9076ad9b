import DeadCode.Manifest.Ingest
import DeadCode.Proofs.Except
import DeadCode.Proofs.Manifest.Listing
import DeadCode.Proofs.Mark

namespace DeadCode

theorem getElem?_of_forall₂ {R : α → β → Prop} {n : Nat} (h : List.Forall₂ R xs ys)
    (hx : xs[n]? = some x) : ∃ y, ys[n]? = some y ∧ R x y := by
  induction h generalizing n
  case nil => simp at hx
  case cons hr _ hi =>
    cases n
    case zero =>
      cases hx
      exact ⟨_, rfl, hr⟩
    case succ => exact hi hx

namespace Manifest

theorem proceed_ok {x : EStateM GraphFault Project α} (h : proceed p x = .ok (a, q)) :
    x.run p = .ok a q := by
  unfold proceed at h
  split at h
  case h_1 hx =>
    cases h
    exact hx
  case h_2 => contradiction

theorem proceed_error {x : EStateM GraphFault Project α} (h : proceed p x = .error stalled) :
    ∃ fault, x.run p = .error fault stalled.project ∧ stalled.fault = .graph fault := by
  unfold proceed at h
  split at h
  case h_1 => contradiction
  case h_2 fault q hx =>
    cases h
    exact ⟨fault, hx, rfl⟩

def FileEntry.isEntry (promoted : String → Bool) (f : FileEntry) : Bool :=
  f.isEntrypoint || promoted f.filename

def Listed.declaration (x : Listed) : Declaration where
  file     := x.file
  name     := x.entry.name
  isExport := x.entry.isExport
  span     := x.entry.span

-- A declaration of a project with all that the manifest says of it.
structure Listed.Matches (x : Listed) (d : Declaration) : Prop where
  file     : d.file = x.file
  name     : d.name = x.entry.name
  isExport : d.isExport = x.entry.isExport
  span     : d.span = x.entry.span

theorem Listed.Matches.of_eq {x : Listed} {d : Declaration}
    (h : { d with checkerUsages := #[], grepUsages := #[] } = x.declaration) : x.Matches d := by
  simp only [declaration, Declaration.mk.injEq] at h
  exact ⟨h.1, h.2.1, h.2.2.1, h.2.2.2.1⟩

-- The flags of the nodes before anything has been marked.
def searchFlags (fs : List FileEntry) : Node → Flags
  | .file i => if fs[i]?.any FileEntry.referenceSearch then .searched else .none
  | .declaration k => if (listing 0 fs)[k]?.any Listed.searched then .searched else .none
  | .project | .usage _ => .none

theorem recordSearch_if {b : Bool} {p : Project} : (if b then p.recordSearch node else p) =
    { p with flags := if b then p.flags.insert node .searched else p.flags } := by
  cases b <;> rfl

theorem get_insert_if {b : Bool} {table : FlagTable} {x y : Node} :
    (if b then table.insert x marks else table).get y =
      if b ∧ y = x then (table.get y).insert marks else table.get y := by
  cases b <;> simp [FlagTable.get_insert]

theorem listing_addFile {f : FileEntry} :
    listing 0 (fs ++ [{ f with declarations := [] }]) = listing 0 fs := by
  simp [listing_append, listing, FileEntry.listing]

theorem listing_addDeclaration {f : FileEntry} :
    listing 0 (fs ++ [{ f with declarations := ds ++ [d] }]) =
      listing 0 (fs ++ [{ f with declarations := ds }]) ++
        [⟨fs.length, f.filename, f.referenceSearch, ds.length, d⟩] := by
  simp [listing_append, listing, FileEntry.listing, List.mapIdx_concat]

-- Whether something has been searched can only change for the element that is added.
theorem searched_concat {xs : List α} {P : α → Bool} :
    (if (xs ++ [x])[k]?.any P then Flags.searched else .none) =
      if P x ∧ k = xs.length then (if xs[k]?.any P then Flags.searched else .none).insert .searched
      else if xs[k]?.any P then .searched else .none := by
  have : Flags.none.insert .searched = .searched := by decide
  grind

-- The declaration that an entry's usage is part of, by its place in the file: the one that the entry
-- names, or else the first one whose span contains the location.
def containerOf (fs : List FileEntry) (e : UsageEntry) : Option Nat :=
  match e.container with
  | some j => some j
  | none => do
    let f ← fs.find? (·.filename = e.file)
    f.declarations.findIdx? (·.span.contains e.location)

-- The usage that an entry stands for.
structure Resolves (fs : List FileEntry) (e : UsageEntry) (u : Usage) : Prop where
  kind      : u.kind = e.kind
  location  : u.location = e.location
  file      : ∃ f, fs[u.file]? = some f ∧ f.filename = e.file
  target    : ∃ x, (listing 0 fs)[u.target]? = some x ∧ x.target = e.target
  orphan    : containerOf fs e = none → u.container = none
  contained : ∀ {j}, containerOf fs e = some j →
    ∃ c x, u.container = some c ∧ (listing 0 fs)[c]? = some x ∧ x.target = ⟨e.file, j⟩

-- A project that mirrors files and usages of a manifest.
structure Ingested (promoted : String → Bool) (fs : List FileEntry) (us : List UsageEntry)
    (p : Project) : Prop where
  wellFormed   : p.WellFormed
  files        : (p.files.map fun f => (f.filename, f.isEntrypoint)).toList =
    fs.map fun f => (f.filename, f.isEntry promoted)
  declarations : p.outline.declarations.toList = (listing 0 fs).map Listed.declaration
  usages       : List.Forall₂ (Resolves fs) us p.usages.toList
  flags        : ∀ node, p.flags.get node = searchFlags fs node

namespace Ingested

variable {promoted : String → Bool} {fs : List FileEntry} {p q : Project} {x : Listed} {i k : Nat}

theorem empty : Ingested promoted [] [] .empty where
  wellFormed := Project.empty_wellFormed
  files := by simp [Project.empty]
  declarations := by simp [Project.outline, Project.empty, listing]
  usages := by simp [Project.empty]
  flags node := by cases node <;> rfl

theorem size_files (h : Ingested promoted fs us p) : p.files.size = fs.length := by
  simpa using congrArg List.length h.files

theorem size_declarations (h : Ingested promoted fs us p) :
    p.declarations.size = (listing 0 fs).length := by
  simpa [Project.outline] using congrArg List.length h.declarations

theorem size_usages (h : Ingested promoted fs us p) : p.usages.size = us.length := by
  simpa using h.usages.length_eq.symm

theorem addFile (h : Ingested promoted fs [] p) (f : FileEntry)
    (hq : (Project.addFile f.filename (f.isEntrypoint || promoted f.filename)).run p = .ok i q) :
    Ingested promoted (fs ++ [{ f with declarations := [] }]) []
      (if f.referenceSearch then q.recordSearch (.file i) else q) := by
  obtain ⟨_, rfl, he⟩ := Project.addFile_ok hq
  rw [recordSearch_if]
  exact {
    wellFormed := (h.wellFormed.addFile hq).withFlags _
    files := by
      have := h.files
      simp_all [FileEntry.isEntry]
    declarations := by
      rw [listing_addFile, ← h.declarations, he]
      rfl
    usages := by simpa [he] using h.usages
    flags node := by
      simp only [he, get_insert_if, h.flags, h.size_files]
      cases node <;> simp only [searchFlags, listing_addFile, searched_concat, Node.file.injEq,
        reduceCtorEq, and_false, if_false] }

theorem addDeclaration {ds : List DeclarationEntry} {f : FileEntry}
    (h : Ingested promoted (fs ++ [{ f with declarations := ds }]) [] p) (d : DeclarationEntry)
    (hq : addDeclaration fs.length f.referenceSearch p d = .ok q) :
    Ingested promoted (fs ++ [{ f with declarations := ds ++ [d] }]) [] q := by
  have ⟨⟨k, r⟩, hr, hq⟩ := bind_ok hq
  have hr := proceed_ok hr
  obtain ⟨_, rfl, he⟩ := Project.addDeclaration_ok hr
  cases hq
  rw [recordSearch_if]
  exact {
    wellFormed := (h.wellFormed.addDeclaration hr).withFlags _
    files := by
      have hm := Project.map_files_addDeclaration
        (fun f => (f.filename, f.isEntrypoint)) (fun _ _ => rfl) hr
      rw [hm, h.files]
      simp [FileEntry.isEntry]
    declarations := by
      have := h.declarations
      simp only [listing_addDeclaration, List.map_append, ← this, he]
      simp [Project.outline, Listed.declaration]
    usages := by simpa [he] using h.usages
    flags node := by
      simp only [he, get_insert_if, h.flags, h.size_declarations]
      cases node <;> simp only [searchFlags, listing_addDeclaration, searched_concat,
        Node.declaration.injEq, reduceCtorEq, and_false, if_false]
      rfl }

theorem addEntry (h : Ingested promoted fs [] p) (hq : Manifest.addFile promoted p f = .ok q) :
    Ingested promoted (fs ++ [f]) [] q := by
  have ⟨⟨i, r⟩, hr, hq⟩ := bind_ok hq
  have hr := proceed_ok hr
  have ⟨_, hi, _⟩ := Project.addFile_ok hr
  rw [hi, h.size_files] at hq
  exact foldlM_ok (P := fun ds q => Ingested promoted (fs ++ [{ f with declarations := ds }]) [] q)
    (fun h hq => h.addDeclaration _ hq) (h.size_files ▸ hi ▸ h.addFile f hr) hq

theorem addEntries (h : fs.foldlM (Manifest.addFile promoted) .empty = .ok p) :
    Ingested promoted fs [] p :=
  foldlM_ok (P := fun fs p => Ingested promoted fs [] p) (fun h hq => h.addEntry hq) .empty h

section

variable (h : Ingested promoted fs us p)
include h

theorem getElem?_files (i : Nat) : (p.files[i]?.map fun f => (f.filename, f.isEntrypoint)) =
    fs[i]?.map fun f => (f.filename, f.isEntry promoted) := by
  simpa using congrArg (·[i]?) h.files

theorem file_of_entry (hf : fs[i]? = some e) : ∃ f, p.files[i]? = some f ∧
    f.filename = e.filename ∧ f.isEntrypoint = e.isEntry promoted := by
  simpa [hf] using h.getElem?_files i

theorem entry_of_file {f : File} (hf : p.files[i]? = some f) : ∃ e, fs[i]? = some e ∧
    f.filename = e.filename ∧ f.isEntrypoint = e.isEntry promoted := by
  have := h.getElem?_files i
  simp [hf] at this
  obtain ⟨e, he, hn, hb⟩ := this
  exact ⟨e, he, hn.symm, hb.symm⟩

theorem getElem?_declarations (k : Nat) :
    (p.declarations[k]?.map fun d => { d with checkerUsages := #[], grepUsages := #[] }) =
      (listing 0 fs)[k]?.map Listed.declaration := by
  simpa [Project.outline] using congrArg (·[k]?) h.declarations

theorem declaration_of_listed (hx : (listing 0 fs)[k]? = some x) :
    ∃ d, p.declarations[k]? = some d ∧ x.Matches d := by
  have := h.getElem?_declarations k
  simp only [hx, Option.map_some, Option.map_eq_some_iff] at this
  obtain ⟨d, hd, he⟩ := this
  exact ⟨d, hd, .of_eq he⟩

theorem listed_of_declaration {d : Declaration} (hd : p.declarations[k]? = some d) :
    ∃ x, (listing 0 fs)[k]? = some x ∧ x.Matches d := by
  have := (h.getElem?_declarations k).symm
  simp only [hd, Option.map_some, Option.map_eq_some_iff] at this
  obtain ⟨x, hx, he⟩ := this
  exact ⟨x, hx, .of_eq he.symm⟩

theorem usage_of_entry {n : Nat} (he : us[n]? = some e) :
    ∃ u, p.usages[n]? = some u ∧ Resolves fs e u := by
  simpa using getElem?_of_forall₂ h.usages he

theorem entry_of_usage {n : Nat} (hu : p.usages[n]? = some u) :
    ∃ e, us[n]? = some e ∧ Resolves fs e u :=
  getElem?_of_forall₂ h.usages.flip (by simpa using hu)

-- The numbers of the declarations of a file.
theorem listAt_files (hf : fs[i]? = some f) :
    listAt p.files File.declarations i = List.range' (offset fs i) f.declarations.length := by
  have hm : p.declarations.map Declaration.file = (listing 0 fs).toArray.map Listed.file := by
    apply Array.ext'
    simpa [Project.outline, Function.comp_def, Listed.declaration] using
      congrArg (List.map Declaration.file) h.declarations
  calc
    _ = indicesOf (p.declarations.map Declaration.file) (· = i) := by
      rw [h.wellFormed.declarations, indicesOf_map]
      rfl
    _ = indicesOf (listing 0 fs).toArray (·.file = i) := by
      rw [hm, indicesOf_map]
      rfl
    _ = _ := indicesOf_listing hf

theorem fileNamed?_eq_some (hi : p.fileNamed? name = some i) :
    ∃ f, fs[i]? = some f ∧ f.filename = name := by
  have ⟨g, hg, hn⟩ := h.wellFormed.fileNamed?_eq_some_iff.mp hi
  have ⟨f, hf, he, _⟩ := h.entry_of_file hg
  exact ⟨f, hf, he ▸ hn⟩

theorem fileNamed?_eq_none (hi : p.fileNamed? name = none) : ∀ f ∈ fs, f.filename ≠ name := by
  intro f hf he
  have ⟨i, hi'⟩ := List.mem_iff_getElem?.mp hf
  have ⟨g, hg, hn, _⟩ := h.file_of_entry hi'
  have := h.wellFormed.fileNamed?_eq_some_iff.mpr ⟨g, hg, hn.trans he⟩
  cases hi.symm.trans this

theorem toList_declarationsOf (hf : fs[i]? = some f) :
    (declarationsOf p i).toList = List.range' (offset fs i) f.declarations.length := by
  rw [← h.listAt_files hf]
  unfold declarationsOf listAt
  cases p.files[i]? <;> rfl

theorem size_declarationsOf (hf : fs[i]? = some f) :
    (declarationsOf p i).size = f.declarations.length := by
  rw [← Array.length_toList, h.toList_declarationsOf hf, List.length_range']

theorem getElem?_declarationsOf (hf : fs[i]? = some f) (hk : (declarationsOf p i)[j]? = some k) :
    ∃ x, (listing 0 fs)[k]? = some x ∧ x.target = ⟨f.filename, j⟩ := by
  rw [← Array.getElem?_toList, h.toList_declarationsOf hf] at hk
  have ⟨hj, hk⟩ := List.getElem?_eq_some_iff.mp hk
  rw [List.length_range'] at hj
  rw [List.getElem_range', Nat.one_mul] at hk
  exact ⟨_, hk ▸ getElem?_listing hf hj, rfl⟩

theorem span_of_entry (hf : fs[i]? = some f) (hj : j < f.declarations.length) (location : Nat) :
    (p.declarations[offset fs i + j]?.any fun d => d.span.contains location) =
      f.declarations[j].span.contains location := by
  have ⟨d, hd, he⟩ := h.declaration_of_listed (getElem?_listing hf hj)
  simp [hd, he.span]

theorem declarationAt?_eq (hf : fs[i]? = some f) : p.declarationAt? i location =
    (f.declarations.findIdx? fun d => d.span.contains location).map (offset fs i + ·) := by
  obtain ⟨f', hf', _⟩ := h.file_of_entry hf
  have hl := h.listAt_files hf
  simp only [listAt, hf', Option.map_some, Option.elim_some] at hl
  simp only [Project.declarationAt?, hf', bind, Option.bind_some, ← Array.find?_toList, hl]
  cases hj : f.declarations.findIdx? fun d => d.span.contains location
  case none =>
    rw [Option.map_none, List.find?_range'_eq_none]
    rw [List.findIdx?_eq_none_iff] at hj
    intro k ho hk
    have hi : k - offset fs i < f.declarations.length := by omega
    have := h.span_of_entry hf hi location
    rw [Nat.add_sub_cancel' ho, hj _ (List.getElem_mem hi)] at this
    simpa using this
  case some j =>
    rw [Option.map_some, List.find?_range'_eq_some]
    obtain ⟨hj, hc, hn⟩ := List.findIdx?_eq_some_iff_getElem.mp hj
    refine ⟨?_, ?_, ?_⟩
    · rw [h.span_of_entry hf hj, hc]
    · simp [hj]
    · intro k ho hk
      have hi : k - offset fs i < f.declarations.length := by omega
      have := h.span_of_entry hf hi location
      rw [Nat.add_sub_cancel' ho] at this
      simpa [this] using hn (k - offset fs i) (by omega)

theorem filenames : (fs.map FileEntry.filename).Nodup := by
  have := congrArg (List.map Prod.fst) h.files
  have hn := h.wellFormed.filenames
  simp_all [Function.comp_def]

end

-- Projects built from the same files, be it with other usages and entry files.
section

variable (hp : Ingested promoted fs us p) (hq : Ingested promoted' fs us' q)
include hp hq

theorem filenames_eq : q.files.map File.filename = p.files.map File.filename := by
  have hn := congrArg (List.map Prod.fst) hq.files
  have hn' := congrArg (List.map Prod.fst) hp.files
  apply Array.toList_inj.mp
  simp_all [Function.comp_def]

theorem declarations_eq : q.outline.declarations = p.outline.declarations :=
  Array.toList_inj.mp (hq.declarations.trans hp.declarations.symm)

end

end Ingested

theorem find?_filename {fs : List FileEntry} (hn : (fs.map FileEntry.filename).Nodup) (hf : f ∈ fs) :
    fs.find? (·.filename = f.filename) = some f := by
  induction hf
  case head => simp
  case tail g fs hf hi =>
    simp only [List.map_cons, List.nodup_cons, List.mem_map, not_exists, not_and] at hn
    have hg : g.filename ≠ f.filename := fun he => hn.left f hf he.symm
    simp [hg, hi hn.right]

section

variable {fs : List FileEntry} {p : Project} (h : Ingested promoted fs us p)
include h

theorem resolveTarget_ok (ht : resolveTarget p n t = .ok k) :
    ∃ x, (listing 0 fs)[k]? = some x ∧ x.target = t := by
  unfold resolveTarget at ht
  split at ht
  case h_1 => contradiction
  case h_2 i hi =>
    have ⟨f, hf, hn⟩ := h.fileNamed?_eq_some hi
    split at ht
    case h_1 hk =>
      cases ht
      have ⟨x, hx, he⟩ := h.getElem?_declarationsOf hf hk
      exact ⟨x, hx, by rw [he, hn]⟩
    case h_2 => contradiction

theorem resolveContainer_ok (hf : fs[i]? = some f)
    (hn : f.filename = e.file) (hc : resolveContainer p n i e = .ok c) :
    (containerOf fs e = none → c = none) ∧ ∀ {j}, containerOf fs e = some j →
      ∃ k x, c = some k ∧ (listing 0 fs)[k]? = some x ∧ x.target = ⟨e.file, j⟩ := by
  unfold resolveContainer at hc
  split at hc
  case h_1 he =>
    cases hc
    have hm : containerOf fs e = f.declarations.findIdx? (·.span.contains e.location) := by
      simp [containerOf, he, ← hn, find?_filename h.filenames (List.mem_of_getElem? hf)]
    rw [hm, h.declarationAt?_eq hf]
    refine ⟨?_, ?_⟩
    · intro hj
      simp [hj]
    · intro j hj
      have ⟨hs, _⟩ := List.findIdx?_eq_some_iff_getElem.mp hj
      exact ⟨_, _, by rw [hj]; rfl, getElem?_listing hf hs, hn ▸ rfl⟩
  case h_2 j he =>
    simp only [containerOf, he]
    split at hc
    case h_1 k hk =>
      cases hc
      have ⟨x, hx, ht⟩ := h.getElem?_declarationsOf hf hk
      refine ⟨nofun, ?_⟩
      rintro _ ⟨⟩
      exact ⟨k, x, rfl, hx, hn ▸ ht⟩
    case h_2 => contradiction

theorem resolve_ok (hu : resolve p n e = .ok u) : Resolves fs e u := by
  unfold resolve at hu
  split at hu
  case h_1 i hi =>
    have ⟨_, rfl, hu⟩ := bind_ok hu
    have ⟨t, ht, hu⟩ := bind_ok hu
    have ⟨c, hc, hu⟩ := bind_ok hu
    have ⟨f, hf, hn⟩ := h.fileNamed?_eq_some hi
    have ⟨ho, hc⟩ := resolveContainer_ok h hf hn hc
    cases hu
    exact ⟨rfl, rfl, ⟨f, hf, hn⟩, resolveTarget_ok h ht, ho, hc⟩
  case h_2 => contradiction

theorem Ingested.addUsage (hq : Manifest.addUsage p (e, n) = .ok q) :
    Ingested promoted fs (us ++ [e]) q := by
  have ⟨u, hu, hq⟩ := bind_ok hq
  have hu := mapError_ok hu
  obtain ⟨⟨k, r⟩, hq, ⟨⟩⟩ := bind_ok hq
  have hq := proceed_ok hq
  have ho := Project.outline_addUsage hq
  exact {
    wellFormed := h.wellFormed.addUsage hq
    files := by
      rw [Project.map_files_of_outline ho _ fun _ => ?_]
      · exact h.files
      · rfl
    declarations := ho ▸ h.declarations
    usages := by
      have ⟨_, _, he⟩ := Project.addUsage_ok hq
      rw [he, Array.toList_push]
      exact List.rel_append h.usages (.cons (resolve_ok h hu) .nil)
    flags node := Project.flags_addUsage hq ▸ h.flags node }

end

-- What `toProject` builds.
theorem toProject_ok {m : Manifest} (h : m.toProject promoted = .ok p) :
    Ingested promoted m.files m.usages p := by
  have ⟨q, hq, hp⟩ := bind_ok h
  have hs : Ingested promoted m.files (([] : List (UsageEntry × Nat)).map Prod.fst) q :=
    Ingested.addEntries hq
  have := foldlM_ok (P := fun us p => Ingested promoted m.files (us.map Prod.fst) p)
    (fun h hq => by simpa using h.addUsage hq) hs hp
  simpa using this

end Manifest

end DeadCode
