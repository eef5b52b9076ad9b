import DeadCode.Manifest.Basic
import DeadCode.Proofs.Project.WellFormed

namespace DeadCode.Manifest

-- A declaration of a manifest, and where it is listed.
structure Listed where
  file         : Nat
  filename     : String
  fileSearched : Bool
  index        : Nat
  entry        : DeclarationEntry

namespace Listed

def target (x : Listed) : Target :=
  ⟨x.filename, x.index⟩

-- References to a declaration count as looked for only if its file has been searched too.
def searched (x : Listed) : Bool :=
  x.fileSearched && x.entry.searched

end Listed

def FileEntry.listing (f : FileEntry) (file : Nat) : List Listed :=
  f.declarations.mapIdx fun index entry => ⟨file, f.filename, f.referenceSearch, index, entry⟩

-- The declarations of some files, of which the first has the number `n`.
def listing (n : Nat) : List FileEntry → List Listed
  | [] => []
  | f :: fs => f.listing n ++ listing (n + 1) fs

-- All declarations of a manifest.
def listed (m : Manifest) : List Listed :=
  listing 0 m.files

section

variable {f : FileEntry} {fs : List FileEntry} {x : Listed} {n i j k : Nat}

@[simp]
theorem FileEntry.length_listing : (f.listing n).length = f.declarations.length := by
  simp [FileEntry.listing]

theorem FileEntry.getElem?_listing : (f.listing n)[j]? =
    f.declarations[j]?.map fun entry => ⟨n, f.filename, f.referenceSearch, j, entry⟩ := by
  simp [FileEntry.listing]

theorem FileEntry.file_of_mem_listing (h : x ∈ f.listing n) : x.file = n := by
  have ⟨j, _, hx⟩ := List.mem_mapIdx.mp h
  simp [← hx]

theorem listing_append : listing n (fs ++ gs) = listing n fs ++ listing (n + fs.length) gs := by
  induction fs generalizing n <;> simp [listing]
  case cons hi => rw [hi, Nat.add_right_comm, Nat.add_assoc]

theorem file_of_mem_listing (h : x ∈ listing n fs) : n ≤ x.file ∧ x.file < n + fs.length := by
  induction fs generalizing n <;> simp [listing] at h
  case cons f fs hi =>
    cases h
    case inl h => simp [FileEntry.file_of_mem_listing h]
    case inr h =>
      have := hi h
      simp only [List.length_cons]
      omega

-- How many declarations come before those of a file.
def offset (fs : List FileEntry) (i : Nat) : Nat :=
  (listing 0 (fs.take i)).length

theorem offset_succ (hf : fs[i]? = some f) :
    offset fs (i + 1) = offset fs i + f.declarations.length := by
  simp [offset, List.take_add_one, hf, listing_append, listing]

theorem offset_mono (fs : List FileEntry) (h : i ≤ j) : offset fs i ≤ offset fs j := by
  have hs : fs.take j = fs.take i ++ (fs.drop i).take (j - i) := by
    rw [← List.take_add, Nat.add_sub_cancel' h]
  rw [offset, offset, hs, listing_append, List.length_append]
  exact Nat.le_add_right ..

theorem offset_le (fs : List FileEntry) (i : Nat) : offset fs i ≤ (listing 0 fs).length := by
  conv_rhs => rw [← List.take_append_drop i fs, listing_append, List.length_append]
  exact Nat.le_add_right ..

theorem listing_split (h : fs[i]? = some f) :
    listing 0 fs = listing 0 (fs.take i) ++ (f.listing i ++ listing (i + 1) (fs.drop (i + 1))) := by
  have ⟨hi, hf⟩ := List.getElem?_eq_some_iff.mp h
  conv_lhs => rw [← List.take_append_drop i fs, List.drop_eq_getElem_cons hi, hf]
  rw [listing_append, listing]
  simp [Nat.min_eq_left (Nat.le_of_lt hi)]

theorem getElem?_listing (h : fs[i]? = some f) (hj : j < f.declarations.length) :
    (listing 0 fs)[offset fs i + j]? =
      some ⟨i, f.filename, f.referenceSearch, j, f.declarations[j]⟩ := by
  rw [listing_split h, List.getElem?_append_right (by simp [offset])]
  simp only [offset, Nat.add_sub_cancel_left]
  rw [List.getElem?_append_left (by simpa), FileEntry.getElem?_listing]
  simp [hj]

-- The declarations of a file have consecutive numbers.
theorem indicesOf_listing (h : fs[i]? = some f) : indicesOf (listing 0 fs).toArray (·.file = i) =
    List.range' (offset fs i) f.declarations.length := by
  have hb : ∀ x ∈ (listing 0 (fs.take i)).toArray, x.file ≠ i := by
    intro x hx
    have := file_of_mem_listing (List.mem_toArray.mp hx)
    simp only [List.length_take] at this
    omega
  have hf : ∀ x ∈ (f.listing i).toArray, x.file = i :=
    fun x hx => FileEntry.file_of_mem_listing (List.mem_toArray.mp hx)
  have ha : ∀ x ∈ (listing (i + 1) (fs.drop (i + 1))).toArray, x.file ≠ i := by
    intro x hx
    have := file_of_mem_listing (List.mem_toArray.mp hx)
    omega
  rw [listing_split h, ← List.append_toArray, ← List.append_toArray, indicesOf_append,
    indicesOf_append, indicesOf_of_none hb, indicesOf_of_all hf, indicesOf_of_none ha]
  simp [List.range'_eq_map_range, offset]

theorem of_getElem?_listing (h : (listing 0 fs)[k]? = some x) : ∃ f, fs[x.file]? = some f ∧
    f.declarations[x.index]? = some x.entry ∧ x.filename = f.filename ∧
    x.fileSearched = f.referenceSearch ∧ k = offset fs x.file + x.index := by
  have ⟨_, hx⟩ := file_of_mem_listing (List.mem_of_getElem? h)
  have ⟨i, hi⟩ : ∃ i, x.file = i := ⟨_, rfl⟩
  have ⟨f, hf⟩ : ∃ f, fs[i]? = some f := ⟨_, List.getElem?_eq_getElem (by omega)⟩
  have hk : k ∈ indicesOf (listing 0 fs).toArray (·.file = i) :=
    mem_indicesOf.mpr ⟨x, by simpa using h, hi⟩
  rw [indicesOf_listing hf, List.mem_range'] at hk
  obtain ⟨j, hj, rfl⟩ := hk
  rw [Nat.one_mul, getElem?_listing hf hj] at h
  cases h
  exact ⟨f, hf, by simp, rfl, rfl, by simp⟩

end

end DeadCode.Manifest
