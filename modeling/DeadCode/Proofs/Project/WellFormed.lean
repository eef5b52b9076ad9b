import DeadCode.Project.Build
import Mathlib.Data.List.Nodup

namespace DeadCode

-- The indices of the elements with a property, in increasing order.
def indicesOf (xs : Array α) (P : α → Prop) [DecidablePred P] : List Nat :=
  (List.range xs.size).filter fun i => xs[i]?.any (P ·)

section

variable {xs : Array α} {P : α → Prop} [DecidablePred P]

theorem mem_indicesOf : i ∈ indicesOf xs P ↔ ∃ x, xs[i]? = some x ∧ P x := by
  simp only [indicesOf, List.mem_filter, List.mem_range, Option.any_eq_true, decide_eq_true_eq]
  constructor
  case mp => exact And.right
  case mpr =>
    intro ⟨x, hx, h⟩
    have ⟨hi, _⟩ := Array.getElem?_eq_some_iff.mp hx
    exact ⟨hi, x, hx, h⟩

theorem indicesOf_push : indicesOf (xs.push x) P = indicesOf xs P ++ if P x then [xs.size] else [] := by
  simp only [indicesOf, Array.size_push, List.range_succ, List.filter_append]
  congr 1
  case e_a =>
    apply List.filter_congr
    intro i hi
    have : i ≠ xs.size := by simp at hi; omega
    simp [Array.getElem?_push, this]
  case e_a =>
    simp only [Array.getElem?_push_size, Option.any_some, List.filter_cons, List.filter_nil]
    split <;> simp_all

theorem indicesOf_map {xs : Array β} (g : β → α) : indicesOf (xs.map g) P = indicesOf xs (P ∘ g) := by
  simp [indicesOf, Option.any_map]

theorem indicesOf_append {ys : Array α} :
    indicesOf (xs ++ ys) P = indicesOf xs P ++ (indicesOf ys P).map (xs.size + ·) := by
  simp only [indicesOf, Array.size_append, List.range_add, List.filter_append, List.filter_map]
  congr 1
  case e_a =>
    apply List.filter_congr
    intro i hi
    rw [Array.getElem?_append_left (List.mem_range.mp hi)]
  case e_a => simp [Function.comp_def, Array.getElem?_append_right]

theorem indicesOf_of_all (h : ∀ x ∈ xs, P x) : indicesOf xs P = List.range xs.size := by
  apply List.filter_eq_self.mpr
  intro i hi
  have hi := List.mem_range.mp hi
  simp [hi, h xs[i] (Array.getElem_mem hi)]

theorem indicesOf_of_none (h : ∀ x ∈ xs, ¬P x) : indicesOf xs P = [] := by
  apply List.filter_eq_nil_iff.mpr
  intro i hi
  have hi := List.mem_range.mp hi
  simp [hi, h xs[i] (Array.getElem_mem hi)]

end

theorem map_modify {xs : Array α} {g : α → β} (h : ∀ x, g (f x) = g x) :
    (xs.modify j f).map g = xs.map g := by
  ext i <;> simp only [Array.size_map, Array.size_modify, Array.getElem_map, Array.getElem_modify]
  split
  case isTrue => exact h _
  case isFalse => rfl

-- The numbers that the element at a place lists, if there is one.
def listAt (xs : Array α) (g : α → Array Nat) (i : Nat) : List Nat :=
  (xs[i]?.map g).elim [] Array.toList

section

variable {xs : Array α} {g : α → Array Nat}

theorem listAt_map : listAt (xs.map g) id i = listAt xs g i := by
  simp [listAt]

theorem listAt_push (h : g x = #[]) : listAt (xs.push x) g i = listAt xs g i := by
  simp only [listAt, Array.getElem?_push]
  split
  case isTrue hi => simp [h, hi]
  case isFalse => rfl

theorem listAt_modify {f : α → α} (hj : j < xs.size) (h : ∀ x, (g (f x)).toList = (g x).toList ++ ns) :
    listAt (xs.modify j f) g i = listAt xs g i ++ if j = i then ns else [] := by
  by_cases he : j = i
  case pos =>
    subst he
    simp [listAt, Array.getElem_modify, h, hj]
  case neg => simp [listAt, Array.getElem?_modify, he]

theorem listAt_modify_eq {f : α → α} (h : ∀ x, g (f x) = g x) :
    listAt (xs.modify j f) g i = listAt xs g i := by
  simp only [listAt, Array.getElem?_modify]
  split
  case isTrue => cases xs[i]? <;> simp [h]
  case isFalse => rfl

end

def File.orphans (f : File) : UsageKind → Array Nat
  | .checker => f.checkerOrphans
  | .grep => f.grepOrphans

def File.declare (f : File) (n : Nat) : File :=
  { f with declarations := f.declarations.push n }

def File.list (f : File) (n : Nat) : UsageKind → File
  | .checker => { f with checkerOrphans := f.checkerOrphans.push n }
  | .grep => { f with grepOrphans := f.grepOrphans.push n }

theorem File.orphans_list (f : File) :
    ((f.list n kind').orphans kind).toList =
      (f.orphans kind).toList ++ if kind' = kind then [n] else [] := by
  cases kind <;> cases kind' <;> simp [list, orphans]

def Declaration.usages (d : Declaration) : UsageKind → Array Nat
  | .checker => d.checkerUsages
  | .grep => d.grepUsages

def Declaration.list (d : Declaration) (n : Nat) : UsageKind → Declaration
  | .checker => { d with checkerUsages := d.checkerUsages.push n }
  | .grep => { d with grepUsages := d.grepUsages.push n }

theorem Declaration.usages_list (d : Declaration) :
    ((d.list n kind').usages kind).toList =
      (d.usages kind).toList ++ if kind' = kind then [n] else [] := by
  cases kind <;> cases kind' <;> simp [list, usages]

-- The node that lists a usage: the declaration it is part of, or else its file.
def Usage.owner (u : Usage) : Node :=
  match u.container with
  | some d => .declaration d
  | none => .file u.file

namespace Project

-- The usages that a node lists.
def listedUsages (p : Project) (kind : UsageKind) : Node → List Nat
  | .file i => listAt p.files (·.orphans kind) i
  | .declaration i => listAt p.declarations (·.usages kind) i
  | .project | .usage _ => []

-- A usage that refers to registered things only.
structure Fits (p : Project) (u : Usage) : Prop where
  file      : u.file < p.files.size
  target    : u.target < p.declarations.size
  container : u.container = some c → ∃ d, p.declarations[c]? = some d ∧ d.file = u.file

structure WellFormed (p : Project) : Prop where
  names        : ∀ {name i}, p.fileNamed? name = some i ↔ (p.files.map File.filename)[i]? = some name
  file         : ∀ {i : Nat} {d}, p.declarations[i]? = some d → d.file < p.files.size
  fits         : ∀ {i : Nat} {u}, p.usages[i]? = some u → p.Fits u
  declarations : ∀ i, listAt p.files File.declarations i = indicesOf p.declarations (·.file = i)
  usages       : ∀ kind node,
    p.listedUsages kind node = indicesOf p.usages fun u => u.kind = kind ∧ u.owner = node

variable {p q : Project} {u : Usage} {i id : Nat}

-- What is found by its name is found once.
theorem WellFormed.filenames (hp : p.WellFormed) : (p.files.map File.filename).toList.Nodup := by
  refine List.pairwise_iff_getElem.mpr fun i j hi hj hij he => ?_
  have hi := hp.names.mpr (Array.getElem?_eq_getElem hi)
  have hj := hp.names.mpr (Array.getElem?_eq_getElem hj)
  simp only [Array.getElem_toList] at he
  rw [he, hj, Option.some.injEq] at hi
  exact Nat.ne_of_gt hij hi

theorem WellFormed.fileNamed?_eq_some_iff (hp : p.WellFormed) : p.fileNamed? name = some i ↔
    ∃ f, p.files[i]? = some f ∧ f.filename = name := by
  simp [hp.names]

theorem WellFormed.declaration_of_mem {i k : Nat} {f : File} (hp : p.WellFormed)
    (hf : p.files[i]? = some f) (hk : k ∈ f.declarations) :
    ∃ d, p.declarations[k]? = some d ∧ d.file = i := by
  rw [← mem_indicesOf, ← hp.declarations]
  simpa [listAt, hf] using hk

theorem WellFormed.mem_declarations {i k : Nat} {f : File} (hp : p.WellFormed)
    (hf : p.files[i]? = some f) (hd : p.declarations[k]? = some d) (hi : d.file = i) :
    k ∈ f.declarations := by
  have hm : k ∈ indicesOf p.declarations (·.file = i) := mem_indicesOf.mpr ⟨d, hd, hi⟩
  rw [← hp.declarations] at hm
  simpa [listAt, hf] using hm

theorem empty_wellFormed : empty.WellFormed where
  names := by simp [empty, fileNamed?]
  file h := by simp [empty] at h
  fits h := by simp [empty] at h
  declarations _ := by simp [empty, listAt, indicesOf]
  usages _ node := by cases node <;> simp [empty, listedUsages, listAt, indicesOf]

theorem run_addFile (p : Project) (name : String) (entry : Bool) : (addFile name entry).run p =
    if (p.fileNamed? name).isSome then .error (.duplicateFile name) p
    else .ok p.files.size { p with
      files := p.files.push { filename := name, isEntrypoint := entry }
      filesByName := (name, p.files.size) :: p.filesByName } := by
  rfl

theorem run_addDeclaration (p : Project) (file : Nat) (name : Option String) (isExport : Bool) (span : Span) :
    (addDeclaration file name isExport span).run p =
      if p.files.size ≤ file then .error (.declarationInUnknownFile name span file) p
      else .ok p.declarations.size { p with
        files := p.files.modify file (·.declare p.declarations.size)
        declarations := p.declarations.push { file, name, isExport, span } } := by
  rfl

theorem addFile_ok (h : (addFile name entry).run p = .ok id q) : p.fileNamed? name = none ∧
    id = p.files.size ∧ q = { p with
      files := p.files.push { filename := name, isEntrypoint := entry }
      filesByName := (name, p.files.size) :: p.filesByName } := by
  rw [run_addFile] at h
  split at h
  case isTrue => contradiction
  case isFalse hn =>
    cases h
    exact ⟨Option.not_isSome_iff_eq_none.mp hn, rfl, rfl⟩

theorem addFile_error (h : (addFile name entry).run p = .error fault q) :
    (p.fileNamed? name).isSome ∧ fault = .duplicateFile name ∧ q = p := by
  rw [run_addFile] at h
  split at h
  case isTrue hn =>
    cases h
    exact ⟨hn, rfl, rfl⟩
  case isFalse => contradiction

theorem addDeclaration_ok (h : (addDeclaration file name isExport span).run p = .ok id q) :
    file < p.files.size ∧ id = p.declarations.size ∧ q = { p with
      files := p.files.modify file (·.declare p.declarations.size)
      declarations := p.declarations.push { file, name, isExport, span } } := by
  rw [run_addDeclaration] at h
  split at h
  case isTrue => contradiction
  case isFalse hf =>
    cases h
    exact ⟨Nat.lt_of_not_le hf, rfl, rfl⟩

theorem addDeclaration_error (h : (addDeclaration file name isExport span).run p = .error fault q) :
    p.files.size ≤ file ∧ q = p := by
  rw [run_addDeclaration] at h
  split at h
  case isTrue hf =>
    cases h
    exact ⟨hf, rfl⟩
  case isFalse => contradiction

theorem map_files_addDeclaration (g : File → β) (hg : ∀ f n, g (f.declare n) = g f)
    (h : (addDeclaration i name isExport span).run p = .ok id q) : q.files.map g = p.files.map g := by
  have ⟨_, _, hq⟩ := addDeclaration_ok h
  rw [hq]
  exact map_modify fun _ => hg ..

namespace WellFormed

theorem addFile (hp : p.WellFormed) (h : (Project.addFile name entry).run p = .ok id q) :
    q.WellFormed := by
  have ⟨hn, _, hq⟩ := addFile_ok h
  subst hq
  exact {
    names {m j} := by
      simp only [fileNamed?, Array.map_push, Array.getElem?_push, Array.size_map]
      by_cases he : m = name
      case pos =>
        have hj : (p.files.map File.filename)[j]? ≠ some name := by
          rw [ne_eq, ← hp.names, hn]
          nofun
        grind
      case neg =>
        have hj : p.fileNamed? m = some j ↔ (p.files.map File.filename)[j]? = some m := hp.names
        rw [fileNamed?] at hj
        grind
    file h := Array.size_push _ ▸ Nat.lt_succ_of_lt (hp.file h)
    fits h :=
      have ⟨hf, ht, hc⟩ := hp.fits h
      ⟨Array.size_push _ ▸ Nat.lt_succ_of_lt hf, ht, hc⟩
    declarations i := by
      rw [← hp.declarations i]
      exact listAt_push rfl
    usages kind node := by
      rw [← hp.usages kind node]
      cases node
      case file => exact listAt_push (by cases kind <;> rfl)
      all_goals rfl }

theorem addDeclaration (hp : p.WellFormed)
    (h : (Project.addDeclaration i name isExport span).run p = .ok id q) : q.WellFormed := by
  have ⟨hf, _, hq⟩ := addDeclaration_ok h
  have hn := map_files_addDeclaration File.filename (fun _ _ => rfl) h
  subst hq
  exact {
    names := hn ▸ hp.names
    file h := by
      simp only [Array.getElem?_push, Array.size_modify] at h ⊢
      split at h
      case isTrue =>
        cases h
        exact hf
      case isFalse => exact hp.file h
    fits h := by
      have ⟨hf, ht, hc⟩ := hp.fits h
      refine ⟨by simpa using hf, by simp; omega, ?_⟩
      intro c h
      have ⟨d, hd, he⟩ := hc h
      have ⟨hs, _⟩ := Array.getElem?_eq_some_iff.mp hd
      refine ⟨d, ?_, he⟩
      simpa [Array.getElem?_push, Nat.ne_of_lt hs] using hd
    declarations i := by
      rw [indicesOf_push, ← hp.declarations i]
      exact listAt_modify hf fun _ => Array.toList_push
    usages kind node := by
      rw [← hp.usages kind node]
      cases node
      case file => exact listAt_modify_eq fun _ => by cases kind <;> rfl
      case declaration => exact listAt_push (by cases kind <;> rfl)
      all_goals rfl }

end WellFormed

theorem attach_eq : p.attach n u =
    match u.container with
    | some d => { p with declarations := p.declarations.modify d (·.list n u.kind) }
    | none => { p with files := p.files.modify u.file (·.list n u.kind) } := by
  unfold attach
  split <;> simp_all only [Declaration.list, File.list]

theorem listedUsages_attach (hu : p.Fits u) (kind : UsageKind) (node : Node) :
    (p.attach n u).listedUsages kind node =
      p.listedUsages kind node ++ if u.kind = kind ∧ u.owner = node then [n] else [] := by
  rw [attach_eq]
  cases hc : u.container
  case none =>
    cases node
    case file i =>
      simp only [Usage.owner, hc, Node.file.injEq, and_comm, ite_and]
      exact listAt_modify hu.file fun f => f.orphans_list
    all_goals simp [Usage.owner, hc, listedUsages]
  case some c =>
    have ⟨d, hd, _⟩ := hu.container hc
    have ⟨hs, _⟩ := Array.getElem?_eq_some_iff.mp hd
    cases node
    case declaration i =>
      simp only [Usage.owner, hc, Node.declaration.injEq, and_comm, ite_and]
      exact listAt_modify hs fun d => d.usages_list
    all_goals simp [Usage.owner, hc, listedUsages]

@[simp]
theorem usages_attach : (p.attach n u).usages = p.usages := by
  rw [attach_eq]
  split <;> rfl

theorem checkUsage_ok (h : p.checkUsage u = .ok ()) : p.Fits u := by
  unfold checkUsage at h
  split at h
  case h_2 => contradiction
  case h_1 f hf =>
    have ⟨hs, _⟩ := Array.getElem?_eq_some_iff.mp hf
    simp only at h
    split at h
    case isTrue => contradiction
    case isFalse ht =>
      refine ⟨hs, Nat.lt_of_not_le ht, fun {c} hc => ?_⟩
      simp only [hc] at h
      split at h
      case h_2 => contradiction
      case h_1 d hd =>
        split at h
        case isTrue => contradiction
        case isFalse he => exact ⟨d, hd, Decidable.not_not.mp he⟩

theorem checkUsage_error (h : p.checkUsage u = .error fault) : ¬p.Fits u := by
  intro hu
  unfold checkUsage at h
  split at h
  case h_2 hf => simp [hu.file] at hf
  case h_1 f hf =>
    simp only [if_neg (Nat.not_le_of_lt hu.target)] at h
    cases hc : u.container
    case none => simp [hc, pure, Except.pure] at h
    case some c =>
      have ⟨d, hd, he⟩ := hu.container hc
      simp [hc, hd, he, pure, Except.pure] at h

theorem run_addUsage (p : Project) (u : Usage) : (addUsage u).run p =
    match p.checkUsage u with
    | .error fault => .error fault p
    | .ok _ => .ok p.usages.size { p.attach p.usages.size u with usages := p.usages.push u } := by
  cases h : p.checkUsage u
  case error => simp only [EStateM.run, addUsage, h]
  case ok    => simp only [EStateM.run, addUsage, h, usages_attach]

theorem addUsage_ok (h : (addUsage u).run p = .ok id q) : p.Fits u ∧ id = p.usages.size ∧
    q = { p.attach p.usages.size u with usages := p.usages.push u } := by
  rw [run_addUsage] at h
  split at h
  case h_1 => contradiction
  case h_2 hc =>
    cases h
    exact ⟨checkUsage_ok hc, rfl, rfl⟩

theorem addUsage_error (h : (addUsage u).run p = .error fault q) : ¬p.Fits u ∧ q = p := by
  rw [run_addUsage] at h
  split at h
  case h_1 hc =>
    cases h
    exact ⟨checkUsage_error hc, rfl⟩
  case h_2 => contradiction

-- The project without its usages and flags.
def outline (p : Project) : Project where
  filesByName := p.filesByName
  files := p.files.map fun f => { f with checkerOrphans := #[], grepOrphans := #[] }
  declarations := p.declarations.map fun d => { d with checkerUsages := #[], grepUsages := #[] }

theorem outline_attach : (p.attach n u).outline = p.outline := by
  rw [attach_eq]
  split <;> simp only [outline]
  case h_1 => rw [map_modify (by intro; cases u.kind <;> rfl)]
  case h_2 => rw [map_modify (by intro; cases u.kind <;> rfl)]

theorem outline_addUsage (h : (addUsage u).run p = .ok id q) : q.outline = p.outline := by
  have ⟨_, _, hq⟩ := addUsage_ok h
  rw [hq, ← outline_attach (p := p) (n := p.usages.size) (u := u)]
  rfl

section

variable (ho : q.outline = p.outline)
include ho

theorem map_files_of_outline (g : File → β)
    (hg : ∀ f, g { f with checkerOrphans := #[], grepOrphans := #[] } = g f) :
    q.files.map g = p.files.map g := by
  simpa [outline, Function.comp_def, hg] using congrArg (·.files.map g) ho

theorem map_declarations_of_outline (g : Declaration → β)
    (hg : ∀ d, g { d with checkerUsages := #[], grepUsages := #[] } = g d) :
    q.declarations.map g = p.declarations.map g := by
  simpa [outline, Function.comp_def, hg] using congrArg (·.declarations.map g) ho

theorem size_files_of_outline : q.files.size = p.files.size := by
  simpa using congrArg Array.size (map_files_of_outline ho File.filename fun _ => rfl)

theorem size_declarations_of_outline : q.declarations.size = p.declarations.size := by
  simpa using congrArg Array.size (map_declarations_of_outline ho Declaration.file fun _ => rfl)

theorem declaration_of_outline {i : Nat} {d : Declaration} (h : p.declarations[i]? = some d) :
    ∃ d', q.declarations[i]? = some d' ∧ d'.file = d.file := by
  have := congrArg (·[i]?) <| map_declarations_of_outline ho Declaration.file fun _ => rfl
  simpa [h] using this

theorem Fits.of_outline (h : p.Fits u) : q.Fits u where
  file := size_files_of_outline ho ▸ h.file
  target := size_declarations_of_outline ho ▸ h.target
  container hc := by
    have ⟨d, hd, he⟩ := h.container hc
    have ⟨d', hd', he'⟩ := declaration_of_outline ho hd
    exact ⟨d', hd', he'.trans he⟩

-- All but the usages is a matter of the outline.
theorem WellFormed.of_outline (hp : p.WellFormed)
    (hf : ∀ {i : Nat} {u}, q.usages[i]? = some u → p.Fits u)
    (hu : ∀ kind node,
      q.listedUsages kind node = indicesOf q.usages fun u => u.kind = kind ∧ u.owner = node) :
    q.WellFormed where
  names {name i} := by
    have hn : q.filesByName = p.filesByName := congrArg (·.filesByName) ho
    have hp : p.fileNamed? name = some i ↔ _ := hp.names
    rwa [map_files_of_outline ho File.filename fun _ => rfl, fileNamed?, hn]
  file h := by
    have ⟨d, hd, he⟩ := declaration_of_outline ho.symm h
    exact size_files_of_outline ho ▸ he ▸ hp.file hd
  fits h := (hf h).of_outline ho
  declarations i := by
    have hm := map_files_of_outline ho File.declarations fun _ => rfl
    have hd := map_declarations_of_outline ho Declaration.file fun _ => rfl
    calc
      _ = listAt p.files File.declarations i := by rw [← listAt_map, hm, listAt_map]
      _ = indicesOf (p.declarations.map Declaration.file) (· = i) := by
        rw [hp.declarations, indicesOf_map]
        rfl
      _ = indicesOf q.declarations (·.file = i) := by
        rw [← hd, indicesOf_map]
        rfl
  usages := hu

end

theorem WellFormed.addUsage (hp : p.WellFormed) (h : (Project.addUsage u).run p = .ok id q) :
    q.WellFormed := by
  have ⟨hf, _, hq⟩ := addUsage_ok h
  apply hp.of_outline (outline_addUsage h)
  case hf =>
    intro i v hv
    rw [hq, Array.getElem?_push] at hv
    split at hv
    case isTrue =>
      cases hv
      exact hf
    case isFalse => exact hp.fits hv
  case hu =>
    intro kind node
    rw [hq, indicesOf_push, ← hp.usages kind node]
    exact listedUsages_attach hf kind node

@[simp]
theorem flags_attach : (p.attach n u).flags = p.flags := by
  rw [attach_eq]
  split <;> rfl

theorem flags_addUsage (h : (addUsage u).run p = .ok id q) : q.flags = p.flags := by
  have ⟨_, _, hq⟩ := addUsage_ok h
  rw [hq]
  exact flags_attach

theorem WellFormed.withFlags (hp : p.WellFormed) (flags : FlagTable) :
    { p with flags }.WellFormed :=
  .of_outline (p := p) rfl hp hp.fits fun kind node => by
    rw [← hp.usages kind node]
    cases node <;> rfl

end Project

end DeadCode
