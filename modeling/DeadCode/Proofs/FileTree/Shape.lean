import DeadCode.Proofs.FileTree.Locate

namespace DeadCode

def Entry.isFile : Entry → Bool
  | file _ => true
  | directory | link _ => false

namespace FileTree

variable {t u v : FileTree} {ending : Ending} {path text : String} {p q : Place} {l : Location}

-- The directory or link at a place.
def shape (t : FileTree) (p : Place) : Option Entry :=
  (t.get? p).filter (!·.isFile)

-- Two trees that differ in their files at most.
structure SameShape (t u : FileTree) : Prop where
  current : t.current = u.current
  shape   : t.shape = u.shape

theorem ne_nil_of_shape (h : t.shape p = none) : p ≠ [] := by
  rintro rfl
  contradiction

theorem shape_of_get? (h : t.get? p = some entry) :
    t.shape p = if entry.isFile then none else some entry := by
  cases hf : entry.isFile <;> simp [shape, h, hf]

namespace SameShape

theorem refl (t : FileTree) : t.SameShape t :=
  ⟨rfl, rfl⟩

theorem symm (h : t.SameShape u) : u.SameShape t :=
  ⟨h.current.symm, h.shape.symm⟩

theorem trans (h₁ : t.SameShape u) (h₂ : u.SameShape v) : t.SameShape v :=
  ⟨h₁.current.trans h₂.current, h₁.shape.trans h₂.shape⟩

theorem insert (hs : t.shape p = none) (content : ByteArray) :
    t.SameShape (t.insert p (.file content)) := by
  refine ⟨rfl, funext fun q => ?_⟩
  by_cases hq : q = p
  case pos => rw [hq, hs, shape_of_get? (get?_insert_self t _ (ne_nil_of_shape hs))]; rfl
  case neg => rw [FileTree.shape, FileTree.shape, get?_insert_of_ne t _ hq]

theorem erase (hs : t.shape p = none) : t.SameShape (t.erase p) := by
  refine ⟨rfl, funext fun q => ?_⟩
  by_cases hq : q = p
  case pos => rw [hq, hs, FileTree.shape, get?_erase_self t (ne_nil_of_shape hs)]; rfl
  case neg => rw [FileTree.shape, FileTree.shape, get?_erase_of_ne t hq]

theorem get? (h : t.SameShape u) (hg : t.get? p = some entry) (he : entry.isFile = false) :
    u.get? p = some entry := by
  have hs := congrFun h.shape p
  rw [shape_of_get? hg, he] at hs
  simpa using (Option.filter_eq_some_iff.mp hs.symm).left

-- Where there is neither directory nor link in one tree, there is none in the other.
theorem get?_of_shape (h : t.SameShape u) (hs : t.shape p = none) :
    u.get? p = none ∨ ∃ content, u.get? p = some (.file content) := by
  rw [h.shape] at hs
  cases hg : u.get? p
  case none => exact .inl rfl
  case some entry =>
    rw [shape_of_get? hg] at hs
    cases entry
    case file content => exact .inr ⟨content, rfl⟩
    case directory => cases hs
    case link => cases hs

end SameShape

namespace Location

def place : Location → Place
  | found p _ | vacant p => p

-- The directory or link that has been found, if it is one.
def shape : Location → Option Entry
  | found _ entry => if entry.isFile then none else some entry
  | vacant _ => none

-- Two locations that differ in a file at most.
structure SameShape (l m : Location) : Prop where
  place : l.place = m.place
  shape : l.shape = m.shape

end Location

namespace SameShape

variable (h : t.SameShape u)
include h

theorem walks (hw : t.Walks ending n here names l) :
    ∃ m, u.Walks ending n here names m ∧ l.SameShape m := by
  -- At a file, or where there is nothing, the other tree has a file or nothing as well.
  have last {name here n} {l : Location} (hn : Proper ending name [])
      (hl : l.SameShape (.vacant (here ++ [name]))) (hs : t.shape (here ++ [name]) = none) :
      ∃ m, u.Walks ending n here [name] m ∧ l.SameShape m := by
    rcases h.get?_of_shape hs with hg | ⟨content, hg⟩
    case inl => exact ⟨_, .vacant hn hg, hl⟩
    case inr => exact ⟨_, .file hn hg, hl.place, hl.shape⟩
  induction hw
  case arrive => exact ⟨_, .arrive, rfl, rfl⟩
  case idle hn _ hi =>
    have ⟨m, hm, hl⟩ := hi
    exact ⟨m, .idle hn hm, hl⟩
  case parent hi =>
    have ⟨m, hm, hl⟩ := hi
    exact ⟨m, .parent hm, hl⟩
  case enter hn hg _ hi =>
    have ⟨m, hm, hl⟩ := hi
    exact ⟨m, .enter hn (h.get? hg rfl) hm, hl⟩
  case file hn hg => exact last hn ⟨rfl, rfl⟩ (shape_of_get? hg)
  case vacant hn hg => exact last hn ⟨rfl, rfl⟩ (by simp [FileTree.shape, hg])
  case link hn hg he => exact ⟨_, .link hn (h.get? hg rfl) he, rfl, rfl⟩
  case jump hn hg hr _ hi =>
    have ⟨m, hm, hl⟩ := hi
    exact ⟨m, .jump hn (h.get? hg rfl) hr hm, hl⟩

theorem locate (hl : t.locate ending path = .ok l) :
    ∃ m, u.locate ending path = .ok m ∧ l.SameShape m := by
  have ⟨hp, hw⟩ := locate_ok_iff.mp hl
  have ⟨m, hm, hs⟩ := h.walks hw
  exact ⟨m, locate_ok_iff.mpr ⟨hp, h.current ▸ hm⟩, hs⟩

end SameShape

-- A path leads to a place, be it that something is there or that something could be put there.
def Leads (t : FileTree) (path : String) (p : Place) : Prop :=
  ∃ l, t.locate .create path = .ok l ∧ l.place = p

theorem SameShape.leads (h : t.SameShape u) (hp : t.Leads path p) : u.Leads path p := by
  have ⟨l, hl, hp⟩ := hp
  have ⟨m, hm, hs⟩ := h.locate hl
  exact ⟨m, hm, hs.place ▸ hp⟩

theorem write_ok (h : t.write path text = .ok u) :
    ∃ p, t.Leads path p ∧ t.shape p = none ∧ u = t.insert p (.file text.toUTF8) := by
  have ⟨l, hl, h⟩ := bind_ok h
  have hh := (locate_ok_iff.mp hl).right.holds
  match l with
  | .found p .directory => cases h
  | .found p (.file _) =>
    cases h
    exact ⟨p, ⟨_, hl, rfl⟩, shape_of_get? hh, rfl⟩
  | .found p (.link _) => cases hh.right
  | .vacant p =>
    cases h
    exact ⟨p, ⟨_, hl, rfl⟩, by simp [shape, show t.get? p = none from hh], rfl⟩

theorem remove_ok (h : t.remove path dryRun = .ok (.removed u)) :
    ∃ p, t.Leads path p ∧ t.shape p = none ∧ u = if dryRun then t else t.erase p := by
  unfold remove at h
  split at h <;> simp only [Except.ok.injEq, reduceCtorEq, Removal.removed.injEq] at h
  case h_6 p content hl =>
    have ⟨hp, hw⟩ := locate_ok_iff.mp hl
    have hc : t.locate .create path = .ok (.found p (.file content)) :=
      locate_ok_iff.mpr ⟨hp, hw.file_of_file nofun⟩
    exact ⟨p, ⟨_, hc, rfl⟩, shape_of_get? hw.holds, h.symm⟩

-- What a tree has become: only files have changed, and only where the given paths lead.
structure Alters (paths : List String) (t u : FileTree) : Prop where
  shape : t.SameShape u
  frame : ∀ p, u.get? p ≠ t.get? p → ∃ path ∈ paths, t.Leads path p

namespace Alters

variable {paths more : List String}

theorem refl (t : FileTree) : Alters paths t t :=
  ⟨.refl t, fun _ h => absurd rfl h⟩

theorem trans (h₁ : Alters paths t u) (h₂ : Alters paths u v) : Alters paths t v where
  shape := h₁.shape.trans h₂.shape
  frame p hp := by
    by_cases hu : u.get? p = t.get? p
    case pos =>
      have ⟨path, hm, hl⟩ := h₂.frame p (hu ▸ hp)
      exact ⟨path, hm, h₁.shape.symm.leads hl⟩
    case neg => exact h₁.frame p hu

theorem mono (hp : paths ⊆ more) (h : Alters paths t u) : Alters more t u where
  shape := h.shape
  frame p hd := by
    have ⟨path, hm, hl⟩ := h.frame p hd
    exact ⟨path, hp hm, hl⟩

theorem write (h : t.write path text = .ok u) : Alters [path] t u := by
  have ⟨p, hl, hs, hu⟩ := write_ok h
  subst hu
  refine ⟨.insert hs _, fun q hq => ⟨path, .head _, ?_⟩⟩
  by_cases he : q = p
  case pos => exact he ▸ hl
  case neg => exact absurd (get?_insert_of_ne t _ he) hq

theorem remove (h : t.remove path dryRun = .ok (.removed u)) : Alters [path] t u := by
  have ⟨p, hl, hs, hu⟩ := remove_ok h
  subst hu
  split
  case isTrue => exact .refl t
  case isFalse =>
    refine ⟨.erase hs, fun q hq => ⟨path, .head _, ?_⟩⟩
    by_cases he : q = p
    case pos => exact he ▸ hl
    case neg => exact absurd (get?_erase_of_ne t he) hq

end Alters

end FileTree

end DeadCode
