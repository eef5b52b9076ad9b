import DeadCode.Proofs.Analysis.Marked
import DeadCode.Proofs.Mark.Exact
import DeadCode.Proofs.Project.Lookup

namespace DeadCode

section

variable {xs : Array α} {P : α → Prop} [DecidablePred P]

theorem pairwise_indicesOf : (indicesOf xs P).Pairwise (· < ·) :=
  List.pairwise_lt_range.filter _

theorem nodup_indicesOf : (indicesOf xs P).Nodup :=
  pairwise_indicesOf.imp Nat.ne_of_lt

theorem count_indicesOf (h : xs[i]? = some x) : (indicesOf xs P).count i = if P x then 1 else 0 := by
  simp [nodup_indicesOf.count, mem_indicesOf, h]

theorem lt_of_mem_indicesOf (h : i ∈ indicesOf xs P) : i < xs.size := by
  have ⟨_, hx, _⟩ := mem_indicesOf.mp h
  exact (Array.getElem?_eq_some_iff.mp hx).1

end

namespace FlagTable

theorem get_remove_of_ne (table : FlagTable) (hy : y ≠ x) :
    (table.remove x flags).get y = table.get y := by
  rw [remove, get_set, if_neg hy]

theorem get_foldl_remove {xs : List Node} (table : FlagTable) (hx : x ∉ xs) :
    (xs.foldl (fun table node => table.remove node mask) table).get x = table.get x := by
  induction xs generalizing table
  case nil => rfl
  case cons y xs hi =>
    simp only [List.mem_cons, not_or] at hx
    rw [List.foldl_cons, hi _ hx.right, get_remove_of_ne _ hx.left]

end FlagTable

-- Anything that can be done with a project. Nodes and numbers may be those of nothing at all.
inductive Call
  | register (r : Registration)
  | search (node : Node)
  | mark (flag : Flags) (mode : Mode)
  | reset (mask : Flags)

namespace Project

variable {p q : Project} {i k id : Nat}

-- To search for a node that is not registered is a misuse, which has no effect.
def call (p : Project) : Call → Project
  | .register r => p.afterwards r
  | .search x => if p.contains x then p.recordSearch x else p
  | .mark flag mode => (p.mark flag mode).1
  | .reset mask => p.reset mask

-- The project after a sequence of calls.
def ofCalls (cs : List Call) : Project :=
  cs.foldl call .empty

-- What is not registered carries no flags, so it carries none when it gets registered.
def Unflagged (p : Project) : Prop :=
  ∀ x, ¬p.contains x → p.flags.get x = .none

namespace Unflagged

theorem of_le (hp : p.Unflagged) (hf : q.flags = p.flags) (hi : p.files.size ≤ q.files.size)
    (hd : p.declarations.size ≤ q.declarations.size) (hu : p.usages.size ≤ q.usages.size) :
    q.Unflagged := by
  intro x hx
  have hx : ¬p.contains x := by
    cases x <;> simp only [Project.contains, decide_eq_true_eq, not_lt] at hx ⊢
    case project => exact hx
    all_goals omega
  rw [hf]
  exact hp x hx

theorem register (hp : p.Unflagged) (h : (register r).run p = .ok id q) : q.Unflagged := by
  cases r
  case file =>
    have ⟨_, _, hq⟩ := addFile_ok h
    apply hp.of_le <;> simp [hq]
  case declaration =>
    have ⟨_, _, hq⟩ := addDeclaration_ok h
    apply hp.of_le <;> simp [hq]
  case usage =>
    have ⟨_, _, hq⟩ := addUsage_ok h
    have ho := outline_addUsage h
    apply hp.of_le (flags_addUsage h)
    case hi => exact Nat.le_of_eq (size_files_of_outline ho).symm
    case hd => exact Nat.le_of_eq (size_declarations_of_outline ho).symm
    case hu => simp [hq]

theorem mark (hp : p.WellFormed) (hu : p.Unflagged) : (p.mark flag mode).1.Unflagged := by
  classical
  intro x hx
  have hx : ¬p.contains x := by
    rw [mark_fst] at hx
    cases x <;> exact hx
  rw [flags_mark hp, if_neg (mt (·.contains hp) hx)]
  exact hu x hx

theorem reset (hu : p.Unflagged) : (p.reset mask).Unflagged := by
  intro x hx
  have hx : ¬p.contains x := by cases x <;> exact hx
  have hn : x ∉ p.nodes := mt mem_nodes_iff.mp hx
  exact (FlagTable.get_foldl_remove p.flags hn).trans (hu x hx)

theorem recordSearch (hu : p.Unflagged) (hx : p.contains x) : (p.recordSearch x).Unflagged := by
  intro y hy
  have hy : ¬p.contains y := by cases y <;> exact hy
  have hn : y ≠ x := by
    rintro rfl
    exact hy hx
  rw [Project.recordSearch, FlagTable.get_insert, if_neg hn]
  exact hu y hy

end Unflagged

-- What every call preserves.
structure Sound (p : Project) : Prop where
  wellFormed : p.WellFormed
  unflagged  : p.Unflagged

theorem empty_sound : empty.Sound where
  wellFormed := empty_wellFormed
  unflagged x _ := by cases x <;> rfl

theorem Sound.call (hp : p.Sound) (c : Call) : (p.call c).Sound := by
  have ⟨hw, hu⟩ := hp
  cases c
  case register r =>
    rw [Project.call]
    cases h : (Project.register r).run p
    case error => rwa [afterwards_of_error h]
    case ok =>
      rw [afterwards, h]
      exact ⟨hw.register h, hu.register h⟩
  case search x =>
    rw [Project.call]
    split
    case isTrue hx => exact ⟨hw.withFlags _, hu.recordSearch hx⟩
    case isFalse => exact hp
  case mark => exact ⟨hw.mark _ _, hu.mark hw⟩
  case reset => exact ⟨hw.withFlags _, hu.reset⟩

theorem sound_ofCalls (cs : List Call) : (ofCalls cs).Sound :=
  List.foldlRecOn cs _ empty_sound fun _ hp c _ => hp.call c

-- What holds of the files, declarations and usages of a project:
-- 1. filenames are unique, and the number that is found for a name is that of the file called so
-- 2. a declaration is listed once, by its file
-- 3. a usage is listed once, by the declaration that it is part of or else by its file, and among those
--    of its kind
-- 4. nothing else is listed, and each list goes upwards
-- 5. the file of a declaration is registered; so are the file and the target of a usage, and the
--    declaration that it is part of, which is in the same file
-- 6. what is not registered carries no flags
structure Intact (p : Project) : Prop where
  filenames    : (p.files.map File.filename).toList.Nodup
  names        : ∀ {name i}, p.fileNamed? name = some i ↔
    ∃ f, p.files[i]? = some f ∧ f.filename = name
  declarations : ∀ {k : Nat} {d}, p.declarations[k]? = some d → ∀ i,
    (listAt p.files File.declarations i).count k = if d.file = i then 1 else 0
  usages       : ∀ {n : Nat} {u}, p.usages[n]? = some u → ∀ kind x,
    (p.listedUsages kind x).count n = if u.kind = kind ∧ u.owner = x then 1 else 0
  listed       : (∀ i, ∀ k ∈ listAt p.files File.declarations i, k < p.declarations.size) ∧
    ∀ kind x, ∀ n ∈ p.listedUsages kind x, n < p.usages.size
  upwards      : (∀ i, (listAt p.files File.declarations i).Pairwise (· < ·)) ∧
    ∀ kind x, (p.listedUsages kind x).Pairwise (· < ·)
  file         : ∀ {k : Nat} {d}, p.declarations[k]? = some d → d.file < p.files.size
  fits         : ∀ {n : Nat} {u}, p.usages[n]? = some u → p.Fits u
  unflagged    : p.Unflagged

theorem Sound.intact (h : p.Sound) : p.Intact := by
  have hp := h.wellFormed
  exact {
    filenames := hp.filenames
    names := hp.fileNamed?_eq_some_iff
    declarations hd i := by rw [hp.declarations, count_indicesOf hd]
    usages hu kind x := by rw [hp.usages, count_indicesOf hu]
    listed := ⟨fun i k hk => lt_of_mem_indicesOf (hp.declarations i ▸ hk),
      fun kind x n hn => lt_of_mem_indicesOf (hp.usages kind x ▸ hn)⟩
    upwards := ⟨fun i => hp.declarations i ▸ pairwise_indicesOf,
      fun kind x => hp.usages kind x ▸ pairwise_indicesOf⟩
    file := hp.file
    fits := hp.fits
    unflagged := h.unflagged }

-- No number is looked up that stands for nothing: where such a number would leave a strict look-up
-- without a result, there is one, and it is the usual one.
structure NoneDangling (p : Project) : Prop where
  walk   : ∀ {σ : Type} (mode) (visit : σ → Node → σ × Bool) (budget s),
    p.walk mode (Worklist.strictly p.contains visit) budget (some s) =
      (p.walk mode visit budget s).map some
  mark   : ∀ flag mode, p.mark? flag mode = some (p.mark flag mode)
  sweep  : ∀ flag, p.sweep? flag = some (p.sweep flag)
  plan   : ∀ options, p.plan? options = some (p.plan options)
  cycles : ∀ isDead mode {components}, Digraph.ListsComponents components →
    Cycle.find? p isDead mode components = some (Cycle.find p isDead mode components) ∧
      ∀ isDead', (∀ k < p.declarations.size, isDead' k = isDead k) →
        Cycle.find p isDead' mode components = Cycle.find p isDead mode components
  dot    : ∀ flag, Dot.render? p flag = some (Dot.render p flag)

theorem WellFormed.noneDangling (hp : p.WellFormed) : p.NoneDangling where
  walk _ visit _ _ := walk_strictly hp visit
  mark _ _ := mark?_eq hp
  sweep _ := sweep?_eq
  plan _ := plan?_eq hp
  cycles _ _ _ h := ⟨Cycle.find?_eq h, fun _ => Cycle.find_congr⟩
  dot _ := Dot.render?_eq hp

-- Whatever has happened to a project, it is intact. A call that is refused leaves it exactly as it is.
theorem intact_ofCalls (cs : List Call) : (ofCalls cs).Intact ∧ (ofCalls cs).NoneDangling ∧
    ∀ {r fault q}, (register r).run (ofCalls cs) = .error fault q → q = ofCalls cs :=
  have hs := sound_ofCalls cs
  ⟨hs.intact, hs.wellFormed.noneDangling, register_error⟩

end Project

end DeadCode
