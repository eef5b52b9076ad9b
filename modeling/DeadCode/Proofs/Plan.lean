import DeadCode.Plan
import DeadCode.Proofs.Project.WellFormed

namespace DeadCode

namespace Plan

-- The declarations that go, be it with their file or without it.
def Drops (plan : Plan) (declaration : Nat) : Prop :=
  ∃ f ∈ plan, declaration ∈ f.dead

def Deletes (plan : Plan) (file : Nat) : Prop :=
  ∃ f ∈ plan, f.file = file ∧ f.action = .delete

-- The text of a usage stays if neither its file nor the declaration that it is part of goes.
@[mk_iff]
structure Spares (plan : Plan) (u : Usage) : Prop where
  file      : ¬plan.Deletes u.file
  container : ∀ c ∈ u.container, ¬plan.Drops c

end Plan

namespace Project

variable {p : Project} {options : PruneOptions} {i k : Nat}

theorem isPrunable_iff : p.isPrunable options k ↔ ∃ d, p.declarations[k]? = some d ∧
    (p.flags.get (.declaration k)).isLive options.flag = false ∧
    options.ignore.covers (p.filename d.file) = false ∧ d.name.any options.ignore.covers = false := by
  cases hd : p.declarations[k]? <;> simp [isPrunable, hd, and_assoc]

-- The declarations of a file that are to go.
def deadOf (p : Project) (options : PruneOptions) (f : File) : List Nat :=
  f.declarations.toList.filter (p.isPrunable options)

def actionOf (p : Project) (options : PruneOptions) (f : File) : FileAction :=
  if !f.isEntrypoint && (p.deadOf options f).length == f.declarations.size then .delete
  else .snip (p.spans (p.deadOf options f))

theorem planFile?_of_some (hf : p.files[i]? = some f) : p.planFile? options i =
    if options.sources.allows f.filename ∧ p.deadOf options f ≠ [] then
      some ⟨i, f.filename, p.deadOf options f, p.actionOf options f⟩
    else none := by
  have he : p.planFile? options i = do
      guard (options.sources.allows f.filename)
      guard (!(p.deadOf options f).isEmpty)
      return ⟨i, f.filename, p.deadOf options f, p.actionOf options f⟩ := by
    unfold planFile?
    rw [hf]
    rfl
  rw [he]
  cases options.sources.allows f.filename <;> cases p.deadOf options f <;> rfl

theorem mem_plan_iff {x : FilePlan} : x ∈ p.plan options ↔ ∃ f, p.files[x.file]? = some f ∧
    options.sources.allows f.filename ∧ p.deadOf options f ≠ [] ∧
    x = ⟨x.file, f.filename, p.deadOf options f, p.actionOf options f⟩ := by
  simp only [plan, List.mem_filterMap, List.mem_range]
  constructor
  case mp =>
    intro ⟨i, hi, hx⟩
    have hf := Array.getElem?_eq_getElem hi
    simp only [planFile?_of_some hf, Option.ite_none_right_eq_some, Option.some.injEq] at hx
    obtain ⟨⟨ha, hd⟩, rfl⟩ := hx
    exact ⟨_, hf, ha, hd, rfl⟩
  case mpr =>
    intro ⟨f, hf, ha, hd, hx⟩
    refine ⟨x.file, (Array.getElem?_eq_some_iff.mp hf).1, ?_⟩
    rw [planFile?_of_some hf, if_pos ⟨ha, hd⟩]
    exact congrArg some hx.symm

theorem mem_plan (hf : p.files[i]? = some f) (ha : options.sources.allows f.filename)
    (hn : p.deadOf options f ≠ []) :
    ⟨i, f.filename, p.deadOf options f, p.actionOf options f⟩ ∈ p.plan options :=
  mem_plan_iff.mpr ⟨f, hf, ha, hn, rfl⟩

theorem filename_of_mem_plan (hx : x ∈ p.plan options) (hf : p.files[x.file]? = some f) :
    x.filename = f.filename := by
  have ⟨g, hg, _, _, he⟩ := mem_plan_iff.mp hx
  cases hf.symm.trans hg
  rw [he]

theorem mem_deadOf (hp : p.WellFormed) (hf : p.files[i]? = some f) : k ∈ p.deadOf options f ↔
    p.isPrunable options k ∧ ∃ d, p.declarations[k]? = some d ∧ d.file = i := by
  have hl := hp.declarations i
  simp only [listAt, hf, Option.map_some, Option.elim_some] at hl
  rw [deadOf, hl, List.mem_filter, mem_indicesOf, and_comm]

theorem drops_plan_iff (hp : p.WellFormed) : (p.plan options).Drops k ↔
    p.isPrunable options k ∧
      ∃ d, p.declarations[k]? = some d ∧ options.sources.allows (p.filename d.file) := by
  constructor
  case mp =>
    intro ⟨x, hx, hk⟩
    have ⟨f, hf, ha, _, he⟩ := mem_plan_iff.mp hx
    rw [he] at hk
    have ⟨hk, d, hd, hi⟩ := mem_deadOf hp hf |>.mp hk
    exact ⟨hk, d, hd, by simpa [filename, hi, hf] using ha⟩
  case mpr =>
    intro ⟨hk, d, hd, ha⟩
    have hf := Array.getElem?_eq_getElem (hp.file hd)
    have hm := mem_deadOf hp hf |>.mpr ⟨hk, d, hd, rfl⟩
    simp only [filename, hf, Option.map_some, Option.getD_some] at ha
    exact ⟨_, mem_plan hf ha (List.ne_nil_of_mem hm), hm⟩

theorem actionOf_eq_delete_iff : p.actionOf options f = .delete ↔
    f.isEntrypoint = false ∧ ∀ k ∈ f.declarations, p.isPrunable options k := by
  simp only [actionOf, ite_eq_left_iff, reduceCtorEq, imp_false, not_not, Bool.and_eq_true,
    Bool.not_eq_true', beq_iff_eq, deadOf, ← Array.length_toList, List.length_filter_eq_length_iff,
    Array.mem_toList_iff]

theorem deletes_plan_iff : (p.plan options).Deletes i ↔ ∃ f, p.files[i]? = some f ∧
    options.sources.allows f.filename ∧ f.isEntrypoint = false ∧ f.declarations ≠ #[] ∧
    ∀ k ∈ f.declarations, p.isPrunable options k := by
  constructor
  case mp =>
    intro ⟨x, hx, hi, hd⟩
    have ⟨f, hf, ha, hn, he⟩ := mem_plan_iff.mp hx
    rw [he, actionOf_eq_delete_iff] at hd
    refine ⟨f, hi ▸ hf, ha, hd.left, ?_, hd.right⟩
    intro hn'
    simp [deadOf, hn'] at hn
  case mpr =>
    intro ⟨f, hf, ha, he, hn, hd⟩
    have hn : p.deadOf options f ≠ [] := by
      have ⟨k, hk⟩ := Array.exists_mem_of_ne_empty _ hn
      exact List.ne_nil_of_mem <| List.mem_filter.mpr ⟨Array.mem_toList_iff.mpr hk, hd k hk⟩
    exact ⟨_, mem_plan hf ha hn, rfl, actionOf_eq_delete_iff.mpr ⟨he, hd⟩⟩

end Project

end DeadCode
