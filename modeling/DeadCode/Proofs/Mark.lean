import DeadCode.Mark
import DeadCode.Proofs.Project.WellFormed
import DeadCode.Proofs.Worklist

namespace DeadCode

namespace Flags

@[simp]
theorem contains_insert_self (a b : Flags) : (a.insert b).contains b := by
  have : (a.bits ||| b.bits) &&& b.bits = b.bits := BitVec.eq_of_getElem_eq (by grind)
  simp [contains, insert, this]

theorem contains_insert_of_disjoint {a b c : Flags} (h : b.bits &&& c.bits = 0) :
    (a.insert b).contains c = a.contains c := by
  rw [contains, contains, insert, BitVec.and_or_distrib_right, h]
  simp

end Flags

namespace FlagTable

theorem getD_store (table : Array Flags) (i j : Nat) (flags : Flags) :
    (store table i flags)[j]?.getD .none = if j = i then flags else table[j]?.getD .none := by
  unfold store
  split
  case isTrue =>
    simp only [Array.getElem?_setIfInBounds]
    grind
  case isFalse =>
    simp only [Array.getElem?_push, Array.getElem?_append, Array.size_append, Array.size_replicate,
      Array.getElem?_replicate]
    grind

theorem get_set (table : FlagTable) (x y : Node) (flags : Flags) :
    (table.set x flags).get y = if y = x then flags else table.get y := by
  cases x <;> cases y <;> simp [set, get, getD_store]

theorem get_insert (table : FlagTable) (x y : Node) (flags : Flags) :
    (table.insert x flags).get y = if y = x then (table.get y).insert flags else table.get y := by
  rw [insert, get_set]
  split
  case isTrue h => rw [h]
  case isFalse => rfl

end FlagTable

-- Whether usages of a kind count.
def Mode.counts (mode : Mode) : UsageKind → Bool
  | .checker => true
  | .grep => mode.followsGrep

namespace Project

variable {p : Project} {mode : Mode} {flag : Flags}

-- The steps of a walk.
inductive Leads (p : Project) (mode : Mode) : Node → Node → Prop
  | entry : p.files[i]? = some f → f.isEntrypoint → Leads p mode .project (.file i)
  | holds : p.files[i]? = some f → f.isEntrypoint → p.declarations[j]? = some d → d.file = i →
    Leads p mode (.file i) (.declaration j)
  | loads : p.declarations[j]? = some d → Leads p mode (.declaration j) (.file d.file)
  | emits : p.usages[k]? = some u → mode.counts u.kind → Leads p mode u.owner (.usage k)
  | means : p.usages[k]? = some u → Leads p mode (.usage k) (.declaration u.target)

theorem Leads.contains (hp : p.WellFormed) (h : p.Leads mode x y) : p.contains y := by
  cases h <;> simp only [Project.contains, decide_eq_true_eq]
  case entry h _ => exact (Array.getElem?_eq_some_iff.mp h).1
  case holds h _ => exact (Array.getElem?_eq_some_iff.mp h).1
  case loads h => exact hp.file h
  case emits h _ => exact (Array.getElem?_eq_some_iff.mp h).1
  case means h => exact (hp.fits h).target

-- The usages of a node that count.
def usageSteps (p : Project) (mode : Mode) (node : Node) : List Node :=
  (p.listedUsages .checker node).map .usage ++
    if mode.followsGrep then (p.listedUsages .grep node).map .usage else []

theorem mem_usageSteps_iff (hp : p.WellFormed) : y ∈ p.usageSteps mode x ↔
    ∃ k u, y = .usage k ∧ p.usages[k]? = some u ∧ mode.counts u.kind ∧ u.owner = x := by
  simp only [usageSteps, hp.usages, List.mem_append, List.mem_map, List.mem_ite_nil_right,
    mem_indicesOf]
  constructor
  case mp =>
    rintro (⟨k, ⟨u, hu, hk, ho⟩, rfl⟩ | ⟨hm, k, ⟨u, hu, hk, ho⟩, rfl⟩)
    case inl => exact ⟨k, u, rfl, hu, by simp [hk, Mode.counts], ho⟩
    case inr => exact ⟨k, u, rfl, hu, by simp [hk, Mode.counts, hm], ho⟩
  case mpr =>
    intro ⟨k, u, hy, hu, hc, ho⟩
    cases hk : u.kind
    case checker => exact .inl ⟨k, ⟨u, hu, hk, ho⟩, hy.symm⟩
    case grep =>
      rw [hk, Mode.counts] at hc
      exact .inr ⟨hc, k, ⟨u, hu, hk, ho⟩, hy.symm⟩

theorem successors_file : p.successors mode (.file i) =
    (if p.files[i]?.any File.isEntrypoint then
      (listAt p.files File.declarations i).map .declaration else []) ++
      p.usageSteps mode (.file i) := by
  cases hf : p.files[i]? <;> simp [successors, usageSteps, listedUsages, listAt, File.orphans, hf]

theorem mem_successors_file_iff (hp : p.WellFormed) : y ∈ p.successors mode (.file i) ↔
    ((∃ f, p.files[i]? = some f ∧ f.isEntrypoint) ∧
      ∃ j, (∃ d, p.declarations[j]? = some d ∧ d.file = i) ∧ .declaration j = y) ∨
    y ∈ p.usageSteps mode (.file i) := by
  simp only [successors_file, List.mem_append, List.mem_ite_nil_right, List.mem_map,
    hp.declarations, mem_indicesOf, Option.any_eq_true]

theorem successors_declaration : p.successors mode (.declaration j) =
    (p.declarations[j]?.map fun d => .file d.file).toList ++ p.usageSteps mode (.declaration j) := by
  cases hd : p.declarations[j]? <;>
    simp [successors, usageSteps, listedUsages, listAt, Declaration.usages, hd]

theorem usageSteps_subset : p.usageSteps mode x ⊆ p.successors mode x := by
  cases x
  case file => simp [successors_file]
  case declaration => simp [successors_declaration]
  all_goals simp [usageSteps, listedUsages]

theorem mem_successors_iff (hp : p.WellFormed) : y ∈ p.successors mode x ↔ p.Leads mode x y := by
  have mem_usageSteps {x} : y ∈ p.usageSteps mode x → p.Leads mode x y := by
    rw [mem_usageSteps_iff hp]
    intro ⟨k, u, hy, hu, hc, ho⟩
    exact hy ▸ ho ▸ .emits hu hc
  constructor
  case mp =>
    cases x
    case project =>
      simp only [successors, List.mem_map, List.mem_filter, Option.any_eq_true]
      intro ⟨i, ⟨_, f, hf, he⟩, hy⟩
      exact hy ▸ .entry hf he
    case file i =>
      rw [mem_successors_file_iff hp]
      rintro (⟨⟨f, hf, he⟩, j, ⟨d, hd, hi⟩, hy⟩ | h)
      case inl => exact hy ▸ .holds hf he hd hi
      case inr => exact mem_usageSteps h
    case declaration j =>
      simp only [successors_declaration, List.mem_append, Option.mem_toList, Option.map_eq_some_iff]
      rintro (⟨d, hd, hy⟩ | h)
      case inl => exact hy ▸ .loads hd
      case inr => exact mem_usageSteps h
    case usage k =>
      cases hu : p.usages[k]? <;> simp only [successors, hu, List.not_mem_nil, List.mem_singleton]
      case none => exact False.elim
      case some => exact fun hy => hy ▸ .means hu
  case mpr =>
    intro h
    cases h
    case entry i f hf he =>
      have ⟨hi, hf⟩ := Array.getElem?_eq_some_iff.mp hf
      simp [successors, hi, hf, he]
    case holds i f j d hf he hd hi =>
      rw [mem_successors_file_iff hp]
      exact .inl ⟨⟨f, hf, he⟩, j, ⟨d, hd, hi⟩, rfl⟩
    case loads hd => simp [successors_declaration, hd]
    case emits k u hu hc =>
      exact usageSteps_subset <| mem_usageSteps_iff hp |>.mpr ⟨k, u, rfl, hu, hc, rfl⟩
    case means hu => simp [successors, hu]

-- The nodes that carry a flag.
def flagged (table : FlagTable) (flag : Flags) : Set Node :=
  { node | (table.get node).contains flag }

theorem markVisit_remembers (flag : Flags) :
    Worklist.Remembers (markVisit flag) fun s => flagged s.1 flag where
  stops h := by simp_all [markVisit, flagged]
  goesOn h := by simp_all [markVisit, flagged]
  learns {s x} h := by
    ext y
    by_cases hy : y = x <;> simp_all [markVisit, flagged, FlagTable.get_insert]

-- The nodes that a marking run reaches: a way leads there along which no node carries the flag yet.
def Reached (p : Project) (flag : Flags) (mode : Mode) : Node → Prop :=
  Worklist.Found (p.successors mode) (flagged p.flags flag) [.project]

theorem mem_nodes_iff : x ∈ p.nodes ↔ p.contains x := by
  cases x <;> simp [nodes, Project.contains]

theorem length_nodes : p.nodes.length = p.nodeCount := by
  simp [nodes, nodeCount]
  omega

theorem walk_markVisit_isSome (hp : p.WellFormed) (flag : Flags) (mode : Mode) :
    (p.walk mode (markVisit flag) p.nodeCount (p.flags, 0)).isSome := by
  classical
  apply (markVisit_remembers flag).run_isSome p.nodes.toFinset
  case hn =>
    intro x _ y hy
    rw [List.mem_toFinset, mem_nodes_iff]
    exact (mem_successors_iff hp |>.mp hy).contains hp
  case hw => simp [mem_nodes_iff, Project.contains]
  case hb =>
    calc
      _ ≤ p.nodes.toFinset.card := Finset.card_filter_le _ _
      _ ≤ p.nodes.length := p.nodes.toFinset_card_le
      _ = p.nodeCount := length_nodes

-- All that has happened is that some nodes have got the flag.
def Gained (flag : Flags) (before after : FlagTable) : Prop :=
  ∀ x, after.get x = before.get x ∨
    x ∉ flagged before flag ∧ after.get x = (before.get x).insert flag

theorem Gained.markVisit (h : Gained flag table s.1) (x : Node) :
    Gained flag table (markVisit flag s x).1.1 := by
  by_cases hx : x ∈ flagged s.1 flag
  case pos => exact (markVisit_remembers flag).stops hx ▸ h
  case neg =>
    have hs : (Project.markVisit flag s x).1.1 = s.1.insert x flag := by
      simp_all [Project.markVisit, flagged]
    intro y
    rw [hs, FlagTable.get_insert]
    by_cases hy : y = x
    case neg => simpa [hy] using h y
    case pos =>
      subst hy
      cases h y
      case inl he => simp_all [flagged]
      case inr he => simp_all [flagged]

theorem mark_ok (hp : p.WellFormed) (flag : Flags) (mode : Mode) : ∃ flags count,
    p.walk mode (markVisit flag) p.nodeCount (p.flags, 0) = some (flags, count) ∧
      p.mark flag mode = ({ p with flags }, count) := by
  have ⟨⟨flags, count⟩, h⟩ := Option.isSome_iff_exists.mp <| walk_markVisit_isSome hp flag mode
  exact ⟨flags, count, h, by simp [mark, h]⟩

open Classical in
theorem flags_mark (hp : p.WellFormed) (flag : Flags) (mode : Mode) (x : Node) :
    (p.mark flag mode).1.flags.get x =
      if p.Reached flag mode x then (p.flags.get x).insert flag else p.flags.get x := by
  have ⟨flags, count, hw, hm⟩ := mark_ok hp flag mode
  have hr : x ∈ flagged flags flag ↔ x ∈ flagged p.flags flag ∨ p.Reached flag mode x := by
    rw [(markVisit_remembers flag).seen_run hw]
    rfl
  have hg : Gained flag p.flags flags := by
    apply Worklist.run_preserves (P := fun s => Gained flag p.flags s.1) _ _ hw
    · exact fun s x h => h.markVisit x
    · exact fun _ => .inl rfl
  rw [hm]
  split
  case isTrue h =>
    cases hg x
    case inr he => exact he.right
    case inl he =>
      have hb : x ∈ flagged p.flags flag := by
        have := hr.mpr (.inr h)
        simpa only [flagged, Set.mem_ofPred_eq, he] using this
      exact absurd hb h.not_blocked
  case isFalse h =>
    cases hg x
    case inl he => exact he
    case inr he =>
      have ha : x ∈ flagged flags flag := by simp [flagged, he.right]
      exact absurd ha (by simp [hr, he.left, h])

end Project

end DeadCode
