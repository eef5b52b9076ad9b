import DeadCode.Proofs.Mark
import DeadCode.Proofs.Project.History

namespace DeadCode

theorem Flags.remove_insert (a b : Flags) : (a.insert b).remove b = a.remove b := by
  rw [remove, remove, insert, BitVec.and_or_distrib_right]
  simp

namespace Project

variable {p : Project} {flag : Flags} {mode : Mode} {x : Node}

-- A way that leads from the project to a node, along which no node carries the flag.
structure Path (p : Project) (flag : Flags) (mode : Mode) (x : Node) (path : List Node) : Prop where
  start  : path.head? = some .project
  finish : path.getLast? = some x
  steps  : path.IsChain (p.Leads mode)
  clear  : ∀ y ∈ path, ¬(p.flags.get y).contains flag

theorem reached_iff_exists_path (hp : p.WellFormed) :
    p.Reached flag mode x ↔ ∃ path, p.Path flag mode x path := by
  have hl : (fun y z => z ∈ p.successors mode y) = p.Leads mode := by
    ext y z
    exact mem_successors_iff hp
  rw [Reached, Worklist.found_iff_exists_path, hl]
  constructor
  case mp =>
    intro ⟨path, hs, hf, hc, hn⟩
    exact ⟨path, hs, hf, hc, hn⟩
  case mpr =>
    intro ⟨path, h⟩
    exact ⟨path, h.start, h.finish, h.steps, h.clear⟩

theorem Reached.contains (hp : p.WellFormed) (h : p.Reached flag mode x) : p.contains x := by
  cases h
  case root hm _ =>
    cases List.mem_singleton.mp hm
    rfl
  case step hy _ => exact (mem_successors_iff hp |>.mp hy).contains hp

theorem nodup_nodes : p.nodes.Nodup := by
  have hf := (List.nodup_range (n := p.files.size)).map fun _ _ => Node.file.inj
  have hd := (List.nodup_range (n := p.declarations.size)).map fun _ _ => Node.declaration.inj
  have hu := (List.nodup_range (n := p.usages.size)).map fun _ _ => Node.usage.inj
  simp only [nodes, List.cons_append, List.append_assoc, List.nodup_cons, List.nodup_append, hf, hd, hu]
  simp
  rintro i _ _ (⟨j, _, rfl⟩ | ⟨k, _, rfl⟩) <;> simp

-- While a run is under way, it has counted the nodes that have got the flag since it began.
def Counted (flag : Flags) (before : FlagTable) (s : FlagTable × Nat) : Prop :=
  ∃ fresh : Finset Node, s.2 = fresh.card ∧ (∀ x ∈ fresh, x ∉ flagged before flag) ∧
    flagged s.1 flag = flagged before flag ∪ fresh

theorem Counted.markVisit (h : Counted flag before s) (x : Node) :
    Counted flag before (markVisit flag s x).1 := by
  by_cases hx : x ∈ flagged s.1 flag
  case pos => exact (markVisit_remembers flag).stops hx ▸ h
  case neg =>
    have ⟨fresh, hc, hn, hs⟩ := h
    have hx' : x ∉ flagged before flag ∪ fresh := hs ▸ hx
    simp only [Set.mem_union, Finset.mem_coe, not_or] at hx'
    refine ⟨insert x fresh, ?_, ?_, ?_⟩
    · rw [Finset.card_insert_of_notMem hx'.right, ← hc]
      simp_all [Project.markVisit, flagged]
    · simpa [hx'.left] using hn
    · rw [(markVisit_remembers flag).learns hx, hs, Finset.coe_insert, Set.union_insert]

-- The nodes that carry a flag after a run, but not before it.
def newlyFlagged (p q : Project) (flag : Flags) : List Node :=
  p.nodes.filter fun x => (q.flags.get x).contains flag && !(p.flags.get x).contains flag

theorem count_mark (hp : p.WellFormed) (flag : Flags) (mode : Mode) :
    (p.mark flag mode).2 = (p.newlyFlagged (p.mark flag mode).1 flag).length := by
  classical
  have hf := flags_mark hp flag mode
  have ⟨flags, count, hw, hm⟩ := mark_ok hp flag mode
  rw [hm] at hf ⊢
  have ⟨fresh, hc, hn, hs⟩ : Counted flag p.flags (flags, count) :=
    Worklist.run_preserves (P := Counted flag p.flags) (fun _ x h => h.markVisit x) ⟨∅, by simp⟩ hw
  -- Nodes that are not registered cannot have got the flag, so they are not missing from the list.
  have hr {x} (hx : x ∈ fresh) : p.Reached flag mode x := by
    by_contra h
    have ha : x ∈ flagged flags flag := hs ▸ .inr hx
    have he := hf x
    rw [if_neg h] at he
    exact hn x hx (by simpa [flagged, ← he] using ha)
  have he : (p.newlyFlagged { p with flags } flag).toFinset = fresh := by
    ext x
    have hx : x ∈ flagged flags flag ↔ x ∈ flagged p.flags flag ∨ x ∈ fresh := by simp [hs]
    simp only [newlyFlagged, List.mem_toFinset, List.mem_filter, mem_nodes_iff, Bool.and_eq_true,
      Bool.not_eq_true']
    constructor
    case mp =>
      rintro ⟨_, ha, hb⟩
      exact hx.mp ha |>.resolve_left (by simpa [flagged] using hb)
    case mpr =>
      intro h
      exact ⟨(hr h).contains hp, hx.mpr (.inr h), by simpa [flagged] using hn x h⟩
  calc
    count = fresh.card := hc
    _ = _ := he ▸ List.toFinset_card_of_nodup (nodup_nodes.filter _)

-- What it means that marking a project `p` comes to a project `q` and a number of nodes:
-- 1. the walk ends, and a larger budget would not change its course
-- 2. a node gets the flag if a way leads there along which no node carries it
-- 3. the flags of all other nodes stay as they were
-- 4. so do all other flags of any node
-- 5. so does everything that is no flag
-- 6. the number is that of the nodes that have got the flag
structure Marks (p : Project) (flag : Flags) (mode : Mode) (q : Project) (count : Nat) : Prop where
  ends   : ∀ budget ≥ p.nodeCount,
    p.walk mode (markVisit flag) budget (p.flags, 0) = some (q.flags, count)
  gains  : ∀ x path, p.Path flag mode x path → q.flags.get x = (p.flags.get x).insert flag
  keeps  : ∀ x, (∀ path, ¬p.Path flag mode x path) → q.flags.get x = p.flags.get x
  others : ∀ x, (q.flags.get x).remove flag = (p.flags.get x).remove flag
  frame  : q = { p with flags := q.flags }
  counts : count = (p.newlyFlagged q flag).length

theorem mark_exact (rs : List Registration) (flags : FlagTable) (flag : Flags) (mode : Mode) :
    let p := { ofRegistrations rs with flags }
    p.Marks flag mode (p.mark flag mode).1 (p.mark flag mode).2 := by
  classical
  intro p
  have hp : p.WellFormed := (wellFormed_ofRegistrations rs).withFlags flags
  have ⟨_, _, hw, hm⟩ := mark_ok hp flag mode
  have hf := flags_mark hp flag mode
  exact {
    ends budget hb := by
      rw [hm]
      exact Worklist.run_of_le hb hw
    gains x path h := by
      rw [hf, if_pos (reached_iff_exists_path hp |>.mpr ⟨path, h⟩)]
    keeps x h := by
      rw [hf, if_neg (mt (reached_iff_exists_path hp).mp (not_exists.mpr h))]
    others x := by
      rw [hf]
      split
      case isTrue => exact Flags.remove_insert ..
      case isFalse => rfl
    frame := by rw [hm]
    counts := count_mark hp flag mode }

end Project

end DeadCode
