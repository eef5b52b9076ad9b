import DeadCode.Proofs.Project.Calls
import DeadCode.Proofs.Worklist.Visits
import Mathlib.Data.Set.Card

namespace DeadCode.Project

open Worklist (Visits expanded recorded)

variable {p : Project} {mode : Mode} {flag : Flags} {x y : Node} {xs : List Node}

theorem Leads.contains_left (hp : p.WellFormed) (h : p.Leads mode x y) : p.contains x := by
  cases h
  case entry => rfl
  case holds h _ _ _ => simpa [Project.contains] using (Array.getElem?_eq_some_iff.mp h).1
  case loads h => simpa [Project.contains] using (Array.getElem?_eq_some_iff.mp h).1
  case emits k u h _ =>
    have hu := hp.fits h
    cases hc : u.container
    case none => simpa [Usage.owner, hc, Project.contains] using hu.file
    case some c =>
      obtain ⟨d, hd, _⟩ := hu.container hc
      simpa [Usage.owner, hc, Project.contains] using (Array.getElem?_eq_some_iff.mp hd).1
  case means h => simpa [Project.contains] using (Array.getElem?_eq_some_iff.mp h).1

theorem nodup_usageSteps (hp : p.WellFormed) : (p.usageSteps mode x).Nodup := by
  have hm (kind) : ((p.listedUsages kind x).map Node.usage).Nodup := by
    rw [hp.usages]
    exact nodup_indicesOf.map fun _ _ => Node.usage.inj
  rw [usageSteps]
  split
  case isFalse => simpa using hm .checker
  case isTrue =>
    refine (hm .checker).append (hm .grep) fun y hc hg => ?_
    obtain ⟨k, hk, rfl⟩ := List.mem_map.mp hc
    obtain ⟨_, hk', he⟩ := List.mem_map.mp hg
    cases he
    rw [hp.usages, mem_indicesOf] at hk hk'
    -- The usage would be of two kinds at once.
    obtain ⟨u, hu, hc, _⟩ := hk
    obtain ⟨_, hu', hg, _⟩ := hk'
    cases hu.symm.trans hu'
    cases hc.symm.trans hg

theorem nodup_successors (hp : p.WellFormed) : (p.successors mode x).Nodup := by
  have hu {y} (hy : y ∈ p.usageSteps mode x) : ∃ k, y = .usage k := by
    obtain ⟨k, _, hk, _⟩ := mem_usageSteps_iff hp |>.mp hy
    exact ⟨k, hk⟩
  cases x
  case project => exact (List.nodup_range.filter _).map fun _ _ => Node.file.inj
  case file i =>
    rw [successors_file]
    refine List.Nodup.append ?_ (nodup_usageSteps hp) fun y hd hy => ?_
    · split
      case isTrue =>
        rw [hp.declarations]
        exact nodup_indicesOf.map fun _ _ => Node.declaration.inj
      case isFalse => exact .nil
    · obtain ⟨k, rfl⟩ := hu hy
      simp at hd
  case declaration j =>
    rw [successors_declaration]
    refine List.Nodup.append (by cases p.declarations[j]? <;> simp) (nodup_usageSteps hp) fun y hd hy => ?_
    obtain ⟨k, rfl⟩ := hu hy
    simp at hd
  case usage k => cases hu : p.usages[k]? <;> simp [successors, hu]

-- The steps that a walk can take.
def edges (p : Project) (mode : Mode) : Set (Node × Node) :=
  { e | p.Leads mode e.1 e.2 }

-- The steps that a walk can take from a node.
def outgoing (p : Project) (mode : Mode) (x : Node) : Set Node :=
  { y | p.Leads mode x y }

theorem ncard_outgoing (hp : p.WellFormed) (x : Node) :
    (p.outgoing mode x).ncard = (p.successors mode x).length := by
  have hs : p.outgoing mode x = (p.successors mode x).toFinset := by
    ext y
    simp [outgoing, mem_successors_iff hp]
  rw [hs, Set.ncard_coe_finset, List.toFinset_card_of_nodup (nodup_successors hp)]

-- The steps from some nodes, one after another.
def edgesFrom (p : Project) (mode : Mode) (xs : List Node) : List (Node × Node) :=
  xs.flatMap fun x => (p.successors mode x).map (x, ·)

theorem mem_edgesFrom (hp : p.WellFormed) {e : Node × Node} :
    e ∈ p.edgesFrom mode xs ↔ e.1 ∈ xs ∧ e ∈ p.edges mode := by
  obtain ⟨x, y⟩ := e
  simp [edgesFrom, edges, mem_successors_iff hp]

theorem mem_nodes_of_mem_successors (hp : p.WellFormed) :
    ∀ x ∈ p.nodes.toFinset, ∀ y ∈ p.successors mode x, y ∈ p.nodes.toFinset := by
  intro x _ y hy
  rw [List.mem_toFinset, mem_nodes_iff]
  exact (mem_successors_iff hp |>.mp hy).contains hp

theorem finite_edges (hp : p.WellFormed) : (p.edges mode).Finite := by
  apply (p.edgesFrom mode p.nodes).toFinset.finite_toSet.subset
  intro e he
  have hc : e.1 ∈ p.nodes := mem_nodes_iff.mpr (Leads.contains_left hp he)
  simpa [mem_edgesFrom hp] using ⟨hc, he⟩

-- No step is counted twice, whatever nodes are looked at.
theorem sum_outgoing_le (hp : p.WellFormed) (hn : xs.Nodup) :
    (xs.map fun x => (p.outgoing mode x).ncard).sum ≤ (p.edges mode).ncard := by
  have hl : (xs.map fun x => (p.outgoing mode x).ncard).sum = (p.edgesFrom mode xs).length := by
    simp [edgesFrom, List.length_flatMap, ncard_outgoing hp]
  have hd : (p.edgesFrom mode xs).Nodup := by
    refine List.nodup_flatMap.mpr ⟨fun x _ => (nodup_successors hp).map fun _ _ => by simp, ?_⟩
    refine hn.imp fun {x y} hxy e hx hy => hxy ?_
    obtain ⟨_, _, rfl⟩ := List.mem_map.mp hx
    obtain ⟨_, _, he⟩ := List.mem_map.mp hy
    exact (congrArg Prod.fst he).symm
  rw [hl, ← List.toFinset_card_of_nodup hd, ← Set.ncard_coe_finset]
  refine Set.ncard_le_ncard (fun e he => ?_) (finite_edges hp)
  exact (mem_edgesFrom hp |>.mp (List.mem_toFinset.mp he)).right

-- The visitor never goes on twice from one node while the walk is under way.
def NeverTwice (p : Project) (mode : Mode) (visit : σ → Node → σ × Bool) (s : σ) : Prop :=
  ∀ history work t, Visits (p.successors mode) visit [.project] s history work t →
    (expanded history).Nodup

-- What a walk comes to, with all its visits and the answers of the visitor:
-- 1. it ends, and a larger budget would not change its course
-- 2. the visits are those that a visitor sees which writes them down
-- 3. the project is visited first
-- 4. whatever is visited later, a node leads there from which the walk has gone on before
-- 5. the walk has gone on from no node twice
-- 6. besides the first visit, there is one for each step from a node from which the walk has gone on
structure Walked (p : Project) (mode : Mode) (visit : σ → Node → σ × Bool) (s : σ)
    (history : List (Node × Bool)) (t : σ) : Prop where
  ends   : ∀ budget ≥ p.nodeCount, p.walk mode visit budget s = some t
  visits : ∀ budget ≥ p.nodeCount, p.walk mode (recorded visit) budget (s, []) = some (t, history)
  first  : ∃ answer rest, history = (.project, answer) :: rest
  found  : ∀ before x answer after, history = before ++ (x, answer) :: after → before ≠ [] →
    ∃ y, (y, true) ∈ before ∧ p.Leads mode y x
  once   : (expanded history).Nodup
  length : history.length = 1 + ((expanded history).map fun x => (p.outgoing mode x).ncard).sum

section

variable {σ : Type} {visit : σ → Node → σ × Bool} {s t : σ} {history : List (Node × Bool)}

theorem walked_of_visits (hp : p.WellFormed)
    (h : Visits (p.successors mode) visit [.project] s history [] t) (ho : (expanded history).Nodup) :
    p.Walked mode visit s history t := by
  have hb : (expanded history).length ≤ p.nodeCount :=
    calc
      _ ≤ p.nodes.toFinset.card := h.length_expanded_le (mem_nodes_of_mem_successors hp) (by simp [nodes]) ho
      _ ≤ p.nodes.length := p.nodes.toFinset_card_le
      _ = p.nodeCount := length_nodes
  have hl := h.length_add_length
  exact {
    ends budget hn := h.run_of_finished (hb.trans hn)
    visits budget hn := h.recorded.run_of_finished (hb.trans hn)
    first := by
      rcases history with _ | ⟨⟨x, answer⟩, rest⟩
      case nil => simp [expanded] at hl
      case cons =>
        obtain ⟨work, _, hv⟩ : ∃ work t, Visits _ visit [.project] s [] (x :: work) t :=
          Visits.exists_before h
        rcases hv.origin with ⟨_, hw⟩ | hw
        case inl =>
          cases hw
          exact ⟨answer, rest, rfl⟩
        case inr => simpa using hw x (.head _)
    found before x answer after hh hn := by
      subst hh
      obtain ⟨work, _, hv⟩ := h.exists_before
      rcases hv.origin with ⟨hw, _⟩ | hw
      case inl => contradiction
      case inr =>
        obtain ⟨y, hy, hx⟩ := hw x (.head _)
        exact ⟨y, hy, mem_successors_iff hp |>.mp hx⟩
    once := ho
    length := by simpa [ncard_outgoing hp] using hl }

theorem NeverTwice.walked (ho : p.NeverTwice mode visit s) (hp : p.WellFormed) :
    ∃ history t, p.Walked mode visit s history t := by
  have ⟨history, t, h⟩ :=
    Visits.exists_finished (mem_nodes_of_mem_successors hp) (by simp [nodes]) (ho _ _ _) .start
  exact ⟨history, t, walked_of_visits hp h (ho _ _ _ h)⟩

end

theorem markVisit_neverTwice (p : Project) (flag : Flags) (mode : Mode) (s : FlagTable × Nat) :
    p.NeverTwice mode (markVisit flag) s :=
  fun _ _ _ h => ((markVisit_remembers flag).notes.nodup_expanded h).left

-- A walk that goes on from no node twice ends, and its visits are counted by steps. Marking is such a walk,
-- so its visits are no more than all the steps there are, and one for the start.
theorem walk_counts (rs : List Registration) (flags : FlagTable) (mode : Mode) :
    let p := { ofRegistrations rs with flags }
    (∀ {σ : Type} (visit : σ → Node → σ × Bool) (s : σ), p.NeverTwice mode visit s →
      ∃ history t, p.Walked mode visit s history t) ∧
    ∀ flag, ∃ history,
      p.Walked mode (markVisit flag) (p.flags, 0) history
        ((p.mark flag mode).1.flags, (p.mark flag mode).2) ∧
      history.length ≤ 1 + (p.edges mode).ncard := by
  intro p
  have hp : p.WellFormed := (wellFormed_ofRegistrations rs).withFlags flags
  refine ⟨fun visit s ho => ho.walked hp, fun flag => ?_⟩
  have ⟨history, t, h⟩ := (p.markVisit_neverTwice flag mode (p.flags, 0)).walked hp
  have hm : ((p.mark flag mode).1.flags, (p.mark flag mode).2) = t := by
    rw [mark, h.ends p.nodeCount (Nat.le_refl _)]
  refine ⟨history, hm ▸ h, ?_⟩
  rw [h.length]
  exact Nat.add_le_add_left (sum_outgoing_le hp h.once) 1

-- Two declarations that both refer to a third one, which refers to itself.
def diamond : List Registration :=
  [.file "a.ts" true, .file "b.ts" false,
    .declaration 0 (some "f") false ⟨1, 2, 14, by decide, by decide⟩,
    .declaration 0 (some "g") false ⟨14, 15, 28, by decide, by decide⟩,
    .declaration 1 (some "h") true ⟨1, 2, 14, by decide, by decide⟩,
    .usage ⟨.checker, 0, some 0, 7, 2⟩, .usage ⟨.grep, 0, some 1, 20, 2⟩,
    .usage ⟨.checker, 1, some 2, 7, 2⟩]

-- A visitor that keeps a list of all it has seen, and goes on from what is new, but not from a file other
-- than the first.
def withinFirst (seen : List Node) (x : Node) : List Node × Bool :=
  (x :: seen, x ∉ seen && x ≠ .file 1)

theorem withinFirst_notes : Worklist.Notes withinFirst fun seen => { x | x ∈ seen } where
  keeps seen x y hy := List.mem_cons_of_mem x hy
  fresh h := by simp_all [withinFirst]
  adds _ := List.mem_cons_self

theorem walk_counts_diamond :
    let p := { ofRegistrations diamond with flags := {} }
    p.NeverTwice .fuzzy withinFirst [] ∧ ∃ history t, p.Walked .fuzzy withinFirst [] history t := by
  have ho : { ofRegistrations diamond with flags := {} }.NeverTwice .fuzzy withinFirst [] :=
    fun _ _ _ h => (withinFirst_notes.nodup_expanded h).left
  exact ⟨ho, (walk_counts diamond {} .fuzzy).left withinFirst [] ho⟩

end DeadCode.Project
