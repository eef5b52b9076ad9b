import DeadCode.Cycle
import DeadCode.Proofs.Digraph
import DeadCode.Proofs.Mark
import Mathlib.Data.List.Lex

namespace DeadCode.Cycle

section

variable {R : α → α → Prop} {x y z : α}

-- Two elements that lead to each other.
def Mutual (R : α → α → Prop) (x y : α) : Prop :=
  Relation.TransGen R x y ∧ Relation.TransGen R y x

theorem Mutual.symm (h : Mutual R x y) : Mutual R y x :=
  ⟨h.right, h.left⟩

theorem Mutual.trans (h : Mutual R x y) (h' : Mutual R y z) : Mutual R x z :=
  ⟨h.left.trans h'.left, h'.right.trans h.right⟩

-- The classes of those elements that lead back to themselves.
def Classes (R : α → α → Prop) : Set (Set α) :=
  { xs | ∃ x, Relation.TransGen R x x ∧ xs = { y | Mutual R x y } }

end

-- A relation that holds of elements if another one holds of what they stand for. The other one relates
-- only what some element stands for.
structure Reflects (R : α → α → Prop) (S : β → β → Prop) (at? : α → Option β) : Prop where
  iff    : ∀ {x y}, R x y ↔ ∃ a b, at? x = some a ∧ at? y = some b ∧ S a b
  covers : ∀ {a b}, S a b → ∃ y, at? y = some b

namespace Reflects

variable {R : α → α → Prop} {S : β → β → Prop} {at? : α → Option β} {x y : α} {a b : β}
variable (h : Reflects R S at?)
include h

theorem exists_of_transGen (hs : Relation.TransGen S a b) : ∃ y, at? y = some b := by
  cases hs
  case single hs => exact h.covers hs
  case tail hs => exact h.covers hs

theorem transGen_iff :
    Relation.TransGen R x y ↔ ∃ a b, at? x = some a ∧ at? y = some b ∧ Relation.TransGen S a b := by
  constructor
  case mp =>
    intro hr
    induction hr
    case single hr =>
      have ⟨a, b, ha, hb, hs⟩ := h.iff.mp hr
      exact ⟨a, b, ha, hb, .single hs⟩
    case tail hr hi =>
      have ⟨a, b, ha, hb, hi⟩ := hi
      have ⟨b', c, hb', hc, hs⟩ := h.iff.mp hr
      cases hb.symm.trans hb'
      exact ⟨a, c, ha, hc, hi.tail hs⟩
  case mpr =>
    intro ⟨a, b, ha, hb, hs⟩
    induction hs generalizing y
    case single hs => exact .single <| h.iff.mpr ⟨_, _, ha, hb, hs⟩
    case tail hc hs hi =>
      have ⟨z, hz⟩ := h.exists_of_transGen hc
      exact (hi hz).tail <| h.iff.mpr ⟨_, _, hz, hb, hs⟩

theorem mutual_iff (hx : at? x = some a) : Mutual R x y ↔ ∃ b, at? y = some b ∧ Mutual S a b := by
  rw [Mutual, h.transGen_iff, h.transGen_iff, hx]
  constructor
  case mp =>
    rintro ⟨⟨_, b, ⟨⟩, hy, hs⟩, _, _, hy', ⟨⟩, hs'⟩
    cases hy.symm.trans hy'
    exact ⟨b, hy, hs, hs'⟩
  case mpr =>
    rintro ⟨b, hy, hs, hs'⟩
    exact ⟨⟨a, b, rfl, hy, hs⟩, b, a, hy, rfl, hs'⟩

theorem mutual_eq (hx : at? x = some a) :
    { b | Mutual S a b } = { b | ∃ y ∈ { y | Mutual R x y }, at? y = some b } := by
  ext b
  simp only [Set.mem_ofPred_eq, h.mutual_iff hx]
  constructor
  case mp =>
    intro hm
    obtain ⟨y, hy⟩ := h.exists_of_transGen hm.left
    exact ⟨y, ⟨b, hy, hm⟩, hy⟩
  case mpr =>
    rintro ⟨y, ⟨b', hb, hm⟩, hy⟩
    cases hy.symm.trans hb
    exact hm

-- Both have the same classes, up to what the elements stand for.
theorem mem_classes_iff {bs : Set β} :
    bs ∈ Classes S ↔ ∃ xs ∈ Classes R, bs = { b | ∃ x ∈ xs, at? x = some b } := by
  constructor
  case mp =>
    rintro ⟨a, ha, rfl⟩
    obtain ⟨x, hx⟩ := h.exists_of_transGen ha
    exact ⟨_, ⟨x, h.transGen_iff.mpr ⟨a, a, hx, hx, ha⟩, rfl⟩, h.mutual_eq hx⟩
  case mpr =>
    rintro ⟨_, ⟨x, hr, rfl⟩, rfl⟩
    obtain ⟨a, a', hx, hx', ha⟩ := h.transGen_iff.mp hr
    cases hx.symm.trans hx'
    exact ⟨a, ha, (h.mutual_eq hx).symm⟩

end Reflects

variable {p q : Project} {isDead isDead' : Nat → Bool} {mode : Mode} {g : Digraph Nat}
variable {index : Array (Option Nat)} {cs : List (List Nat)} {n d e i j : Nat}

-- A graph with a vertex for each of the first `n` declarations that is dead, and no edge.
structure Indexed (isDead : Nat → Bool) (n : Nat) (x : Digraph Nat × Array (Option Nat)) : Prop where
  size     : x.2.size = n
  index    : ∀ {d i}, x.2.getD d none = some i ↔ x.1.label? i = some d
  dead     : ∀ {d}, (∃ i, x.1.label? i = some d) ↔ isDead d ∧ d < n
  edgeless : ∀ i, x.1.next i = []

theorem getD_push : (index.push v).getD d none = if d = index.size then v else index.getD d none := by
  simp only [Array.getD_eq_getD_getElem?, Array.getElem?_push]
  split <;> rfl

theorem indexed_vertices (p : Project) (isDead : Nat → Bool) :
    Indexed isDead p.declarations.size (vertices p isDead) := by
  unfold vertices
  induction p.declarations.size
  case zero =>
    exact ⟨rfl, by simp [Digraph.label?], by simp [Digraph.label?], by simp [Digraph.next]⟩
  case succ n hi =>
    rw [List.range_succ, List.foldl_append, List.foldl_cons, List.foldl_nil]
    generalize List.foldl _ _ _ = x at hi ⊢
    obtain ⟨g, index⟩ := x
    obtain ⟨hs, hx, hd, he⟩ := hi
    simp only at hs hx hd he ⊢
    have hn : index.getD n none = none := by simp [hs]
    have hl (i) : g.label? i ≠ some n := by simp [← hx, hn]
    have hv : g.label? g.size = none := by simp [Digraph.label?, Digraph.size]
    split
    case isFalse hf =>
      refine ⟨by simp [hs], fun {d i} => ?_, fun {d} => ?_, he⟩
      · rw [getD_push, hs, ← hx]
        grind
      · rw [hd]
        grind
    case isTrue ht =>
      refine ⟨by simp [hs], fun {d i} => ?_, fun {d} => ?_, fun i => ?_⟩
      · rw [getD_push, hs, Digraph.label?_addVertex]
        have := @hx d i
        grind
      · simp only [Digraph.label?_addVertex]
        have := @hd d
        grind
      · rw [Digraph.next_addVertex, he]

-- A usage that counts leads from one dead declaration to another one.
structure Refers (p : Project) (isDead : Nat → Bool) (mode : Mode) (i j : Nat) : Prop where
  source : isDead i
  target : isDead j
  usage  : ∃ u ∈ p.usages, mode.counts u.kind ∧ u.owner = .declaration i ∧ u.target = j

theorem Refers.lt_size (hp : p.WellFormed) (h : Refers p isDead mode i j) :
    i < p.declarations.size ∧ j < p.declarations.size := by
  have ⟨u, hu, _, ho, ht⟩ := h.usage
  have ⟨n, hn⟩ := Array.mem_iff_getElem?.mp hu
  have hf := hp.fits hn
  refine ⟨?_, ht ▸ hf.target⟩
  cases hc : u.container <;> simp only [Usage.owner, hc, reduceCtorEq, Node.declaration.injEq] at ho
  case some c =>
    obtain ⟨_, hd, _⟩ := hf.container hc
    exact ho ▸ (Array.getElem?_eq_some_iff.mp hd).1

-- A usage that leads from the declaration of one vertex to that of another one.
structure Connects (index : Array (Option Nat)) (mode : Mode) (i j : Nat) (u : Usage) : Prop where
  counts : mode.counts u.kind
  source : ∃ d, u.owner = .declaration d ∧ index.getD d none = some i
  target : index.getD u.target none = some j

theorem not_counts_iff {kind : UsageKind} :
    (kind = .grep && !mode.followsGrep) = true ↔ ¬mode.counts kind := by
  cases kind <;> simp [Mode.counts]

section

variable (hx : ∀ {d i}, index.getD d none = some i → i < g.size)
include hx

-- A usage adds an edge between those vertices that it connects.
theorem edge_addUsage (mode : Mode) (u : Usage) :
    (addUsage index mode g u).size = g.size ∧ (∀ i, (addUsage index mode g u).label? i = g.label? i) ∧
      ∀ i j, (addUsage index mode g u).Edge i j ↔ g.Edge i j ∨ Connects index mode i j u := by
  unfold addUsage
  split
  case isTrue hk =>
    refine ⟨rfl, fun _ => rfl, fun i j => (or_iff_left fun h => ?_).symm⟩
    exact not_counts_iff.mp hk h.counts
  case isFalse hk =>
    have hk := not_not.mp (mt not_counts_iff.mpr hk)
    split
    case h_1 hc =>
      refine ⟨rfl, fun _ => rfl, fun i j => (or_iff_left fun h => ?_).symm⟩
      have ⟨_, ho, _⟩ := h.source
      simp [Usage.owner, hc] at ho
    case h_2 d hc =>
      have ho : u.owner = .declaration d := by simp [Usage.owner, hc]
      split
      case h_1 k l hk' hl =>
        refine ⟨by simp, by simp, fun i j => ?_⟩
        rw [Digraph.edge_updateEdge (hx hk') (hx hl)]
        refine or_congr_right ⟨?_, fun h => ?_⟩
        · rintro ⟨rfl, rfl⟩
          exact ⟨hk, ⟨d, ho, hk'⟩, hl⟩
        · obtain ⟨d', ho', hs⟩ := h.source
          cases ho.symm.trans ho'
          exact ⟨Option.some.inj (hs.symm.trans hk'), Option.some.inj (h.target.symm.trans hl)⟩
      case h_2 hn =>
        refine ⟨rfl, fun _ => rfl, fun i j => (or_iff_left fun h => ?_).symm⟩
        obtain ⟨d', ho', hs⟩ := h.source
        cases ho.symm.trans ho'
        exact hn _ _ hs h.target

theorem edge_foldl (us : List Usage) :
    (∀ i, (us.foldl (addUsage index mode) g).label? i = g.label? i) ∧
      ∀ i j, (us.foldl (addUsage index mode) g).Edge i j ↔
        g.Edge i j ∨ ∃ u ∈ us, Connects index mode i j u := by
  induction us generalizing g
  case nil => simp
  case cons u us hi =>
    have ⟨hs, hl, he⟩ := edge_addUsage hx mode u
    have ⟨hl', he'⟩ := @hi (addUsage index mode g u) fun h => hs ▸ hx h
    refine ⟨fun i => (hl' i).trans (hl i), fun i j => ?_⟩
    rw [List.foldl_cons, he', he]
    simp only [List.mem_cons, exists_eq_or_imp, or_assoc]

end

theorem edges_references : references p isDead mode =
    p.usages.toList.foldl (addUsage (vertices p isDead).2 mode) (vertices p isDead).1 := by
  rw [Array.foldl_toList]
  rfl

theorem index_lt (h : (vertices p isDead).2.getD d none = some i) : i < (vertices p isDead).1.size :=
  Digraph.lt_of_label? <| (indexed_vertices p isDead).index.mp h

theorem label?_references : (references p isDead mode).label? i = (vertices p isDead).1.label? i := by
  rw [edges_references]
  exact (edge_foldl index_lt p.usages.toList).left i

theorem label?_eq_some_iff : (references p isDead mode).label? i = some d ↔
    (vertices p isDead).2.getD d none = some i := by
  rw [label?_references, (indexed_vertices p isDead).index]

theorem label?_injective (hi : (references p isDead mode).label? i = some d)
    (hj : (references p isDead mode).label? j = some d) : i = j :=
  Option.some.inj <| (label?_eq_some_iff.mp hi).symm.trans (label?_eq_some_iff.mp hj)

theorem exists_label?_iff :
    (∃ i, (references p isDead mode).label? i = some d) ↔ isDead d ∧ d < p.declarations.size := by
  simp only [label?_references, (indexed_vertices p isDead).dead]

theorem edge_references : (references p isDead mode).Edge i j ↔
    ∃ u ∈ p.usages, Connects (vertices p isDead).2 mode i j u := by
  rw [edges_references, (edge_foldl index_lt p.usages.toList).right i j, Digraph.Edge,
    (indexed_vertices p isDead).edgeless]
  simp

-- The vertices of the graph stand for the dead declarations, and its edges for what refers to what.
theorem reflects_references (hp : p.WellFormed) : Reflects (references p isDead mode).Edge
    (Refers p isDead mode) (references p isDead mode).label? where
  iff {i j} := by
    have hd {i d} (h : (vertices p isDead).2.getD d none = some i) : isDead d :=
      have hl : (references p isDead mode).label? i = some d := label?_eq_some_iff.mpr h
      (exists_label?_iff.mp ⟨i, hl⟩).left
    simp only [edge_references, label?_eq_some_iff]
    constructor
    case mp =>
      rintro ⟨u, hu, hc, ⟨d, ho, hs⟩, ht⟩
      exact ⟨d, u.target, hs, ht, hd hs, hd ht, u, hu, hc, ho, rfl⟩
    case mpr =>
      rintro ⟨d, _, hs, ht, _, _, u, hu, hc, ho, rfl⟩
      exact ⟨u, hu, hc, ⟨d, ho, hs⟩, ht⟩
  covers h := exists_label?_iff.mpr ⟨h.target, (h.lt_size hp).right⟩

end DeadCode.Cycle
