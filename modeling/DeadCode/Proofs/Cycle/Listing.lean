import DeadCode.Proofs.Cycle
import Mathlib.Data.List.Lex
import Mathlib.Data.List.Sort

namespace DeadCode.Cycle

open Relation

-- The order in which cycles are listed: larger ones first, and those of one size by their members.
def Precedes (a b : Cycle) : Prop :=
  b.members.length < a.members.length ∨
    a.members.length = b.members.length ∧ a.members < b.members

namespace Precedes

instance : Std.Irrefl Precedes where
  irrefl a h := by
    cases h
    case inl h => exact Nat.lt_irrefl _ h
    case inr h => exact lt_irrefl _ h.right

instance : Std.Antisymm Precedes where
  antisymm a b h h' := by
    cases h <;> cases h'
    case inl.inl h h' => exact absurd h' (Nat.lt_asymm h)
    case inl.inr h h' => exact absurd h (Nat.not_lt_of_ge (Nat.le_of_eq h'.left.symm))
    case inr.inl h h' => exact absurd h' (Nat.not_lt_of_ge (Nat.le_of_eq h.left.symm))
    case inr.inr h h' => exact absurd h'.right (lt_asymm h.right)

end Precedes

theorem compareLex_eq_lt_iff {xs ys : List Nat} : xs.compareLex compare ys = .lt ↔ xs < ys := by
  induction xs generalizing ys
  case nil => cases ys <;> simp [List.compareLex_nil_nil, List.compareLex_nil_cons]
  case cons x xs hi =>
    cases ys
    case nil => simp [List.compareLex_cons_nil]
    case cons y ys =>
      rw [List.compareLex_cons_cons, Ordering.then_eq_lt, hi, Nat.compare_eq_lt, Nat.compare_eq_eq,
        List.cons_lt_cons_iff]

theorem order_eq_lt_iff : order a b = .lt ↔ Precedes a b := by
  rw [order, Ordering.then_eq_lt, Nat.compare_eq_lt, Nat.compare_eq_eq, compareLex_eq_lt_iff, Precedes,
    eq_comm]

theorem members_eq_of_order (h : order a b = .eq) : a.members = b.members :=
  Std.LawfulEqCmp.eq_of_compare (Ordering.then_eq_eq.mp h).right

instance : Std.TransCmp fun a b : Cycle => compare b.members.length a.members.length :=
  inferInstanceAs (Std.TransCmp fun a b : Cycle => compareOn (List.length ∘ members) b a)

instance : Std.TransCmp fun a b : Cycle => a.members.compareLex compare b.members :=
  inferInstanceAs (Std.TransCmp (compareOn members))

instance : Std.TransCmp order :=
  inferInstanceAs (Std.TransCmp (compareLex
    (fun a b : Cycle => compare b.members.length a.members.length)
    (fun a b : Cycle => a.members.compareLex compare b.members)))

-- What it means that the cycles of a relation are listed, with the names of their members:
-- 1. two numbers are in one cycle if and only if each of them leads to the other
-- 2. a number is in some cycle if and only if it leads back to itself in one step or more
-- 3. no number is listed twice
-- 4. the members of a cycle go upwards, and there are some
-- 5. their names are in step with them
-- 6. larger cycles come first, and those of one size are ordered by their members
structure Lists (cycles : List Cycle) (p : Project) (R : Nat → Nat → Prop) : Prop where
  shared   : ∀ {i j}, i ≠ j → ((∃ c ∈ cycles, i ∈ c.members ∧ j ∈ c.members) ↔
    ReflTransGen R i j ∧ ReflTransGen R j i)
  covered  : ∀ {i}, (∃ c ∈ cycles, i ∈ c.members) ↔ TransGen R i i
  once     : (cycles.flatMap members).Nodup
  upwards  : ∀ c ∈ cycles, c.members.Pairwise (· < ·)
  nonempty : ∀ c ∈ cycles, c.members ≠ []
  names    : ∀ c ∈ cycles, List.Forall₂ (fun k name => ∃ d, p.declarations[k]? = some d ∧
    d.shownName = name) c.members c.names
  ordered  : cycles.Pairwise Precedes

theorem Mutual.iff_of_ne {R : α → α → Prop} {x y : α} (h : x ≠ y) :
    Mutual R x y ↔ ReflTransGen R x y ∧ ReflTransGen R y x := by
  simp only [Mutual, reflTransGen_iff_eq_or_transGen, h, h.symm, false_or]

namespace Lists

variable {p q : Project} {R : Nat → Nat → Prop} {cycles cycles' : List Cycle} {c d : Cycle} {i j : Nat}

section

variable (h : Lists cycles p R)
include h

theorem exists_mem_iff : (∃ c ∈ cycles, i ∈ c.members ∧ j ∈ c.members) ↔ Mutual R i j := by
  by_cases hn : i = j
  case pos =>
    subst hn
    simpa only [and_self, Mutual] using h.covered
  case neg => rw [h.shared hn, Mutual.iff_of_ne hn]

theorem eq_of_mem (hc : c ∈ cycles) (hd : d ∈ cycles) (hi : i ∈ c.members) (hi' : i ∈ d.members) :
    c = d := by
  by_contra hn
  have : Std.Symm fun a b : Cycle => a.members.Disjoint b.members := ⟨fun _ _ => List.Disjoint.symm⟩
  exact (List.nodup_flatMap.mp h.once).right.forall hc hd hn hi hi'

theorem mem_iff (hc : c ∈ cycles) (hi : i ∈ c.members) : j ∈ c.members ↔ Mutual R i j := by
  rw [← h.exists_mem_iff]
  constructor
  case mp => exact fun hj => ⟨c, hc, hi, hj⟩
  case mpr =>
    rintro ⟨d, hd, hi', hj⟩
    exact h.eq_of_mem hc hd hi hi' ▸ hj

-- The cycles are the classes of those numbers that lead back to themselves.
theorem mem_classes_iff {is : Set Nat} : is ∈ Classes R ↔ ∃ c ∈ cycles, is = { k | k ∈ c.members } := by
  constructor
  case mp =>
    rintro ⟨i, hi, rfl⟩
    have ⟨c, hc, hm⟩ := h.covered.mpr hi
    refine ⟨c, hc, ?_⟩
    ext j
    exact h.mem_iff hc hm |>.symm
  case mpr =>
    rintro ⟨c, hc, rfl⟩
    have ⟨i, hi⟩ := List.exists_mem_of_ne_nil _ (h.nonempty c hc)
    refine ⟨i, h.covered.mp ⟨c, hc, hi⟩, ?_⟩
    ext j
    exact h.mem_iff hc hi

end

section

variable (h : Lists cycles p R) (h' : Lists cycles' q R)
variable (hn : p.declarations.map Declaration.name = q.declarations.map Declaration.name)
include h h' hn

theorem names_eq (hc : c ∈ cycles) (hd : d ∈ cycles') (hm : c.members = d.members) :
    c.names = d.names := by
  refine List.right_unique_forall₂' ?_ (h.names c hc) (hm ▸ (h'.names d hd).imp ?_)
  case refine_1 =>
    rintro k _ _ ⟨a, ha, rfl⟩ ⟨b, hb, rfl⟩
    rw [Option.some.inj (ha.symm.trans hb)]
  case refine_2 =>
    rintro k _ ⟨b, hb, rfl⟩
    have hk : (p.declarations[k]?.map Declaration.name) = some b.name := by
      have := congrArg (·[k]?) hn
      simpa [hb] using this
    have ⟨a, ha, hab⟩ := Option.map_eq_some_iff.mp hk
    exact ⟨a, ha, by rw [Declaration.shownName, hab, Declaration.shownName]⟩

theorem subset : cycles ⊆ cycles' := by
  intro c hc
  have ⟨i, hi⟩ := List.exists_mem_of_ne_nil _ (h.nonempty c hc)
  have ⟨d, hd, hi'⟩ := h'.covered.mpr (h.covered.mp ⟨c, hc, hi⟩)
  have hm : c.members = d.members := (h.upwards c hc).eq_of_mem_iff (h'.upwards d hd) fun j => by
    rw [h.mem_iff hc hi, h'.mem_iff hd hi']
  have he : c = d := by
    cases c
    cases d
    exact Cycle.mk.injEq .. |>.mpr ⟨hm, names_eq h h' hn hc hd hm⟩
  exact he ▸ hd

-- The relation and the names leave nothing open.
theorem unique : cycles = cycles' :=
  h.ordered.eq_of_mem_iff h'.ordered fun _ =>
    ⟨fun hc => subset h h' hn hc, fun hc => subset h' h hn.symm hc⟩

end

end Lists

variable {p q : Project} {isDead isDead' : Nat → Bool} {mode : Mode} {g : Digraph Nat}
variable {cs : List (List Nat)} {c c' : List Nat} {i j d : Nat}

theorem mem_members : d ∈ (ofComponent p g c).members ↔ ∃ i ∈ c, g.label? i = some d := by
  simp [ofComponent]

section

variable (h : g.Components cs) (hc : c ∈ cs)
include h hc

-- A single vertex lies on a cycle only if it leads to itself directly: whatever else it leads to, and
-- that leads back to it, is in the same component.
theorem isCyclic_iff (hi : i ∈ c) : isCyclic g c ↔ TransGen g.Edge i i := by
  have hn : c.Nodup := (List.nodup_flatten.mp h.nodup).left c hc
  match c, hi with
  | [k], hi =>
    obtain rfl := List.mem_singleton.mp hi
    have he : isCyclic g [i] = g.hasEdge i i := by simp [isCyclic]
    rw [he, Digraph.hasEdge_iff]
    constructor
    case mp => exact .single
    case mpr =>
      intro ht
      obtain ⟨j, hij, hj⟩ := TransGen.tail'_iff.mp ht
      have hm : j ∈ [i] := h.linked hc (.head _) |>.mpr ⟨hij, .single hj⟩
      rwa [List.mem_singleton.mp hm] at hj
  | k :: l :: c, hi =>
    have he : isCyclic g (k :: l :: c) = true := by simp [isCyclic]
    have hkl : k ≠ l := List.ne_of_not_mem_cons (List.nodup_cons.mp hn).left
    obtain ⟨j, hj, hij⟩ : ∃ j ∈ k :: l :: c, j ≠ i := by
      by_cases hik : i = k
      case pos => exact ⟨l, by simp, fun he => hkl (hik.symm.trans he.symm)⟩
      case neg => exact ⟨k, by simp, Ne.symm hik⟩
    have hl := Digraph.linked_iff.mp <| h.linked hc hi |>.mp hj
    have ⟨ht, ht'⟩ := hl.resolve_left hij
    exact iff_of_true he (ht.trans ht')

end

section

variable (hg : ∀ {i j d}, g.label? i = some d → g.label? j = some d → i = j)
include hg

theorem pairwise_members (hn : c.Nodup) : (ofComponent p g c).members.Pairwise (· < ·) := by
  have hl : (c.filterMap g.label?).Nodup := by
    refine List.Pairwise.filterMap _ ?_ hn
    rintro i j hij d hd e he rfl
    exact hij (hg hd he)
  have hs : (ofComponent p g c).members.Nodup := (List.mergeSort_perm ..).nodup_iff.mpr hl
  have ho : (ofComponent p g c).members.Pairwise (· ≤ ·) := by
    refine (List.pairwise_mergeSort ?_ ?_ _).imp ?_
    case refine_1 => simpa using fun _ _ _ => Nat.le_trans
    case refine_2 => simpa using Nat.le_total
    case refine_3 => simp
  exact (ho.and hs).imp fun ⟨h, h'⟩ => Nat.lt_of_le_of_ne h h'

theorem disjoint_members (h : c.Disjoint c') :
    (ofComponent p g c).members.Disjoint (ofComponent p g c').members := by
  intro d hd hd'
  have ⟨i, hi, hid⟩ := mem_members.mp hd
  have ⟨j, hj, hjd⟩ := mem_members.mp hd'
  exact h hi (hg hid hjd ▸ hj)

end

section

variable {components : Digraph Nat → List (List Nat)} {a b : Cycle}

theorem mem_find_iff : a ∈ find p isDead mode components ↔
    ∃ c ∈ components (references p isDead mode), isCyclic (references p isDead mode) c ∧
      ofComponent p (references p isDead mode) c = a := by
  simp only [find, List.mem_mergeSort, List.mem_map, List.mem_filter, and_assoc]

theorem names_of_mem_find (ha : a ∈ find p isDead mode components) : List.Forall₂ (fun k name =>
    ∃ d, p.declarations[k]? = some d ∧ d.shownName = name) a.members a.names := by
  obtain ⟨c, hc, _, rfl⟩ := mem_find_iff.mp ha
  rw [ofComponent, List.forall₂_map_right_iff, List.forall₂_same]
  intro k hk
  have ⟨i, _, hi⟩ := mem_members.mp hk
  have hd := Array.getElem?_eq_getElem (exists_label?_iff.mp ⟨i, hi⟩).right
  exact ⟨_, hd, by rw [hd]; rfl⟩

variable (h : Digraph.ListsComponents components)
include h

theorem nodup_flatMap_members : ((find p isDead mode components).flatMap members).Nodup := by
  have hn := List.nodup_flatten.mp (h (references p isDead mode)).nodup
  rw [find, (List.mergeSort_perm _ _).flatMap_right members |>.nodup_iff, List.flatMap_map,
    List.nodup_flatMap]
  constructor
  case left =>
    intro c hc
    exact (pairwise_members label?_injective (hn.left c (List.mem_of_mem_filter hc))).imp Nat.ne_of_lt
  case right => exact (hn.right.filter _).imp fun hc => disjoint_members label?_injective hc

theorem nonempty_of_mem_find (ha : a ∈ find p isDead mode components) : a.members ≠ [] := by
  obtain ⟨c, hc, _, rfl⟩ := mem_find_iff.mp ha
  have hg := h (references p isDead mode)
  have ⟨i, hi⟩ := List.exists_mem_of_ne_nil _ (hg.nonempty hc)
  have ⟨d, hd⟩ := Digraph.exists_label? (hg.lt_size hc hi)
  exact List.ne_nil_of_mem (mem_members.mpr ⟨i, hi, hd⟩)

-- Whatever the order of the components, no two cycles have the same members, so that the sort leaves
-- nothing open.
theorem pairwise_precedes : (find p isDead mode components).Pairwise Precedes := by
  have hs : (find p isDead mode components).Pairwise fun a b => (order a b).isLE := by
    refine List.pairwise_mergeSort (fun _ _ _ => Std.TransCmp.isLE_trans) (fun a b => ?_) _
    have hs : order b a = (order a b).swap := Std.OrientedCmp.eq_swap
    rw [hs]
    cases order a b <;> rfl
  have hn : ((find p isDead mode components).flatMap members).Nodup := nodup_flatMap_members h
  have hd := (List.nodup_flatMap.mp hn).right
  refine (hs.and hd).imp_of_mem fun {a b} ha _ ⟨hl, hd⟩ => ?_
  rcases Ordering.isLE_iff_eq_lt_or_eq_eq.mp hl with hl | he
  case inl => exact order_eq_lt_iff.mp hl
  case inr =>
    have ⟨i, hi⟩ := List.exists_mem_of_ne_nil _ (nonempty_of_mem_find h ha)
    exact absurd (members_eq_of_order he ▸ hi) (hd hi)

theorem exists_mem_find_iff (hp : p.WellFormed) :
    (∃ a ∈ find p isDead mode components, i ∈ a.members ∧ j ∈ a.members) ↔
      Mutual (Refers p isDead mode) i j := by
  have hg := h (references p isDead mode)
  have hr : Reflects (references p isDead mode).Edge _ _ := reflects_references hp
  constructor
  case mp =>
    rintro ⟨a, ha, hi, hj⟩
    obtain ⟨c, hc, hy, rfl⟩ := mem_find_iff.mp ha
    have ⟨x, hx, hxi⟩ := mem_members.mp hi
    have ⟨y, hy', hyj⟩ := mem_members.mp hj
    have hm : Mutual (references p isDead mode).Edge x y := by
      rcases Digraph.linked_iff.mp (hg.linked hc hx |>.mp hy') with rfl | hm
      case inl =>
        have ht := isCyclic_iff hg hc hx |>.mp hy
        exact ⟨ht, ht⟩
      case inr => exact hm
    have ⟨j', hj', hij⟩ := hr.mutual_iff hxi |>.mp hm
    cases hj'.symm.trans hyj
    exact hij
  case mpr =>
    intro hij
    have ⟨x, hx⟩ := hr.exists_of_transGen hij.right
    have ⟨y, hy⟩ := hr.exists_of_transGen hij.left
    have hm := hr.mutual_iff hx |>.mpr ⟨j, hy, hij⟩
    have ⟨c, hc, hxc⟩ := hg.exists_mem (Digraph.lt_of_label? hx)
    have hyc := hg.linked hc hxc |>.mpr (Digraph.linked_iff.mpr (.inr hm))
    have hcy := isCyclic_iff hg hc hxc |>.mpr (hm.trans hm.symm).left
    exact ⟨_, mem_find_iff.mpr ⟨c, hc, hcy, rfl⟩, mem_members.mpr ⟨x, hxc, hx⟩,
      mem_members.mpr ⟨y, hyc, hy⟩⟩

theorem lists_find (hp : p.WellFormed) :
    Lists (find p isDead mode components) p (Refers p isDead mode) where
  shared hn := (exists_mem_find_iff h hp).trans (Mutual.iff_of_ne hn)
  covered {i} := by simpa only [and_self, Mutual] using exists_mem_find_iff h hp (i := i) (j := i)
  once := nodup_flatMap_members h
  upwards a ha := by
    obtain ⟨c, hc, _, rfl⟩ := mem_find_iff.mp ha
    have hn := List.nodup_flatten.mp (h (references p isDead mode)).nodup
    exact pairwise_members label?_injective (hn.left c hc)
  nonempty _ := nonempty_of_mem_find h
  names _ := names_of_mem_find
  ordered := pairwise_precedes h

-- Projects whose dead declarations refer to each other in the same way have the same cycles, in whatever
-- order the components are listed.
theorem find_eq_find {components' : Digraph Nat → List (List Nat)}
    (h' : Digraph.ListsComponents components') (hp : p.WellFormed) (hq : q.WellFormed)
    (hd : p.declarations.map Declaration.name = q.declarations.map Declaration.name)
    (hr : Refers p isDead mode = Refers q isDead' mode) :
    find p isDead mode components = find q isDead' mode components' :=
  (lists_find h hp).unique (hr ▸ lists_find h' hq) hd

end

end DeadCode.Cycle
