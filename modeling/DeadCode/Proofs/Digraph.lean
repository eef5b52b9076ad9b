import DeadCode.Digraph
import DeadCode.Proofs.Worklist
import Mathlib.Data.List.Flatten
import Mathlib.Logic.Relation

namespace DeadCode.Digraph

open Relation

variable {g : Digraph α} {next : Nat → List Nat} {table : Array (List Nat)} {seen : Array Bool}
variable {i j k n start : Nat}

theorem label?_addVertex (g : Digraph α) (a : α) (i : Nat) :
    (g.addVertex a).label? i = if i = g.size then some a else g.label? i := by
  have hs : g.size = g.vertices.size := rfl
  rw [label?, label?, addVertex, Array.getElem?_push, hs]
  split <;> rfl

theorem next_addVertex (g : Digraph α) (a : α) (i : Nat) : (g.addVertex a).next i = g.next i := by
  simp only [next, addVertex, Array.getElem?_push]
  split
  case isTrue h => simp [h]
  case isFalse => rfl

theorem lt_of_label? (h : g.label? i = some a) : i < g.size := by
  by_contra hi
  simp [label?, Array.getElem?_eq_none (Nat.le_of_not_lt hi)] at h

theorem exists_label? (h : i < g.size) : ∃ a, g.label? i = some a :=
  ⟨_, by rw [label?, Array.getElem?_eq_getElem h, Option.map_some]⟩

@[simp]
theorem size_updateEdge (g : Digraph α) (i j : Nat) : (g.updateEdge i j).size = g.size := by
  unfold updateEdge
  split <;> simp [size]

@[simp]
theorem label?_updateEdge (g : Digraph α) (i j k : Nat) : (g.updateEdge i j).label? k = g.label? k := by
  unfold updateEdge
  split
  case isFalse => rfl
  case isTrue =>
    simp only [label?, Array.getElem?_modify]
    split <;> simp [Function.comp_def]

def Edge (g : Digraph α) (i j : Nat) : Prop :=
  j ∈ g.next i

theorem Edge.target_lt (h : g.Edge i j) : j < g.size := by
  unfold Edge next at h
  cases hv : g.vertices[i]? <;> rw [hv] at h
  case none => contradiction
  case some v => exact g.closed v (Array.mem_of_getElem? hv) j h

theorem Edge.source_lt (h : g.Edge i j) : i < g.size := by
  by_contra hi
  have hi : g.vertices[i]? = none := Array.getElem?_eq_none (Nat.le_of_not_lt hi)
  simp [Edge, next, hi] at h

theorem hasEdge_iff : g.hasEdge i j ↔ g.Edge i j :=
  List.contains_iff_mem

theorem edge_updateEdge (hi : i < g.size) (hj : j < g.size) :
    (g.updateEdge i j).Edge k l ↔ g.Edge k l ∨ k = i ∧ l = j := by
  unfold updateEdge
  split
  case isFalse h =>
    have he : g.Edge i j := hasEdge_iff.mp (by simpa [hj] using h)
    grind
  case isTrue h =>
    simp only [Edge, next, Array.getElem?_modify]
    by_cases hk : i = k
    case pos =>
      subst hk
      have hv : g.vertices[i]? = some (g.vertices[i]) := Array.getElem?_eq_getElem hi
      simp [hv, or_comm]
    case neg => simp [hk, Ne.symm hk]

-- Two vertices that lead to each other. A vertex always leads to itself, in no step at all.
def Linked (g : Digraph α) (i j : Nat) : Prop :=
  ReflTransGen g.Edge i j ∧ ReflTransGen g.Edge j i

theorem Linked.refl (i : Nat) : g.Linked i i :=
  ⟨.refl, .refl⟩

theorem Linked.symm (h : g.Linked i j) : g.Linked j i :=
  ⟨h.right, h.left⟩

theorem Linked.trans (h : g.Linked i j) (h' : g.Linked j k) : g.Linked i k :=
  ⟨h.left.trans h'.left, h'.right.trans h.right⟩

theorem linked_iff : g.Linked i j ↔ j = i ∨ TransGen g.Edge i j ∧ TransGen g.Edge j i := by
  simp only [Linked, reflTransGen_iff_eq_or_transGen]
  grind

theorem Linked.lt_size (h : g.Linked i j) (hi : i < g.size) : j < g.size := by
  cases linked_iff.mp h
  case inl he => exact he ▸ hi
  case inr h =>
    cases h.left
    case single h => exact h.target_lt
    case tail h => exact h.target_lt

-- A list of the strongly connected components of a graph, be it in any order:
-- 1. each vertex is in one of them, once
-- 2. together with a vertex, those are in it that lead to each other with that vertex
-- 3. none of them is empty
structure Components (g : Digraph α) (cs : List (List Nat)) : Prop where
  vertices : cs.flatten.Perm (List.range g.size)
  linked   : ∀ {c i j}, c ∈ cs → i ∈ c → (j ∈ c ↔ g.Linked i j)
  nonempty : ∀ {c}, c ∈ cs → c ≠ []

namespace Components

variable {cs cs' : List (List Nat)} {c d : List Nat} (h : g.Components cs)
include h

theorem nodup : cs.flatten.Nodup :=
  h.vertices.nodup_iff.mpr List.nodup_range

theorem exists_mem (hi : i < g.size) : ∃ c ∈ cs, i ∈ c :=
  List.mem_flatten.mp <| h.vertices.mem_iff.mpr (List.mem_range.mpr hi)

theorem lt_size (hc : c ∈ cs) (hi : i ∈ c) : i < g.size :=
  List.mem_range.mp <| h.vertices.mem_iff.mp (List.mem_flatten.mpr ⟨c, hc, hi⟩)

theorem of_perm (hp : cs'.Perm cs) : g.Components cs' where
  vertices := hp.flatten.trans h.vertices
  linked hc hi := h.linked (hp.subset hc) hi
  nonempty hc := h.nonempty (hp.subset hc)

end Components

-- A function that lists the strongly connected components of any graph.
def ListsComponents (components : Digraph α → List (List Nat)) : Prop :=
  ∀ g : Digraph α, g.Components (components g)

theorem ListsComponents.reverse {components : Digraph α → List (List Nat)} (h : ListsComponents components) :
    ListsComponents fun g => (components g).reverse :=
  fun g => (h g).of_perm (List.reverse_perm _)

-- The numbers from which a walk does not go on: those that it has seen, and those beyond the table.
def noted (seen : Array Bool) : Set Nat :=
  { i | seen.getD i true }

theorem visit_remembers : Worklist.Remembers visit noted where
  stops h := by simp_all [visit, noted]
  goesOn h := by
    simp_all [visit, noted]
    grind
  learns h := by
    ext j
    simp_all [visit, noted]
    grind

theorem noted_replicate (n : Nat) : noted (Array.replicate n false) = { i | n ≤ i } := by
  ext i
  simp [noted, Array.getElem?_replicate]
  grind

theorem size_visit : (visit seen i).1.size = seen.size := by
  unfold visit
  split <;> simp

section

variable (hc : ∀ i, ∀ j ∈ next i, j < n)
include hc

theorem found_iff : Worklist.Found next { i | n ≤ i } (next start) i ↔
    TransGen (fun i j => j ∈ next i) start i := by
  constructor
  case mp =>
    intro h
    induction h
    case root hm _ => exact .single hm
    case step hm _ hi => exact hi.tail hm
  case mpr =>
    intro h
    induction h
    case single h => exact .root h (by simpa using hc _ _ h)
    case tail h hi => exact hi.step h (by simpa using hc _ _ h)

-- No vertex is expanded twice, so a budget for all of them is enough.
theorem run_visit_isSome (start : Nat) :
    (Worklist.run next visit n (next start) (Array.replicate n false)).isSome := by
  classical
  apply visit_remembers.run_isSome (Finset.range n)
  case hn => exact fun i _ _ hj => Finset.mem_range.mpr (hc i _ hj)
  case hw => exact fun _ hj => Finset.mem_range.mpr (hc start _ hj)
  case hb => exact (Finset.card_filter_le _ _).trans (Nat.le_of_eq (Finset.card_range n))

theorem getD_reach : (reach next n start).getD i false ↔ TransGen (fun i j => j ∈ next i) start i := by
  have ⟨t, ht⟩ := Option.isSome_iff_exists.mp (run_visit_isSome hc start)
  have hs : t.size = n := Worklist.run_preserves (P := fun t => t.size = n)
    (fun _ _ h => size_visit.trans h) (by simp) ht
  have hn := visit_remembers.seen_run ht
  rw [noted_replicate] at hn
  rw [reach, ht, Option.getD_some]
  by_cases hi : i < n
  case pos =>
    rw [← found_iff hc]
    have := Set.ext_iff.mp hn i
    simpa [noted, hs, hi, Nat.not_le_of_lt hi] using this
  case neg =>
    have hl : ¬TransGen (fun i j => j ∈ next i) start i := by
      intro h
      cases h
      case single h => exact hi (hc _ _ h)
      case tail h => exact hi (hc _ _ h)
    simpa [hs, hi] using hl

end

theorem getD_modify (f : List Nat → List Nat) : (table.modify j f).getD i [] =
    if i = j ∧ j < table.size then f (table.getD i []) else table.getD i [] := by
  simp only [Array.getD_eq_getD_getElem?, Array.getElem?_modify]
  grind

-- Lists a vertex with each of those to which an edge leads from there.
def list (i : Nat) (js : List Nat) (table : Array (List Nat)) : Array (List Nat) :=
  js.foldl (fun table j => table.modify j (i :: ·)) table

@[simp]
theorem size_list : (list i js table).size = table.size := by
  induction js generalizing table
  case nil => rfl
  case cons j js hi => exact hi.trans Array.size_modify

theorem mem_list : k ∈ (list i js table).getD l [] ↔
    k ∈ table.getD l [] ∨ k = i ∧ l ∈ js ∧ l < table.size := by
  induction js generalizing table
  case nil => simp [list]
  case cons j js hi =>
    have : list i (j :: js) table = list i js (table.modify j (i :: ·)) := rfl
    rw [this, hi, getD_modify, Array.size_modify]
    grind

-- The table of predecessors as it grows, vertex by vertex.
def listAll (g : Digraph α) (is : List Nat) : Array (List Nat) :=
  is.foldr (fun i => list i (g.next i)) (Array.replicate g.size [])

@[simp]
theorem size_listAll : (listAll g is).size = g.size := by
  induction is
  case nil => simp [listAll]
  case cons hi => exact size_list.trans hi

theorem mem_listAll : k ∈ (listAll g is).getD l [] ↔ k ∈ is ∧ l ∈ g.next k ∧ l < g.size := by
  induction is
  case nil =>
    simp [listAll, Array.getElem?_replicate]
    grind
  case cons i is hi =>
    have : listAll g (i :: is) = list i (g.next i) (listAll g is) := rfl
    rw [this, mem_list, hi, size_listAll]
    grind

theorem mem_predecessors : i ∈ g.predecessors.getD j [] ↔ g.Edge i j := by
  have hp : g.predecessors = listAll g (List.range g.size) := rfl
  rw [hp, mem_listAll, List.mem_range]
  exact ⟨fun h => h.right.left, fun h => ⟨h.source_lt, h, h.target_lt⟩⟩

open Classical in
theorem component_eq (start : Nat) :
    g.component g.predecessors start = (List.range g.size).filter (g.Linked start ·) := by
  have ha : ∀ i, (reach g.next g.size start).getD i false ↔ TransGen g.Edge start i :=
    fun _ => getD_reach fun _ _ h => Edge.target_lt h
  have hb : ∀ i, (reach (g.predecessors.getD · []) g.size start).getD i false ↔ TransGen g.Edge i start := by
    have he : (fun i j => j ∈ g.predecessors.getD i []) = Function.swap g.Edge := by
      ext i j
      exact mem_predecessors
    intro i
    rw [getD_reach fun _ _ h => (mem_predecessors.mp h).source_lt, he, transGen_swap]
  refine List.filter_congr fun i _ => ?_
  rw [Bool.eq_iff_iff]
  simp only [Bool.or_eq_true, beq_iff_eq, Bool.and_eq_true, ha, hb, decide_eq_true_eq, linked_iff]

theorem mem_component (hs : start < g.size) :
    i ∈ g.component g.predecessors start ↔ g.Linked start i := by
  classical
  rw [component_eq, List.mem_filter, List.mem_range, decide_eq_true_eq]
  exact and_iff_right_of_imp fun h => h.lt_size hs

theorem component_congr (h : g.Linked i j) :
    g.component g.predecessors i = g.component g.predecessors j := by
  classical
  rw [component_eq, component_eq]
  exact List.filter_congr fun k _ => decide_eq_decide.mpr ⟨h.symm.trans, h.trans⟩

theorem mem_components {c : List Nat} : c ∈ g.components ↔
    ∃ i < g.size, c.head? = some i ∧ c = g.component g.predecessors i := by
  simp only [components, List.mem_filterMap, List.mem_range, Option.ite_none_right_eq_some,
    Option.some.injEq]
  grind

-- A component is listed where its least member stands for it. What has a member in common with it is the
-- same one.
theorem pairwise_components (g : Digraph α) : g.components.Pairwise List.Disjoint := by
  refine List.pairwise_filterMap.mpr <| List.nodup_range.imp_of_mem fun {i j} hi hj hij => ?_
  simp only [Option.ite_none_right_eq_some, Option.some.injEq, and_imp]
  rintro c hc rfl d hd rfl k hk hk'
  have hi := List.mem_range.mp hi
  have hl : g.Linked i j :=
    (mem_component hi |>.mp hk).trans (mem_component (List.mem_range.mp hj) |>.mp hk').symm
  rw [component_congr hl, hd] at hc
  exact hij (Option.some.inj hc).symm

theorem exists_mem_components (hi : i < g.size) : ∃ c ∈ g.components, ∀ j, j ∈ c ↔ g.Linked i j := by
  have hm : i ∈ g.component g.predecessors i := mem_component hi |>.mpr (.refl i)
  have ⟨l, hl⟩ := Option.isSome_iff_exists.mp (List.isSome_head?.mpr (List.ne_nil_of_mem hm))
  have hil := mem_component hi |>.mp (List.mem_of_mem_head? hl)
  have hc := component_congr hil
  refine ⟨_, mem_components.mpr ⟨l, hil.lt_size hi, hl, hc⟩, fun j => mem_component hi⟩

-- The search lists the components.
theorem components_listed : ListsComponents (components (α := α)) := fun g => {
  vertices := by
    have hn : g.components.flatten.Nodup := by
      refine List.nodup_flatten.mpr ⟨fun c hc => ?_, g.pairwise_components⟩
      obtain ⟨i, _, _, rfl⟩ := mem_components.mp hc
      exact (List.pairwise_lt_range.filter _).imp Nat.ne_of_lt
    refine (List.perm_ext_iff_of_nodup hn List.nodup_range).mpr fun i => ?_
    rw [List.mem_flatten, List.mem_range]
    constructor
    case mp =>
      rintro ⟨c, hc, hi⟩
      obtain ⟨j, hj, _, rfl⟩ := mem_components.mp hc
      exact (mem_component hj |>.mp hi).lt_size hj
    case mpr =>
      intro hi
      have ⟨c, hc, hm⟩ := exists_mem_components hi
      exact ⟨c, hc, hm i |>.mpr (.refl i)⟩
  linked {c i j} hc hi := by
    obtain ⟨k, hk, _, rfl⟩ := mem_components.mp hc
    have hi := mem_component hk |>.mp hi
    rw [mem_component hk]
    exact ⟨hi.symm.trans, hi.trans⟩
  nonempty {c} hc := by
    obtain ⟨i, _, hh, _⟩ := mem_components.mp hc
    exact fun he => by simp [he] at hh }

end DeadCode.Digraph
