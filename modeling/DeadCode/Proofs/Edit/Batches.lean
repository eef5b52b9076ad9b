import DeadCode.Proofs.Edit.Cover
import Mathlib.Data.List.Sort

namespace DeadCode.Span

variable {s t current next : Span} {spans spans' rest : List Span} {n m : Nat}

section Sorting

-- The order in which spans are collapsed, as a relation.
abbrev Precedes (s t : Span) : Prop :=
  s.le t

theorem precedes_of_not (h : ¬s.Precedes t) : t.Precedes s :=
  (Bool.or_eq_true .. ▸ le_total s t).resolve_left h

instance : Std.Total Precedes where
  total _ _ := or_iff_not_imp_left.mpr precedes_of_not

instance : IsTrans Span Precedes where
  trans := le_trans

theorem eq_of_perm_of_sorted (h : spans.Perm spans') (hs : spans.Pairwise Precedes)
    (hs' : spans'.Pairwise Precedes) : spans = spans' :=
  h.eq_of_pairwise (fun _ _ _ _ => le_antisymm) hs hs'

theorem mergeSort_eq_of_perm (h : spans.Perm spans') : spans.mergeSort le = spans'.mergeSort le :=
  eq_of_perm_of_sorted ((List.mergeSort_perm ..).trans <| h.trans (List.mergeSort_perm ..).symm)
    (sorted_mergeSort spans) (sorted_mergeSort spans')

theorem mergeSort_cons (s : Span) (spans : List Span) :
    (s :: spans).mergeSort le = (spans.mergeSort le).orderedInsert Precedes s := by
  have hp := (List.mergeSort_perm spans le).symm.cons s
  exact eq_of_perm_of_sorted
    ((List.mergeSort_perm ..).trans <| hp.trans (List.perm_orderedInsert ..).symm)
    (sorted_mergeSort _) ((sorted_mergeSort spans).orderedInsert s _)

theorem collapse_perm (h : spans.Perm spans') : collapse spans = collapse spans' := by
  rw [collapse, mergeSort_eq_of_perm h, ← collapse]

end Sorting

section Join

theorem stop_extend (s : Span) (n : Nat) : (s.extend n).stop = max s.stop n :=
  rfl

theorem precedes_extend (s : Span) (n : Nat) : s.Precedes (s.extend n) := by
  have hs : s.stop ≤ max s.stop n := Nat.le_max_left ..
  exact le_iff.mpr <| .inr ⟨rfl, .inr ⟨rfl, hs⟩⟩

-- Spans that begin alike and reach equally far are the same.
theorem extend_eq_extend (hf : s.fullStart = t.fullStart) (hs : s.start = t.start)
    (he : max s.stop n = max t.stop m) : s.extend n = t.extend m :=
  Span.ext hf hs he

theorem extend_extend (s : Span) (n m : Nat) : (s.extend n).extend m = s.extend (max n m) :=
  extend_eq_extend rfl rfl (Nat.max_assoc ..)

theorem join_of_lt (h : next.fullStart < current.stop) :
    join current (next :: rest) = join (current.extend next.stop) rest := by
  rw [join, if_pos h]

theorem join_of_le (h : current.stop ≤ next.fullStart) :
    join current (next :: rest) = current :: join next rest := by
  rw [join, if_neg (Nat.not_lt.mpr h)]

-- A span that grows into the pending one can be taken out of the list and joined right away. What comes
-- before it grows into the pending one, too.
theorem join_orderedInsert (h : next.fullStart < current.stop) :
    join current (rest.orderedInsert Precedes next) = join (current.extend next.stop) rest := by
  induction rest generalizing current
  case nil => rw [List.orderedInsert_nil, join_of_lt h]
  case cons s rest hi =>
    by_cases hn : next.Precedes s
    case pos => rw [List.orderedInsert_cons_of_le (r := Precedes) rest hn, join_of_lt h]
    case neg =>
      have hs := fullStart_le_of_le (precedes_of_not hn)
      have he : (current.extend s.stop).extend next.stop = (current.extend next.stop).extend s.stop := by
        rw [extend_extend, extend_extend, Nat.max_comm]
      rw [List.orderedInsert_of_not_le (r := Precedes) rest hn, join_of_lt (by omega),
        hi (by rw [stop_extend]; omega), he, join_of_lt (by rw [stop_extend]; omega)]

-- A span that has grown may have to wait for others that begin alike, but then it grows into the first of
-- them.
theorem join_orderedInsert_extend (hc : current.stop ≤ s.fullStart) (hs : s.fullStart < s.stop)
    (hr : ∀ t ∈ rest.head?, s.Precedes t) :
    join current (rest.orderedInsert Precedes (s.extend n)) = current :: join (s.extend n) rest := by
  have hg : current.stop ≤ (s.extend n).fullStart := hc
  cases rest
  case nil => rw [List.orderedInsert_nil, join_of_le hg]
  case cons t rest =>
    by_cases ht : (s.extend n).Precedes t
    case pos => rw [List.orderedInsert_cons_of_le (r := Precedes) rest ht, join_of_le hg]
    case neg =>
      have ⟨hf, hb, hst⟩ : t.fullStart = s.fullStart ∧ t.start = s.start ∧ s.stop ≤ t.stop := by
        have h₁ := le_iff.mp (hr t rfl)
        have h₂ := le_iff.mp (precedes_of_not ht)
        simp only [extend] at h₂
        omega
      have he : t.extend (s.extend n).stop = (s.extend n).extend t.stop :=
        extend_eq_extend hf hb (by simp only [stop_extend]; omega)
      have hn : (s.extend n).fullStart < t.stop := show s.fullStart < t.stop by omega
      have ht' : t.fullStart < (s.extend n).stop := by rw [stop_extend]; omega
      rw [List.orderedInsert_of_not_le (r := Precedes) rest ht, join_of_le (by omega),
        join_orderedInsert hn, he, join_of_lt ht']

-- If nothing else comes before a span, it is its turn, and the span that grows into it is joined with it.
theorem join_orderedInsert_of_head (hs : s.Precedes t) (ht : t.fullStart < s.stop) (rest : List Span)
    (hr : ∀ u ∈ rest.head?, s.Precedes u) :
    join current ((rest.orderedInsert Precedes t).orderedInsert Precedes s) =
      join current (rest.orderedInsert Precedes (s.extend t.stop)) := by
  have hf := fullStart_le_of_le hs
  have hl : (rest.orderedInsert Precedes t).orderedInsert Precedes s =
      s :: rest.orderedInsert Precedes t := by
    cases rest
    case nil => exact List.orderedInsert_cons_of_le (r := Precedes) [] hs
    case cons u rest =>
      rw [List.orderedInsert_cons]
      split
      case isTrue => exact List.orderedInsert_cons_of_le (r := Precedes) _ hs
      case isFalse => exact List.orderedInsert_cons_of_le (r := Precedes) _ (hr u rfl)
  rw [hl]
  by_cases hc : s.fullStart < current.stop
  case pos =>
    have hg : (s.extend t.stop).fullStart < current.stop := hc
    rw [join_of_lt hc, join_orderedInsert (by rw [stop_extend]; omega), join_orderedInsert hg,
      extend_extend, stop_extend]
  case neg =>
    have hc : current.stop ≤ s.fullStart := by omega
    rw [join_of_le hc, join_orderedInsert ht, join_orderedInsert_extend hc (by omega) hr]

theorem join_orderedInsert_orderedInsert (hs : s.Precedes t) (ht : t.fullStart < s.stop) :
    join current ((rest.orderedInsert Precedes t).orderedInsert Precedes s) =
      join current (rest.orderedInsert Precedes (s.extend t.stop)) := by
  induction rest generalizing current
  case nil => exact join_orderedInsert_of_head hs ht [] (by simp)
  case cons u rest hi =>
    by_cases hu : s.Precedes u
    case pos => exact join_orderedInsert_of_head hs ht (u :: rest) (by simpa using hu)
    case neg =>
      have hn {v : Span} (hv : s.Precedes v) : ¬v.Precedes u := fun h => hu (le_trans _ _ _ hv h)
      rw [List.orderedInsert_of_not_le (r := Precedes) rest (hn hs),
        List.orderedInsert_of_not_le (r := Precedes) _ hu,
        List.orderedInsert_of_not_le (r := Precedes) rest (hn (s.precedes_extend _)), join, join, hi, hi]

end Join

section Collapse

-- Nothing grows into a span at the very beginning that has no extent.
theorem join_origin (spans : List Span) :
    join ⟨0, 0, 0, Nat.le_refl 0, Nat.le_refl 0⟩ (spans.mergeSort le) =
      ⟨0, 0, 0, Nat.le_refl 0, Nat.le_refl 0⟩ :: collapse spans := by
  unfold collapse
  cases spans.mergeSort le
  case nil => rfl
  case cons => exact join_of_le (Nat.zero_le _)

theorem collapse_grow (hs : s.Precedes t) (ht : t.fullStart < s.stop) (spans : List Span) :
    collapse (s :: t :: spans) = collapse (s.extend t.stop :: spans) := by
  apply List.tail_eq_of_cons_eq
  rw [← join_origin, ← join_origin, mergeSort_cons, mergeSort_cons, mergeSort_cons,
    join_orderedInsert_orderedInsert hs ht]

-- A span comes before another, or would do so if it were shorter, where both begin alike and the other is
-- not empty.
def Heads (s t : Span) : Prop :=
  s.Precedes t ∨ s.fullStart = t.fullStart ∧ s.start = t.start ∧ t.fullStart < t.stop

theorem Heads.fullStart_le (h : s.Heads t) : s.fullStart ≤ t.fullStart :=
  h.elim fullStart_le_of_le fun h => Nat.le_of_eq h.left

-- To grow makes a span come later, but not behind those that it does not cover as a whole.
theorem Heads.extend (h : s.Heads t) (hs : s.fullStart < s.stop) (n : Nat) : (s.extend n).Heads t := by
  by_cases hn : (s.extend n).Precedes t
  case pos => exact .inl hn
  case neg =>
    have hn := le_iff.not.mp hn
    simp only [Span.extend] at hn
    rcases h with h | h
    case inl =>
      have h := le_iff.mp h
      exact .inr ⟨show s.fullStart = _ by omega, show s.start = _ by omega, by omega⟩
    case inr => exact .inr h

theorem Heads.collapse_grow (h : s.Heads t) (ht : t.fullStart < s.stop) (spans : List Span) :
    collapse (s :: t :: spans) = collapse (s.extend t.stop :: spans) := by
  by_cases hs : s.Precedes t
  case pos => exact Span.collapse_grow hs ht spans
  case neg =>
    have ⟨hf, hb, hv⟩ := h.resolve_left hs
    have he : t.extend s.stop = s.extend t.stop := extend_eq_extend hf.symm hb.symm (Nat.max_comm ..)
    rw [collapse_perm (.swap t s spans), Span.collapse_grow (precedes_of_not hs) (by omega), he]

-- Whether spans have been joined makes no difference to what they are collapsed to together with others.
theorem collapse_join_append (h : ∀ t ∈ rest, current.Heads t) (hs : rest.Pairwise Precedes)
    (others : List Span) : collapse (join current rest ++ others) = collapse (current :: rest ++ others) := by
  fun_induction join current rest generalizing others
  case case1 => rfl
  case case2 current next rest hn hi =>
    have hc := h next (.head _)
    have hv : current.fullStart < current.stop := Nat.lt_of_le_of_lt hc.fullStart_le hn
    rw [hi (fun t ht => (h t (.tail _ ht)).extend hv _) hs.tail]
    exact (hc.collapse_grow hn _).symm
  case case3 current next rest hn hi =>
    obtain ⟨hr, hs⟩ := List.pairwise_cons.mp hs
    calc
      _ = collapse (join next rest ++ current :: others) := collapse_perm List.perm_middle.symm
      _ = collapse (next :: rest ++ current :: others) := hi (fun t ht => .inl (hr t ht)) hs _
      _ = _ := collapse_perm List.perm_middle

theorem collapse_collapse_append (spans others : List Span) :
    collapse (collapse spans ++ others) = collapse (spans ++ others) := by
  rcases collapse_cases spans with ⟨rfl, hc⟩ | ⟨first, rest, hs, hp, hc⟩
  case inl => rw [hc]
  case inr =>
    have ⟨hf, hs⟩ := List.pairwise_cons.mp hs
    rw [hc, collapse_join_append (fun t ht => .inl (hf t ht)) hs]
    exact collapse_perm (hp.append_right others)

end Collapse

-- Neither the order of the spans matters nor what has been collapsed before.
theorem collapse_batches (spans others : List Span) :
    (∀ spans', spans'.Perm spans → collapse spans' = collapse spans) ∧
    collapse (collapse spans ++ others) = collapse (spans ++ others) ∧
    collapse (collapse spans) = collapse spans := by
  refine ⟨fun _ hp => collapse_perm hp, collapse_collapse_append spans others, ?_⟩
  simpa using collapse_collapse_append spans []

-- The comment before the second span begins in the first.
def nested : List Span :=
  [⟨40, 40, 50, by decide, by decide⟩, ⟨48, 52, 60, by decide, by decide⟩]

-- Empty spans at either end of these.
def edges : List Span :=
  [⟨60, 60, 60, by decide, by decide⟩, ⟨40, 40, 40, by decide, by decide⟩]

theorem collapse_batches_edges : nested.reverse.Perm nested ∧ collapse nested.reverse = collapse nested ∧
    collapse nested = [⟨40, 40, 60, by decide, by decide⟩] ∧
    collapse (collapse nested ++ edges) = collapse (nested ++ edges) ∧
    collapse (nested ++ edges) = [⟨40, 40, 40, by decide, by decide⟩,
      ⟨40, 40, 60, by decide, by decide⟩, ⟨60, 60, 60, by decide, by decide⟩] := by
  have hp := nested.reverse_perm
  have ⟨ho, hb, _⟩ := collapse_batches nested edges
  refine ⟨hp, ho _ hp, ?_, hb, ?_⟩ <;>
    simp [collapse, nested, edges, List.mergeSort, List.MergeSort.Internal.splitInTwo, le, join, extend]

end DeadCode.Span
