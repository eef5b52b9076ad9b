import DeadCode.Proofs.Edit.Collapse

namespace DeadCode.Span

-- An offset lies in a span or in what leads up to it.
def Covers (s : Span) (o : Nat) : Prop :=
  s.fullStart ≤ o ∧ o < s.stop

-- A span grows into none of those that come before it, so it is the first of the spans it grows together
-- with.
def Leads (spans : List Span) (f : Span) : Prop :=
  f ∈ spans ∧ ∀ s ∈ spans, s.le f → s ≠ f → s.stop ≤ f.fullStart

variable {s t f current next : Span} {spans rest : List Span} {o a b : Nat}

theorem contains_iff : s.contains o ↔ s.start ≤ o ∧ o < s.stop := by
  simp [contains]

theorem contains_iff_covers : s.contains o ↔ s.Covers o ∧ ¬(s.fullStart ≤ o ∧ o < s.start) := by
  have := s.fullStart_le_start
  rw [contains_iff, Covers]
  omega

section Order

theorem le_iff : s.le t ↔ s.fullStart < t.fullStart ∨
    s.fullStart = t.fullStart ∧ (s.start < t.start ∨ s.start = t.start ∧ s.stop ≤ t.stop) := by
  unfold le
  split <;> try split
  all_goals
    simp only [decide_eq_true_eq]
    omega

theorem le_trans (s t u : Span) (h₁ : s.le t) (h₂ : t.le u) : s.le u := by
  rw [le_iff] at *
  omega

theorem le_total (s t : Span) : s.le t || t.le s := by
  rw [Bool.or_eq_true, le_iff, le_iff]
  omega

theorem le_antisymm (h₁ : s.le t) (h₂ : t.le s) : s = t := by
  rw [le_iff] at *
  ext <;> omega

theorem fullStart_le_of_le (h : s.le t) : s.fullStart ≤ t.fullStart := by
  rw [le_iff] at h
  omega

theorem sorted_mergeSort (spans : List Span) : (spans.mergeSort le).Pairwise fun s t => s.le t :=
  List.pairwise_mergeSort le_trans le_total spans

end Order

section Join

theorem covers_extend (h : current.fullStart ≤ next.fullStart) (hn : next.fullStart < current.stop) :
    (current.extend next.stop).Covers o ↔ current.Covers o ∨ next.Covers o := by
  simp only [Covers, extend]
  omega

theorem covers_join (h : (current :: rest).Pairwise fun s t => s.fullStart ≤ t.fullStart) :
    (∃ t ∈ join current rest, t.Covers o) ↔ ∃ s ∈ current :: rest, s.Covers o := by
  fun_induction join current rest
  case case1 => rfl
  case case2 hn hi =>
    obtain ⟨hc, h⟩ := List.pairwise_cons.mp h
    rw [hi (List.pairwise_cons.mpr ⟨fun s hs => hc s (.tail _ hs), h.tail⟩)]
    simp [covers_extend (hc _ (.head _)) hn, or_assoc]
  case case3 hi =>
    have hi := hi h.tail
    simp only [List.mem_cons, exists_eq_or_imp] at hi ⊢
    rw [hi]

theorem leads_cons (h : (current :: rest).Pairwise fun s t => s.le t) :
    Leads (current :: rest) f ↔ f = current ∨ Leads rest f ∧ current.stop ≤ f.fullStart := by
  have hc := (List.pairwise_cons.mp h).left
  constructor
  case mp =>
    rintro ⟨hf, hl⟩
    by_cases he : f = current
    case pos => exact .inl he
    case neg =>
      have hf := (List.mem_cons.mp hf).resolve_left he
      exact .inr ⟨⟨hf, fun s hs => hl s (.tail _ hs)⟩, hl _ (.head _) (hc f hf) (Ne.symm he)⟩
  case mpr =>
    rintro (rfl | ⟨⟨hf, hl⟩, hs⟩)
    case inl =>
      -- Whatever comes after the first span and is not after it is the span itself.
      refine ⟨.head _, fun s hs hle hne => ?_⟩
      have hs := (List.mem_cons.mp hs).resolve_left hne
      exact absurd (le_antisymm hle (hc s hs)) hne
    case inr =>
      refine ⟨.tail _ hf, fun s hm hle hne => ?_⟩
      cases hm
      case head => exact hs
      case tail hm => exact hl s hm hle hne

-- The joined spans begin where the leading ones do.
theorem exists_mem_join_iff {P : Nat → Nat → Prop} (h : rest.Pairwise fun s t => s.le t) :
    (∃ t ∈ join current rest, P t.fullStart t.start) ↔ P current.fullStart current.start ∨
      ∃ f, Leads rest f ∧ current.stop ≤ f.fullStart ∧ P f.fullStart f.start := by
  fun_induction join current rest
  case case1 => simp [Leads]
  case case2 current next rest hn hi =>
    rw [hi h.tail]
    refine or_congr_right <| exists_congr fun f => ?_
    have he : (current.extend next.stop).stop = max current.stop next.stop := rfl
    rw [leads_cons h, he, ← and_assoc, ← and_assoc]
    refine and_congr_left' ?_
    constructor
    case mp =>
      rintro ⟨hf, hs⟩
      exact ⟨.inr ⟨hf, by omega⟩, by omega⟩
    case mpr =>
      rintro ⟨rfl | ⟨hf, hs⟩, hs'⟩
      case inl => omega
      case inr => exact ⟨hf, by omega⟩
  case case3 current next rest hn hi =>
    simp only [List.mem_cons, exists_eq_or_imp, hi h.tail, leads_cons h]
    have := next.fullStart_le_start
    have := next.start_le_stop
    refine or_congr_right <| or_congr (and_iff_right (by omega)).symm <| exists_congr fun f => ?_
    constructor
    case mp =>
      rintro ⟨hf, hs, hp⟩
      exact ⟨⟨hf, hs⟩, by omega, hp⟩
    case mpr =>
      rintro ⟨⟨hf, hs⟩, _, hp⟩
      exact ⟨hf, hs, hp⟩

theorem stop_of_mem_join (h : t ∈ join current rest) : ∃ s ∈ current :: rest, t.stop = s.stop := by
  fun_induction join current rest
  case case1 => exact ⟨t, h, rfl⟩
  case case2 current next rest _ hi =>
    obtain ⟨s, hs, he⟩ := hi h
    cases hs
    case tail hs => exact ⟨s, .tail _ (.tail _ hs), he⟩
    case head =>
      cases Nat.le_total current.stop next.stop
      case inl hl => exact ⟨next, .tail _ (.head _), he.trans (Nat.max_eq_right hl)⟩
      case inr hl => exact ⟨current, .head _, he.trans (Nat.max_eq_left hl)⟩
  case case3 hi =>
    cases h
    case head => exact ⟨_, .head _, rfl⟩
    case tail h =>
      obtain ⟨s, hs, he⟩ := hi h
      exact ⟨s, .tail _ hs, he⟩

theorem exists_stop_le_join (h : s ∈ current :: rest) : ∃ t ∈ join current rest, s.stop ≤ t.stop := by
  fun_induction join current rest generalizing s
  case case1 => exact ⟨s, h, Nat.le_refl _⟩
  case case2 current next rest _ hi =>
    obtain ⟨t, ht, hm⟩ := hi (.head _)
    have hm : max current.stop next.stop ≤ t.stop := hm
    simp only [List.mem_cons] at h
    rcases h with rfl | rfl | h
    case inl => exact ⟨t, ht, by omega⟩
    case inr.inl => exact ⟨t, ht, by omega⟩
    case inr.inr => exact hi (.tail _ h)
  case case3 hi =>
    cases h
    case head => exact ⟨_, .head _, Nat.le_refl _⟩
    case tail h =>
      obtain ⟨t, ht, hs⟩ := hi h
      exact ⟨t, .tail _ ht, hs⟩

end Join

section Collapse

theorem collapse_cases (spans : List Span) : spans = [] ∧ collapse spans = [] ∨
    ∃ first rest, (first :: rest).Pairwise (fun s t => s.le t) ∧ (first :: rest).Perm spans ∧
      collapse spans = join first rest := by
  have hp := spans.mergeSort_perm le
  have hs := sorted_mergeSort spans
  unfold collapse
  split
  case h_1 he => exact .inl ⟨List.nil_perm.mp (he ▸ hp), rfl⟩
  case h_2 first rest he =>
    rw [he] at hp hs
    exact .inr ⟨first, rest, hs, hp, rfl⟩

theorem leads_perm (h : spans.Perm spans') : Leads spans f ↔ Leads spans' f := by
  simp only [Leads, h.mem_iff]

theorem covers_collapse (spans : List Span) (o : Nat) :
    (∃ t ∈ collapse spans, t.Covers o) ↔ ∃ s ∈ spans, s.Covers o := by
  rcases collapse_cases spans with ⟨rfl, hc⟩ | ⟨first, rest, hs, hp, hc⟩
  case inl => simp [hc]
  case inr =>
    rw [hc, covers_join (hs.imp fullStart_le_of_le)]
    simp only [hp.mem_iff]

theorem exists_mem_collapse_iff {P : Nat → Nat → Prop} (spans : List Span) :
    (∃ t ∈ collapse spans, P t.fullStart t.start) ↔ ∃ f, Leads spans f ∧ P f.fullStart f.start := by
  rcases collapse_cases spans with ⟨rfl, hc⟩ | ⟨first, rest, hs, hp, hc⟩
  case inl => simp [hc, Leads]
  case inr =>
    rw [hc, exists_mem_join_iff (List.pairwise_cons.mp hs).right]
    simp [← leads_perm hp, leads_cons hs, or_and_right, exists_or, and_assoc]

theorem stop_of_mem_collapse (h : t ∈ collapse spans) : ∃ s ∈ spans, t.stop = s.stop := by
  rcases collapse_cases spans with ⟨_, hc⟩ | ⟨first, rest, _, hp, hc⟩
  case inl => simp [hc] at h
  case inr =>
    have ⟨s, hs, he⟩ := stop_of_mem_join (hc ▸ h)
    exact ⟨s, hp.mem_iff.mp hs, he⟩

theorem exists_stop_le_collapse (h : s ∈ spans) : ∃ t ∈ collapse spans, s.stop ≤ t.stop := by
  rcases collapse_cases spans with ⟨rfl, _⟩ | ⟨first, rest, _, hp, hc⟩
  case inl => contradiction
  case inr => exact hc ▸ exists_stop_le_join (hp.mem_iff.mpr h)

theorem pairwise_collapse (spans : List Span) :
    (collapse spans).Pairwise fun s t => s.stop ≤ t.fullStart := by
  let R (s t : Span) : Prop := s.stop ≤ t.fullStart
  have : Trans R R R := ⟨fun {_ t _} h₁ h₂ =>
    h₁.trans <| t.fullStart_le_start.trans <| t.start_le_stop.trans h₂⟩
  exact List.IsChain.pairwise (R := R) (apart_collapse spans)

-- Spans that are apart cover no offset twice.
theorem eq_of_covers (hs : s ∈ collapse spans) (ht : t ∈ collapse spans) (hc : s.Covers o)
    (hc' : t.Covers o) : s = t := by
  let R (s t : Span) : Prop := ¬(s.Covers o ∧ t.Covers o)
  have : Std.Symm R := ⟨fun _ _ h h' => h h'.symm⟩
  have hp : (collapse spans).Pairwise R := by
    refine (pairwise_collapse spans).imp fun h => ?_
    simp only [R, Covers]
    omega
  by_contra hn
  exact hp.forall hs ht hn ⟨hc, hc'⟩

end Collapse

section Strict

-- The span with another end, unless that is before its start.
def withStop? (s : Span) (stop : Nat) : Option Span :=
  if h : s.start ≤ stop then some ⟨s.fullStart, s.start, stop, s.fullStart_le_start, h⟩ else none

-- Joining that has no result if a span is given an end before its start.
def join? (current : Span) : List Span → Option (List Span)
  | [] => some [current]
  | next :: rest =>
    if next.fullStart < current.stop then do
      join? (← current.withStop? (max current.stop next.stop)) rest
    else (current :: ·) <$> join? next rest

def collapse? (spans : List Span) : Option (List Span) :=
  match spans.mergeSort le with
  | [] => some []
  | first :: rest => join? first rest

theorem withStop?_max (s : Span) (stop : Nat) :
    s.withStop? (max s.stop stop) = some (s.extend stop) := by
  have hs : s.start ≤ max s.stop stop := Nat.le_trans s.start_le_stop (Nat.le_max_left ..)
  rw [withStop?, dif_pos hs, extend]

theorem join?_eq (current : Span) (spans : List Span) :
    join? current spans = some (join current spans) := by
  fun_induction join current spans
  case case1 => rfl
  case case2 hn hi => simp [join?, hn, withStop?_max, hi]
  case case3 hn hi => simp [join?, hn, hi]

theorem collapse?_eq (spans : List Span) : collapse? spans = some (collapse spans) := by
  unfold collapse? collapse
  cases spans.mergeSort le
  case nil => rfl
  case cons => exact join?_eq ..

end Strict

-- Spans that take the place of others:
-- 1. they are spans, which do not begin after they end
-- 2. each ends before what leads up to the next one begins
-- 3. with what leads up to them, they cover what the others cover, no more and no less
-- 4. each begins like one of the others and ends like one of the others
structure Replaces (spans out : List Span) : Prop where
  valid  : ∀ t ∈ out, t.fullStart ≤ t.start ∧ t.start ≤ t.stop
  apart  : out.IsChain fun s t => s.stop ≤ t.fullStart
  covers : ∀ o, (∃ t ∈ out, t.Covers o) ↔ ∃ s ∈ spans, s.Covers o
  ends   : ∀ t ∈ out, (∃ s ∈ spans, t.fullStart = s.fullStart ∧ t.start = s.start) ∧
    ∃ s ∈ spans, t.stop = s.stop

theorem collapse_replaces (spans : List Span) :
    collapse? spans = some (collapse spans) ∧ Replaces spans (collapse spans) := by
  refine ⟨collapse?_eq spans, ?_, apart_collapse spans, covers_collapse spans, fun t ht => ⟨?_, ?_⟩⟩
  case refine_1 => exact fun t _ => ⟨t.fullStart_le_start, t.start_le_stop⟩
  case refine_2 =>
    have ⟨f, hf, h⟩ := (exists_mem_collapse_iff (P := (t.fullStart = · ∧ t.start = ·)) spans).mp
      ⟨t, ht, rfl, rfl⟩
    exact ⟨f, hf.left, h⟩
  case refine_3 => exact stop_of_mem_collapse ht

-- Of what the spans cover, the code that is left out is what leads up to the first of those that grow
-- together.
theorem contains_collapse_iff (spans : List Span) (o : Nat) :
    (∃ t ∈ collapse spans, t.contains o) ↔
      (∃ s ∈ spans, s.Covers o) ∧ ¬∃ f, Leads spans f ∧ f.fullStart ≤ o ∧ o < f.start := by
  rw [← covers_collapse, ← exists_mem_collapse_iff (P := (· ≤ o ∧ o < ·))]
  constructor
  case mp =>
    rintro ⟨t, ht, hc⟩
    have ⟨hc, hn⟩ := contains_iff_covers.mp hc
    refine ⟨⟨t, ht, hc⟩, fun ⟨t', ht', hl⟩ => hn ?_⟩
    have hc' : t'.Covers o := ⟨hl.left, Nat.lt_of_lt_of_le hl.right t'.start_le_stop⟩
    exact eq_of_covers ht ht' hc hc' ▸ hl
  case mpr =>
    rintro ⟨⟨t, ht, hc⟩, hn⟩
    exact ⟨t, ht, contains_iff_covers.mpr ⟨hc, fun hl => hn ⟨t, ht, hl⟩⟩⟩

-- The second span lies in what leads up to the first, before its code.
def interleaved : List Span :=
  [⟨5, 7, 8, by decide, by decide⟩, ⟨6, 6, 7, by decide, by decide⟩]

theorem interleaved_lost : (∃ s ∈ interleaved, s.contains 6) ∧
    ¬∃ t ∈ collapse interleaved, t.contains 6 := by
  have hc : collapse interleaved = [⟨5, 7, 8, by decide, by decide⟩] := by
    simp [collapse, interleaved, List.mergeSort, List.MergeSort.Internal.splitInTwo, le, join, extend]
  rw [hc]
  decide

end DeadCode.Span
