import DeadCode.Worklist
import Mathlib.Data.Finset.Card
import Mathlib.Data.List.Chain
import Mathlib.Data.Set.Insert

namespace DeadCode.Worklist

variable {α σ : Type} {next : α → List α}

-- What can be found from `roots` through items that are not blocked. Neither the first nor the last
-- item of the way may be blocked.
inductive Found (next : α → List α) (blocked : Set α) (roots : List α) : α → Prop
  | root : x ∈ roots → x ∉ blocked → Found next blocked roots x
  | step : Found next blocked roots x → y ∈ next x → y ∉ blocked → Found next blocked roots y

namespace Found

variable {blocked : Set α} {roots : List α} {x y : α}

theorem not_blocked : Found next blocked roots x → x ∉ blocked
  | root _ h | step _ _ h => h

theorem mono {next' : α → List α} (hn : ∀ x, next x ⊆ next' x) (h : Found next blocked roots x) :
    Found next' blocked roots x := by
  induction h
  case root hm hb => exact .root hm hb
  case step hy hb hi => exact .step hi (hn _ hy) hb

theorem not_nil : ¬Found next blocked [] x := by
  intro h
  induction h
  case root h _ => exact List.not_mem_nil h
  case step hi => exact hi

theorem cons_blocked (h : y ∈ blocked) :
    Found next blocked (y :: roots) x ↔ Found next blocked roots x := by
  constructor <;> intro hf <;> induction hf
  case mp.root hm hb =>
    cases hm
    case head => contradiction
    case tail hm => exact .root hm hb
  case mpr.root hm hb => exact .root (.tail _ hm) hb
  all_goals exact .step ‹_› ‹_› ‹_›

-- Once an item is noted, it need not be found again: what lies behind it can be put on the worklist
-- instead.
theorem cons_expand (h : y ∉ blocked) :
    Found next blocked (y :: roots) x ↔
      x = y ∨ Found next (insert y blocked) ((next y).reverse ++ roots) x := by
  constructor
  case mp =>
    intro hf
    induction hf
    case root x hm hb =>
      by_cases he : x = y
      case pos => exact .inl he
      case neg => exact .inr <| .root (by simp_all) (by simp [he, hb])
    case step x z _ hz hb hi =>
      by_cases he : z = y
      case pos => exact .inl he
      case neg =>
        have hz' : z ∉ insert y blocked := by simp [he, hb]
        cases hi
        case inl hx => exact .inr <| .root (by simp_all) hz'
        case inr hx => exact .inr <| .step hx hz hz'
  case mpr =>
    intro hf
    cases hf
    case inl he => exact .root (he ▸ .head _) (he ▸ h)
    case inr hf =>
      induction hf
      case root x hm hb =>
        simp only [List.mem_append, List.mem_reverse, Set.mem_insert_iff, not_or] at hm hb
        cases hm
        case inl hm => exact .step (.root (.head _) h) hm hb.right
        case inr hm => exact .root (.tail _ hm) hb.right
      case step hz hb hi =>
        simp only [Set.mem_insert_iff, not_or] at hb
        exact .step hi hz hb.right

end Found

-- An item is found if and only if a way leads there along which nothing is blocked.
theorem found_iff_exists_path {blocked : Set α} : Found next blocked [root] x ↔ ∃ path : List α,
    path.head? = some root ∧ path.getLast? = some x ∧ path.IsChain (fun y z => z ∈ next y) ∧
    ∀ y ∈ path, y ∉ blocked := by
  constructor
  case mp =>
    intro hf
    induction hf
    case root hm hb =>
      cases List.mem_singleton.mp hm
      exact ⟨[root], by simp [hb]⟩
    case step x y _ hy hb hi =>
      have ⟨path, hh, hl, hc, ha⟩ := hi
      refine ⟨path ++ [y], by simp [hh], by simp, ?_, ?_⟩
      · exact List.isChain_append.mpr ⟨hc, by simp, by simp [hl, hy]⟩
      · simpa [or_imp, forall_and, hb] using ha
  case mpr =>
    intro ⟨path, hh, hl, hc, ha⟩
    -- The last item of a way is found because the one before it is.
    induction path using List.reverseRecOn generalizing x
    case nil => contradiction
    case append_singleton path y hi =>
      have ⟨hc, _, hs⟩ := List.isChain_append.mp hc
      have hy : y ∉ blocked := ha y (by simp)
      cases List.getLast?_concat.symm.trans hl
      cases hz : path.getLast?
      case none =>
        have hp : path = [] := List.getLast?_eq_none_iff.mp hz
        subst hp
        exact .root (by simpa using hh) hy
      case some z =>
        have hh' : path.head? = some root := by
          cases path
          case nil => contradiction
          case cons => simpa using hh
        have hf := hi hh' hz hc fun x hx => ha x (by simp [hx])
        exact hf.step (hs z hz y rfl) hy

-- What every visit preserves, the whole walk preserves.
theorem run_preserves {visit : σ → α → σ × Bool} {P : σ → Prop} {s t : σ}
    (hv : ∀ s x, P s → P (visit s x).1) (hs : P s) (h : run next visit budget work s = some t) :
    P t := by
  fun_induction run next visit budget work s
  case case1 =>
    cases h
    exact hs
  case case2 s x _ t he hi => exact hi (by simpa [he] using hv s x hs) h
  case case3 => contradiction
  case case4 s x _ t he _ hi => exact hi (by simpa [he] using hv s x hs) h

-- A walk that ends within its budget would take the same course with a larger one.
theorem run_of_le {visit : σ → α → σ × Bool} {budget : Nat} (hb : budget ≤ budget')
    (h : run next visit budget work s = some t) : run next visit budget' work s = some t := by
  fun_induction run next visit budget work s generalizing budget'
  case case1 =>
    rw [run]
    exact h
  case case2 hv hi =>
    rw [run, hv]
    exact hi hb h
  case case3 => contradiction
  case case4 hv budget hi =>
    obtain _ | budget' := budget'
    · contradiction
    · rw [run, hv]
      exact hi (Nat.le_of_succ_le_succ hb) h

-- A visitor that keeps more in its state, and answers as another one does, leads to the same course.
theorem run_map {visit : σ → α → σ × Bool} {visit' : τ → α → τ × Bool} {s : σ} (f : σ → τ)
    (hv : ∀ s x, visit' (f s) x = (f (visit s x).1, (visit s x).2)) :
    run next visit' budget work (f s) = (run next visit budget work s).map f := by
  fun_induction run next visit budget work s
  case case1 => rw [run, Option.map_some]
  case case2 he hi => rw [run, hv, he, ← hi]
  case case3 he => rw [run, hv, he, Option.map_none]
  case case4 he _ hi => rw [run, hv, he, ← hi]

-- A visitor that goes on from an item exactly if the item is new to it, and then takes note of it.
structure Remembers (visit : σ → α → σ × Bool) (seen : σ → Set α) : Prop where
  stops  : x ∈ seen s → visit s x = (s, false)
  goesOn : x ∉ seen s → (visit s x).2 = true
  learns : x ∉ seen s → seen (visit s x).1 = insert x (seen s)

namespace Remembers

variable {visit : σ → α → σ × Bool} {seen : σ → Set α} {budget : Nat} {work : List α} {s t : σ} {x : α}

theorem of_false (r : Remembers visit seen) (h : visit s x = (t, false)) : x ∈ seen s ∧ t = s := by
  by_cases hx : x ∈ seen s
  case pos =>
    have := r.stops hx
    simp_all
  case neg =>
    have := r.goesOn hx
    simp_all

theorem of_true (r : Remembers visit seen) (h : visit s x = (t, true)) :
    x ∉ seen s ∧ seen t = insert x (seen s) := by
  by_cases hx : x ∈ seen s
  case pos => simp [r.stops hx] at h
  case neg => exact ⟨hx, by simpa [h] using r.learns hx⟩

theorem seen_run (r : Remembers visit seen) (h : run next visit budget work s = some t) :
    seen t = seen s ∪ { x | Found next (seen s) work x } := by
  fun_induction run next visit budget work s
  case case1 =>
    cases h
    simp [Found.not_nil]
  case case2 hv hi =>
    have ⟨hx, he⟩ := r.of_false hv
    subst he
    simp only [Found.cons_blocked hx]
    exact hi h
  case case3 => contradiction
  case case4 hv _ hi =>
    have ⟨hx, hs⟩ := r.of_true hv
    rw [hi h, hs]
    ext
    simp only [Found.cons_expand hx, Set.mem_union, Set.mem_insert_iff, Set.mem_ofPred_eq]
    tauto

open Classical in
-- An item is expanded at most once, so a budget for all items that are new and can come up at all is
-- enough.
theorem run_isSome (r : Remembers visit seen) (items : Finset α)
    (hn : ∀ x ∈ items, ∀ y ∈ next x, y ∈ items) (hw : ∀ x ∈ work, x ∈ items)
    (hb : (items.filter (· ∉ seen s)).card ≤ budget) : (run next visit budget work s).isSome := by
  fun_induction run next visit budget work s
  case case1 => rfl
  case case2 hv hi =>
    have ⟨_, he⟩ := r.of_false hv
    exact hi (fun x hx => hw x (.tail _ hx)) (he ▸ hb)
  case case3 s item _ _ hv =>
    have ⟨hx, _⟩ := r.of_true hv
    have hm : item ∈ items.filter (· ∉ seen s) := Finset.mem_filter.mpr ⟨hw item (.head _), hx⟩
    exact absurd (Finset.card_pos.mpr ⟨_, hm⟩) (by omega)
  case case4 s item rest t hv budget hi =>
    have ⟨hx, hs⟩ := r.of_true hv
    have hm : item ∈ items.filter (· ∉ seen s) := Finset.mem_filter.mpr ⟨hw item (.head _), hx⟩
    apply hi
    case hw =>
      intro x hm
      simp only [List.mem_append, List.mem_reverse] at hm
      cases hm
      case inl hm => exact hn item (hw item (.head _)) x hm
      case inr hm => exact hw x (.tail _ hm)
    case hb =>
      have he : items.filter (· ∉ seen t) = (items.filter (· ∉ seen s)).erase item := by
        ext x
        simp [hs, and_left_comm]
      rw [he, Finset.card_erase_of_mem hm]
      omega

end Remembers

end DeadCode.Worklist
