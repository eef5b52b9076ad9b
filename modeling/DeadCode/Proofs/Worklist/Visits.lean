import DeadCode.Proofs.Worklist
import Mathlib.Algebra.BigOperators.Group.Finset.Basic
import Mathlib.Algebra.GroupWithZero.Nat
import Mathlib.Algebra.Order.BigOperators.Group.Finset

namespace DeadCode.Worklist

variable {α σ : Type}

-- The items from which a walk has gone on.
def expanded (history : List (α × Bool)) : List α :=
  (history.filter Prod.snd).map Prod.fst

@[simp]
theorem expanded_stop (history : List (α × Bool)) (x : α) :
    expanded (history ++ [(x, false)]) = expanded history := by
  simp [expanded]

@[simp]
theorem expanded_goOn (history : List (α × Bool)) (x : α) :
    expanded (history ++ [(x, true)]) = expanded history ++ [x] := by
  simp [expanded]

-- The course of a walk up to some point: the visits so far, with the answers of the visitor, what is on
-- the worklist now, and the state that the visitor is in.
inductive Visits (next : α → List α) (visit : σ → α → σ × Bool) (roots : List α) (init : σ) :
    List (α × Bool) → List α → σ → Prop
  | start : Visits next visit roots init [] roots init
  | stop  : Visits next visit roots init history (x :: work) s → visit s x = (t, false) →
    Visits next visit roots init (history ++ [(x, false)]) work t
  | goOn  : Visits next visit roots init history (x :: work) s → visit s x = (t, true) →
    Visits next visit roots init (history ++ [(x, true)]) ((next x).reverse ++ work) t

-- A visitor that writes down all its visits and otherwise does as the given one.
def recorded (visit : σ → α → σ × Bool) : σ × List (α × Bool) → α → (σ × List (α × Bool)) × Bool
  | (s, history), x => (((visit s x).1, history ++ [(x, (visit s x).2)]), (visit s x).2)

variable {next : α → List α} {visit : σ → α → σ × Bool} {roots work : List α} {init s : σ}
  {history before after : List (α × Bool)} {root x y : α}

namespace Visits

theorem recorded (h : Visits next visit roots init history work s) :
    Visits next (recorded visit) roots (init, []) history work (s, history) := by
  induction h
  case start => exact .start
  case stop hv hi => exact hi.stop (by simp [Worklist.recorded, hv])
  case goOn hv hi => exact hi.goOn (by simp [Worklist.recorded, hv])

-- From any point of its course, the walk goes on as if it began there.
theorem run_eq (h : Visits next visit roots init history work s) (budget : Nat) :
    run next visit (budget + (expanded history).length) roots init = run next visit budget work s := by
  induction h generalizing budget
  case start => rfl
  case stop hv hi =>
    rw [expanded_stop, hi, run, hv]
  case goOn hv hi =>
    rw [expanded_goOn, List.length_append, List.length_singleton, Nat.add_comm _ 1, ← Nat.add_assoc, hi,
      run, hv]

theorem run_of_finished (h : Visits next visit roots init history [] s)
    (hb : (expanded history).length ≤ budget) : run next visit budget roots init = some s := by
  have ⟨rest, he⟩ := Nat.exists_eq_add_of_le' hb
  rw [he, h.run_eq, run]

-- What has been put on the worklist has been visited, or it is still there.
theorem length_add_length (h : Visits next visit roots init history work s) :
    history.length + work.length =
      roots.length + ((expanded history).map fun x => (next x).length).sum := by
  induction h
  case start => simp [expanded]
  case stop hi =>
    simp only [expanded_stop, List.length_append, List.length_cons, List.length_nil] at hi ⊢
    omega
  case goOn hi =>
    simp only [expanded_goOn, List.length_append, List.length_cons, List.length_nil, List.length_reverse,
      List.map_append, List.map_cons, List.map_nil, List.sum_append, List.sum_singleton] at hi ⊢
    omega

theorem exists_of_concat (h : Visits next visit roots init (history ++ [(x, b)]) work s) :
    ∃ work t, Visits next visit roots init history (x :: work) t := by
  generalize he : history ++ [(x, b)] = visits at h
  cases h
  case start => simp at he
  all_goals
    have ⟨hh, hx⟩ := List.append_inj' he rfl
    cases hh
    cases hx
    exact ⟨_, _, ‹_›⟩

-- The point of a walk right before one of its visits.
theorem exists_before (h : Visits next visit roots init (before ++ (x, b) :: after) work s) :
    ∃ work t, Visits next visit roots init before (x :: work) t := by
  induction after using List.reverseRecOn generalizing work s
  case nil => exact h.exists_of_concat
  case append_singleton after y hi =>
    have hc : before ++ (x, b) :: (after ++ [y]) = before ++ (x, b) :: after ++ [y] := by simp
    have ⟨_, _, h⟩ := (hc ▸ h).exists_of_concat
    exact hi h

-- Once the root is taken off, all that is on the worklist has been put there by the walk.
theorem origin (h : Visits next visit [root] init history work s) :
    history = [] ∧ work = [root] ∨ ∀ x ∈ work, ∃ y, (y, true) ∈ history ∧ x ∈ next y := by
  induction h
  case start => exact .inl ⟨rfl, rfl⟩
  case stop hi =>
    right
    rcases hi with ⟨_, hw⟩ | hi
    case inl => simp_all
    case inr =>
      intro z hz
      have ⟨y, hy, hz⟩ := hi z (.tail _ hz)
      exact ⟨y, by simp [hy], hz⟩
  case goOn x _ _ _ _ _ hi =>
    right
    intro z hz
    simp only [List.mem_append, List.mem_reverse] at hz
    rcases hz with hz | hz
    case inl => exact ⟨x, by simp, hz⟩
    case inr =>
      rcases hi with ⟨_, hw⟩ | hi
      case inl => simp_all
      case inr =>
        have ⟨y, hy, hz⟩ := hi z (.tail _ hz)
        exact ⟨y, by simp [hy], hz⟩

section

variable {items : Finset α} (hn : ∀ x ∈ items, ∀ y ∈ next x, y ∈ items) (hr : ∀ x ∈ roots, x ∈ items)
include hn hr

-- A walk does not leave a set of items that none of them leads out of.
theorem mem_items (h : Visits next visit roots init history work s) :
    (∀ x ∈ work, x ∈ items) ∧ ∀ x ∈ expanded history, x ∈ items := by
  induction h
  case start => exact ⟨hr, by simp [expanded]⟩
  case stop hi => exact ⟨fun x hx => hi.left x (.tail _ hx), by simpa using hi.right⟩
  case goOn x _ _ _ _ _ hi =>
    have hx := hi.left x (.head _)
    refine ⟨?_, by simpa [or_imp, forall_and, hx] using hi.right⟩
    intro y hy
    simp only [List.mem_append, List.mem_reverse] at hy
    rcases hy with hy | hy
    case inl => exact hn x hx y hy
    case inr => exact hi.left y (.tail _ hy)

theorem length_expanded_le (h : Visits next visit roots init history work s)
    (ho : (expanded history).Nodup) : (expanded history).length ≤ items.card := by
  classical
  rw [← List.toFinset_card_of_nodup ho]
  exact Finset.card_le_card fun x hx => (h.mem_items hn hr).right x (List.mem_toFinset.mp hx)

theorem length_le (h : Visits next visit roots init history work s) (ho : (expanded history).Nodup) :
    history.length ≤ roots.length + ∑ x ∈ items, (next x).length := by
  classical
  have hl := h.length_add_length
  have hs : ((expanded history).map fun x => (next x).length).sum ≤ ∑ x ∈ items, (next x).length := by
    rw [← List.sum_toFinset _ ho]
    exact Finset.sum_le_sum_of_subset fun x hx => (h.mem_items hn hr).right x (List.mem_toFinset.mp hx)
  omega

-- If nothing is expanded twice, the visits are bounded in number, and so there is a last one.
theorem exists_finished
    (once : ∀ {history work s}, Visits next visit roots init history work s → (expanded history).Nodup)
    (h : Visits next visit roots init history work s) :
    ∃ history s, Visits next visit roots init history [] s := by
  induction hm : roots.length + (∑ x ∈ items, (next x).length) - history.length using Nat.strongRecOn
    generalizing history work s
  case ind n hi =>
    cases work
    case nil => exact ⟨_, _, h⟩
    case cons x work =>
      have ⟨answer, work', t, h'⟩ : ∃ answer work' t,
          Visits next visit roots init (history ++ [(x, answer)]) work' t := by
        cases hv : (visit s x).2
        case false => exact ⟨_, _, _, h.stop (Prod.ext rfl hv)⟩
        case true => exact ⟨_, _, _, h.goOn (Prod.ext rfl hv)⟩
      have hl := h'.length_le hn hr (once h')
      simp only [List.length_append, List.length_singleton] at hl
      exact hi _ (by simp; omega) h' rfl

end

end Visits

-- A visitor that goes on only from items that it has not noted yet, and then notes them.
structure Notes (visit : σ → α → σ × Bool) (noted : σ → Set α) : Prop where
  keeps : ∀ s x, noted s ⊆ noted (visit s x).1
  fresh : ∀ {s x}, (visit s x).2 → x ∉ noted s
  adds  : ∀ {s x}, (visit s x).2 → x ∈ noted (visit s x).1

theorem Remembers.notes {seen : σ → Set α} (r : Remembers visit seen) : Notes visit seen where
  keeps s x := by
    by_cases hx : x ∈ seen s
    case pos => simp [r.stops hx]
    case neg => simp [r.learns hx]
  fresh {s x} h hx := by simp [r.stops hx] at h
  adds {s x} h := by
    by_cases hx : x ∈ seen s
    case pos => simp [r.stops hx] at h
    case neg => simp [r.learns hx]

theorem Notes.nodup_expanded {noted : σ → Set α} (n : Notes visit noted)
    (h : Visits next visit roots init history work s) :
    (expanded history).Nodup ∧ ∀ x ∈ expanded history, x ∈ noted s := by
  induction h
  case start => simp [expanded]
  case stop x _ s t _ hv hi =>
    have hk : noted s ⊆ noted t := by simpa [hv] using n.keeps s x
    rw [expanded_stop]
    exact ⟨hi.left, fun y hy => hk (hi.right y hy)⟩
  case goOn x _ s t _ hv hi =>
    have hk : noted s ⊆ noted t := by simpa [hv] using n.keeps s x
    have hf : x ∉ noted s := n.fresh (by rw [hv])
    have ha : x ∈ noted t := by simpa [hv] using n.adds (s := s) (x := x)
    rw [expanded_goOn]
    refine ⟨?_, ?_⟩
    · exact List.concat_eq_append ▸ hi.left.concat fun hx => hf (hi.right x hx)
    · simpa [or_imp, forall_and, ha] using fun y hy => hk (hi.right y hy)

end DeadCode.Worklist
