import DeadCode.Edit.Collapse
import Mathlib.Data.List.Chain

namespace DeadCode.Span

-- Each span ends before what leads up to the next one begins.
abbrev Apart (spans : List Span) : Prop :=
  spans.IsChain fun s t => s.stop ≤ t.fullStart

-- The bytes from `a` to `b` are no part of a span, nor of what leads up to it.
def Avoids (a b : Nat) (s : Span) : Prop :=
  s.stop ≤ a ∨ b ≤ s.fullStart

variable {a b : Nat} {s t current : Span} {spans : List Span}

theorem head_join (current : Span) (spans : List Span) :
    ∃ s rest, join current spans = s :: rest ∧ s.fullStart = current.fullStart := by
  fun_induction join current spans
  case case1 => exact ⟨_, [], rfl, rfl⟩
  case case2 hi => exact hi
  case case3 => exact ⟨_, _, rfl, rfl⟩

theorem apart_join : Apart (join current spans) := by
  fun_induction join current spans
  case case1 => simp
  case case2 hi => exact hi
  case case3 current next rest hn hi =>
    have ⟨s, others, hj, hs⟩ := head_join next rest
    rw [hj] at hi ⊢
    exact List.IsChain.cons_cons (by omega) hi

theorem apart_collapse (spans : List Span) : Apart (collapse spans) := by
  unfold collapse
  split
  case h_1 => exact List.IsChain.nil
  case h_2 => exact apart_join

-- Whatever begins before a span ends that lies before `a` lies before `a` itself.
theorem Avoids.extend (hs : s.Avoids a b) (ht : t.Avoids a b) (hab : a < b)
    (h : t.fullStart < s.stop) : (s.extend t.stop).Avoids a b := by
  simp only [Avoids, Span.extend] at *
  omega

theorem avoids_join (hab : a < b) (hc : current.Avoids a b) (hs : ∀ s ∈ spans, s.Avoids a b) :
    ∀ s ∈ join current spans, s.Avoids a b := by
  fun_induction join current spans
  case case1 => simpa using hc
  case case2 hn hi =>
    exact hi (hc.extend (hs _ (.head _)) hab hn) fun s h => hs s (.tail _ h)
  case case3 hi =>
    simp only [List.mem_cons, forall_eq_or_imp] at hs ⊢
    exact ⟨hc, hi hs.left hs.right⟩

theorem avoids_collapse (hab : a < b) (hs : ∀ s ∈ spans, s.Avoids a b) :
    ∀ s ∈ collapse spans, s.Avoids a b := by
  unfold collapse
  split
  case h_1 => simp
  case h_2 first rest he =>
    have hs : ∀ s ∈ first :: rest, s.Avoids a b := fun s h => hs s (by simpa [← he] using h)
    simp only [List.mem_cons, forall_eq_or_imp] at hs
    exact avoids_join hab hs.left hs.right

end DeadCode.Span
