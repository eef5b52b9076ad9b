import DeadCode.Proofs.Fix.Run

namespace DeadCode

variable {t u : FileTree} {s : Settings} {plan todo : Plan} {e : Effect}

namespace Effect

-- The next that happens at a place is that the file goes.
def nextDeletes (p : Place) (effects : List Effect) : Bool :=
  (effects.find? (·.place = p)).any (·.after.isNone)

-- A file goes, and the next that is to happen to it is that it goes.
def deletesTwice : List Effect → Bool
  | [] => false
  | e :: rest => e.after.isNone && nextDeletes e.place rest || deletesTwice rest

theorem nextDeletes_cons (p : Place) (e : Effect) (rest : List Effect) :
    nextDeletes p (e :: rest) = if e.place = p then e.after.isNone else nextDeletes p rest := by
  rw [nextDeletes, List.find?_cons]
  split <;> simp_all [nextDeletes]

theorem deletesTwice_apply (hn : e.place ≠ []) (hm : ¬e.misses u) (rest : List Effect) :
    (deletesTwice (e :: rest) = false ∧ ∀ p, u.get? p = none → nextDeletes p (e :: rest) = false) ↔
      deletesTwice rest = false ∧ ∀ p, (e.apply false u).get? p = none → nextDeletes p rest = false := by
  have hs := e.get?_apply_self hn u
  have ho {p} (hp : p ≠ e.place) := e.get?_apply_of_ne hp false u
  constructor
  case mp =>
    rintro ⟨ht, hf⟩
    obtain ⟨hd, ht⟩ : (e.after.isNone → nextDeletes e.place rest = false) ∧ deletesTwice rest = false := by
      simpa [deletesTwice] using ht
    refine ⟨ht, fun p hp => ?_⟩
    by_cases he : p = e.place
    case pos =>
      rw [he, hs, entry?, Option.map_eq_none_iff] at hp
      exact he ▸ hd (Option.isNone_iff_eq_none.mpr hp)
    case neg =>
      rw [← hf p (ho he ▸ hp), nextDeletes_cons, if_neg (Ne.symm he)]
  case mpr =>
    rintro ⟨ht, hf⟩
    constructor
    case left =>
      cases ha : e.after
      case none => simp [deletesTwice, ht, hf e.place (by simp [hs, entry?, ha])]
      case some => simp [deletesTwice, ht, ha]
    case right =>
      intro p hp
      rw [nextDeletes_cons]
      split
      case isTrue he =>
        subst he
        simpa [misses, hp, Option.isSome_iff_ne_none] using hm
      case isFalse he => exact hf p (ho (Ne.symm he) ▸ hp)

end Effect

namespace Plan

theorem carriedOut_eq_self_iff (hd : s.dryRun = false) : todo.carriedOut s t u = todo ↔
    Effect.deletesTwice (todo.effects s t) = false ∧
      ∀ p, u.get? p = none → Effect.nextDeletes p (todo.effects s t) = false := by
  induction todo generalizing u
  case nil => simp [carriedOut, effects, Effect.deletesTwice, Effect.nextDeletes]
  case cons x rest hi =>
    cases he : x.effect? s t
    case none => simpa [carriedOut, effects, he] using hi
    case some e =>
      have hx : effects (x :: rest) s t = e :: effects rest s t := by simp [effects, he]
      rw [hx]
      by_cases hm : e.misses u
      case pos =>
        obtain ⟨ha, hg⟩ := Effect.misses_iff.mp hm
        have hl : carriedOut s t u (x :: rest) ≠ x :: rest := by
          have hs := (carriedOut_sublist s t u rest).length_le
          have hc : carriedOut s t u (x :: rest) = carriedOut s t u rest := by
            simp [carriedOut, he, hm]
          rw [hc]
          exact fun h => Nat.not_succ_le_self _ (h ▸ hs)
        refine iff_of_false hl fun h => ?_
        simpa [Effect.nextDeletes_cons, ha] using h.right e.place hg
      case neg =>
        rw [Effect.deletesTwice_apply (FilePlan.place_ne_nil he) hm, ← hi]
        simp [carriedOut, he, hm, hd]

-- A run carries everything out, unless there is a file that is to go twice.
theorem carriedOut_iff (hd : s.dryRun = false) (t : FileTree) :
    plan.carriedOut s t t = plan ↔ Effect.deletesTwice (plan.effects s t) = false := by
  refine (carriedOut_eq_self_iff hd).trans (and_iff_left fun p hp => ?_)
  cases hf : (plan.effects s t).find? (·.place = p)
  case none => simp [Effect.nextDeletes, hf]
  case some e =>
    have ⟨x, _, hx⟩ := List.mem_filterMap.mp (List.mem_of_find?_eq_some hf)
    have ⟨_, hg⟩ := FilePlan.get?_of_effect? hx
    have he : e.place = p := by simpa using List.find?_some hf
    rw [he, hp] at hg
    cases hg

end Plan

end DeadCode
