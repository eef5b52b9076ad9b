import DeadCode.Proofs.Fix.Effect
import Mathlib.Algebra.GroupWithZero.Nat
import Mathlib.Data.List.Induction

namespace DeadCode

variable {t u : FileTree} {s : Settings} {x : FilePlan} {log : Log} {plan done todo : Plan} {st : FixState}
variable {e : Effect}

-- Why a computation has stopped, if it has.
def failure? : Except ε α → Option ε
  | .ok _ => none
  | .error e => some e

@[simp]
theorem failure?_ok (a : α) : failure? (.ok a : Except ε α) = none :=
  rfl

@[simp]
theorem failure?_error (e : ε) : failure? (.error e : Except ε α) = some e :=
  rfl

namespace Plan

-- What there is to be said of planned files once they have been carried out.
def account (plan : Plan) (s : Settings) (t : FileTree) : Fix where
  edited       := (plan.filter fun x => (x.effect? s t).any (·.after.isSome)).map FilePlan.filename
  removed      := (plan.filter fun x => (x.effect? s t).any (·.after.isNone)).map FilePlan.filename
  linesRemoved := ((plan.effects s t).map Effect.linesRemoved).sum
  dryRun       := s.dryRun
  errors       := plan.filterMap fun x => (failure? (x.edit t s.root s.keepLines)).map Failure.message

theorem account_overwrite (he : x.effect? s t = some e) (ha : e.after = some text) :
    (plan ++ [x]).account s t = (plan.account s t).recordEdit (e.edit x s) := by
  simp [account, effects, Fix.recordEdit, Effect.edit, FileEdit.linesRemoved, Effect.linesRemoved, he, ha,
    FilePlan.edit_of_effect? he]

theorem account_delete (he : x.effect? s t = some e) (ha : e.after = none) :
    (plan ++ [x]).account s t = (plan.account s t).recordRemoval (e.edit x s) := by
  simp [account, effects, Fix.recordRemoval, Effect.edit, FileEdit.linesRemoved, Effect.linesRemoved, he, ha,
    FilePlan.edit_of_effect? he]

theorem account_failure {failure : Failure} (he : x.effect? s t = none)
    (hx : x.edit t s.root s.keepLines = .error failure) :
    (plan ++ [x]).account s t = (plan.account s t).recordError failure.message := by
  simp [account, effects, Fix.recordError, he, hx]

-- The planned files that a run carries out, from the tree `u` on. A file that is gone is not removed again.
def carriedOut (s : Settings) (t u : FileTree) : Plan → Plan
  | [] => []
  | x :: rest =>
    if (x.effect? s t).any (·.misses u) then carriedOut s t u rest
    else x :: carriedOut s t ((x.effect? s t).elim u (Effect.apply s.dryRun u)) rest

end Plan

namespace FixState

-- What holds of a fix under way that has carried out the given files.
structure Follows (s : Settings) (t : FileTree) (done : Plan) (st : FixState) : Prop where
  shape   : t.SameShape st.tree
  account : st.fix = done.account s t

namespace Follows

variable (h : st.Follows s t done)
include h

theorem dryRun : st.fix.dryRun = s.dryRun := by
  rw [h.account]
  rfl

theorem failure (log : Log) (he : x.effect? s t = none) :
    (st.step log (x.edit t s.root s.keepLines)).tree = st.tree ∧
      (st.step log (x.edit t s.root s.keepLines)).Follows s t (done ++ [x]) := by
  have ⟨failure, _, hx⟩ := FilePlan.edit_of_failure he
  rw [hx]
  exact ⟨rfl, h.shape, by rw [Plan.account_failure he hx, ← h.account]; rfl⟩

variable (hl : t.Linkless) (he : x.effect? s t = some e)
include hl he

theorem overwrite (log : Log) (ha : e.after = some text) : ∃ events,
    st.step log (.ok (e.edit x s)) = ⟨e.apply s.dryRun st.tree, (done ++ [x]).account s t, events⟩ := by
  have ⟨content, hf⟩ := FilePlan.locate_of_effect? he
  have hs : st.tree.save (Path.join s.root x.filename) (String.ofList text) s.dryRun =
      .ok (e.apply s.dryRun st.tree) := by
    cases hd : s.dryRun
    case true => rfl
    case false =>
      have hw : e.apply false st.tree = st.tree.insert e.place (.file (String.ofList text).toUTF8) := by
        simp [Effect.apply, Effect.entry?, ha]
      rw [hw]
      exact mapError_ok_iff.mpr (h.shape.write_file hl hf _)
  rw [Plan.account_overwrite he ha, ← h.account]
  simp only [step, FixState.overwrite, Effect.edit, ha, Option.elim, h.dryRun, hs, logged]
  exact ⟨_, rfl⟩

theorem delete (log : Log) (ha : e.after = none) : ∃ events, st.step log (.ok (e.edit x s)) =
    ⟨e.apply s.dryRun st.tree, (if e.misses st.tree then done else done ++ [x]).account s t, events⟩ := by
  have ⟨content, hf⟩ := FilePlan.locate_of_effect? he
  rcases h.shape.get?_of_shape (FilePlan.shape_of_effect? he) with hg | ⟨content, hg⟩
  case inl =>
    have hm : e.misses st.tree := Effect.misses_iff.mpr ⟨ha, hg⟩
    rw [if_pos hm, Effect.apply_of_misses hm, ← h.account]
    simp only [step, FixState.delete, Effect.edit, ha, Option.elim, h.shape.remove_vacant hl hf hg]
    exact ⟨_, rfl⟩
  case inr =>
    have hm : ¬e.misses st.tree := by simp [Effect.misses, hg]
    have hr : e.apply s.dryRun st.tree = if s.dryRun then st.tree else st.tree.erase e.place := by
      simp [Effect.apply, Effect.entry?, ha]
    rw [if_neg hm, Plan.account_delete he ha, ← h.account, hr]
    simp only [step, FixState.delete, Effect.edit, ha, Option.elim, h.dryRun,
      h.shape.remove_file hl hf hg, logged]
    exact ⟨_, rfl⟩

theorem effect (log : Log) : (st.step log (x.edit t s.root s.keepLines)).tree = e.apply s.dryRun st.tree ∧
    (st.step log (x.edit t s.root s.keepLines)).Follows s t
      (if e.misses st.tree then done else done ++ [x]) := by
  have hs : t.SameShape (e.apply s.dryRun st.tree) :=
    h.shape.trans <| e.sameShape_apply (h.shape.shape ▸ FilePlan.shape_of_effect? he) _
  rw [FilePlan.edit_of_effect? he]
  cases ha : e.after
  case none =>
    have ⟨events, he⟩ := h.delete hl he log ha
    rw [he]
    exact ⟨rfl, hs, rfl⟩
  case some text =>
    have ⟨events, he⟩ := h.overwrite hl he log ha
    rw [he]
    exact ⟨rfl, hs, by simp [Effect.misses, ha]⟩

end Follows

theorem Follows.steps (h : st.Follows s t done) (hl : t.Linkless) (log : Log) (todo : Plan) :
    (st.steps log s t todo).tree = (todo.effects s t).foldl (Effect.apply s.dryRun) st.tree ∧
      (st.steps log s t todo).Follows s t (done ++ todo.carriedOut s t st.tree) := by
  induction todo generalizing st done
  case nil =>
    rw [Plan.carriedOut, List.append_nil]
    exact ⟨rfl, h⟩
  case cons x rest hi =>
    change ((st.step log _).steps log s t rest).tree = _ ∧ ((st.step log _).steps log s t rest).Follows _ _ _
    cases he : x.effect? s t
    case none =>
      have ⟨ht, h⟩ := h.failure log he
      simpa [Plan.effects, Plan.carriedOut, he, ht] using hi h
    case some e =>
      have ⟨ht, h⟩ := h.effect hl he log
      have hr := hi h
      rw [ht] at hr
      cases hm : e.misses st.tree
      case false => simpa [Plan.effects, Plan.carriedOut, he, hm] using hr
      case true =>
        rw [Effect.apply_of_misses hm] at hr
        simpa [Plan.effects, Plan.carriedOut, he, hm, Effect.apply_of_misses hm] using hr

end FixState

namespace Plan

theorem fix_linkless (hl : t.Linkless) (plan : Plan) (s : Settings) (log : Log) :
    (plan.fix s log t).tree = (plan.effects s t).foldl (Effect.apply s.dryRun) t ∧
      (plan.fix s log t).fix = (plan.carriedOut s t t).account s t := by
  have ⟨before, after, he⟩ := plan.fix_eq_steps s log t
  have hs : FixState.Follows s t [] ⟨t, { dryRun := s.dryRun }, before⟩ := ⟨.refl t, rfl⟩
  have ⟨ht, hf⟩ := hs.steps hl log plan
  rw [he]
  exact ⟨ht, hf.account⟩

theorem carriedOut_sublist (s : Settings) (t u : FileTree) (todo : Plan) :
    (todo.carriedOut s t u).Sublist todo := by
  induction todo generalizing u
  case nil => exact .slnil
  case cons x rest hi =>
    rw [carriedOut]
    split
    case isTrue => exact (hi u).cons x
    case isFalse => exact (hi _).cons_cons x

theorem carriedOut_of_dryRun (hd : s.dryRun = true) (t : FileTree) (todo : Plan) :
    todo.carriedOut s t t = todo := by
  induction todo
  case nil => rfl
  case cons x rest hi =>
    cases he : x.effect? s t
    case none => simp [carriedOut, he, hi]
    case some e =>
      have ⟨_, hg⟩ := FilePlan.get?_of_effect? he
      simp [carriedOut, he, Effect.misses, hg, Effect.apply, hd, hi]

-- Every planned file shows up in the account once.
theorem length_account (plan : Plan) (s : Settings) (t : FileTree) :
    (plan.account s t).edited.length + (plan.account s t).removed.length +
      (plan.account s t).errors.length = plan.length := by
  induction plan using List.reverseRecOn
  case nil => rfl
  case append_singleton rest x hi =>
    rw [List.length_append, List.length_singleton, ← hi]
    cases he : x.effect? s t
    case none =>
      have ⟨failure, _, hx⟩ := FilePlan.edit_of_failure he
      rw [account_failure he hx]
      simp [Fix.recordError, Nat.add_assoc]
    case some e =>
      cases ha : e.after
      case none =>
        rw [account_delete he ha]
        simp only [Fix.recordRemoval, List.length_append, List.length_singleton]
        omega
      case some text =>
        rw [account_overwrite he ha]
        simp only [Fix.recordEdit, List.length_append, List.length_singleton]
        omega

end Plan

end DeadCode
