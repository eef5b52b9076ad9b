import DeadCode.Proofs.Fix.Twice
import Mathlib.Data.List.Nodup

namespace DeadCode

variable {t u : FileTree} {s : Settings} {x y : FilePlan} {plan : Plan}

namespace Effect

variable {e : Effect} {effects : List Effect}

theorem get?_foldl_apply_of_ne (h : ∀ e ∈ effects, e.place ≠ p) (dryRun : Bool) (u : FileTree) :
    (effects.foldl (apply dryRun) u).get? p = u.get? p := by
  induction effects generalizing u
  case nil => rfl
  case cons e rest hi =>
    have ⟨he, hr⟩ := List.forall_mem_cons.mp h
    rw [List.foldl_cons, hi hr, get?_apply_of_ne he.symm]

variable (h : effects.Pairwise fun a b => a.place ≠ b.place)
include h

theorem get?_foldl_apply (hm : e ∈ effects) (hn : e.place ≠ []) (u : FileTree) :
    (effects.foldl (apply false) u).get? e.place = e.entry? := by
  induction effects generalizing u
  case nil => contradiction
  case cons a rest hi =>
    have ⟨ha, hr⟩ := List.pairwise_cons.mp h
    rw [List.foldl_cons]
    rcases List.mem_cons.mp hm with rfl | hm
    case inl => rw [get?_foldl_apply_of_ne (fun b hb => (ha b hb).symm), get?_apply_self hn]
    case inr => exact hi hr hm _

theorem deletesTwice_of_pairwise : deletesTwice effects = false := by
  induction effects
  case nil => rfl
  case cons e rest hi =>
    have ⟨he, hr⟩ := List.pairwise_cons.mp h
    have hf : rest.find? (·.place = e.place) = none := by
      rw [List.find?_eq_none]
      intro a ha
      simpa using (he a ha).symm
    simp [deletesTwice, nextDeletes, hf, hi hr]

end Effect

namespace Plan

-- A message for each planned file that has no effect, and for no other.
theorem errors_account (plan : Plan) (s : Settings) (t : FileTree) :
    List.Forall₂ (fun x message => ∃ failure, x.Fails s t failure ∧ message = failure.message)
      (plan.filter fun x => (x.effect? s t).isNone) (plan.account s t).errors := by
  induction plan
  case nil => exact .nil
  case cons x rest hi =>
    cases he : x.effect? s t
    case none =>
      have ⟨failure, hf, hx⟩ := FilePlan.edit_of_failure he
      have hc : (account (x :: rest) s t).errors = failure.message :: (account rest s t).errors := by
        simp [account, hx]
      rw [List.filter_cons_of_pos (by simp [he]), hc]
      exact .cons ⟨failure, hf, rfl⟩ hi
    case some e => simpa [account, he, FilePlan.edit_of_effect? he] using hi

-- What it means that a plan has been carried out, file by file:
-- 1. a file that is cut holds what is left of its text, and a file that is to go is gone
-- 2. nothing else has changed
-- 3. that goes for the planned files that could not be read or cut, too
-- 4. the files that were cut and those that are gone are listed in their order
-- 5. for each of the others there is a message that says what is wrong with it
-- 6. these are all planned files
-- 7. the lines that are gone are those of the files that have changed
structure Settled (plan : Plan) (s : Settings) (t : FileTree) (st : FixState) : Prop where
  changed : ∀ x ∈ plan, ∀ e, x.effect? s t = some e → st.tree.get? e.place = e.entry?
  frame   : ∀ p, (∀ e ∈ plan.effects s t, e.place ≠ p) → st.tree.get? p = t.get? p
  spared  : ∀ x ∈ plan, x.effect? s t = none → ∀ l,
    t.locate .follow (Path.join s.root x.filename) = .ok l → st.tree.get? l.place = t.get? l.place
  edited  : st.fix.edited =
    (plan.filter fun x => (x.effect? s t).any (·.after.isSome)).map FilePlan.filename
  removed : st.fix.removed =
    (plan.filter fun x => (x.effect? s t).any (·.after.isNone)).map FilePlan.filename
  errors  : List.Forall₂ (fun x message => ∃ failure, x.Fails s t failure ∧ message = failure.message)
    (plan.filter fun x => (x.effect? s t).isNone) st.fix.errors
  lengths : st.fix.edited.length + st.fix.removed.length + st.fix.errors.length = plan.length
  lines   : st.fix.linesRemoved = ((plan.effects s t).map Effect.linesRemoved).sum

section

variable (hl : t.Linkless) (hn : (plan.map FilePlan.filename).Nodup)
variable (hp : ∀ x ∈ plan, Path.Normal x.filename)
include hl hn hp

theorem eq_of_place (hx : x ∈ plan) (hy : y ∈ plan)
    (ha : t.locate .follow (Path.join s.root x.filename) = .ok l)
    (hb : t.locate .follow (Path.join s.root y.filename) = .ok m) (he : l.place = m.place) : x = y :=
  List.inj_on_of_nodup_map hn hx hy (FileTree.name_unique hl (hp x hx) (hp y hy) ha hb he)

theorem pairwise_effects (s : Settings) :
    (plan.effects s t).Pairwise fun a b => a.place ≠ b.place := by
  refine List.pairwise_filterMap.mpr (hn.of_map.imp_of_mem ?_)
  intro x y hx hy hxy a ha b hb he
  have ⟨_, hla⟩ := FilePlan.locate_of_effect? ha
  have ⟨_, hlb⟩ := FilePlan.locate_of_effect? hb
  exact hxy (eq_of_place hl hn hp hx hy hla hlb he)

-- Files that are told apart by their names come to what each of them comes to alone.
theorem fix_settled (hd : s.dryRun = false) (log : Log) : plan.Settled s t (plan.fix s log t) := by
  have hw := pairwise_effects hl hn hp s
  have ⟨ht, hf⟩ := fix_linkless hl plan s log
  rw [(carriedOut_iff hd t).mpr (Effect.deletesTwice_of_pairwise hw)] at hf
  rw [hd] at ht
  have frame (p) (hp : ∀ e ∈ plan.effects s t, e.place ≠ p) : (plan.fix s log t).tree.get? p = t.get? p := by
    rw [ht, Effect.get?_foldl_apply_of_ne hp]
  refine ⟨?changed, frame, ?spared, by rw [hf]; rfl, by rw [hf]; rfl, hf ▸ errors_account plan s t,
    hf ▸ length_account plan s t, by rw [hf]; rfl⟩
  case changed =>
    intro x hx e he
    rw [ht, Effect.get?_foldl_apply hw (List.mem_filterMap.mpr ⟨x, hx, he⟩) (FilePlan.place_ne_nil he)]
  case spared =>
    intro x hx he l hx'
    refine frame l.place fun e hm heq => ?_
    have ⟨y, hy, hye⟩ := List.mem_filterMap.mp hm
    have ⟨_, hy'⟩ := FilePlan.locate_of_effect? hye
    have hxy : y = x := eq_of_place hl hn hp hy hx hy' hx' heq
    rw [hxy, he] at hye
    cases hye

end

end Plan

-- One of the files in a directory is no text.
def FileTree.desk : FileTree where
  current := []
  entries := [
    (["p"], .directory), (["p", "raw.ts"], .file ⟨#[255]⟩), (["p", "cut.ts"], .file "f;\ng;\nh;\n".toUTF8),
    (["p", "old.ts"], .file "f;\n".toUTF8), (["p", "new.ts"], .file "f;\n".toUTF8)]

-- The first and the third file cannot be read.
def Plan.cleanup : Plan := [
  ⟨0, "raw.ts", [0], .delete⟩, ⟨1, "cut.ts", [1], .snip [⟨3, 3, 5, by decide, by decide⟩]⟩,
  ⟨2, "lost.ts", [2], .delete⟩, ⟨3, "old.ts", [3], .delete⟩]

theorem Plan.fix_settled_cleanup : FileTree.desk.Linkless ∧ (cleanup.map FilePlan.filename).Nodup ∧
    (∀ x ∈ cleanup, Path.Normal x.filename) ∧
    cleanup.effects { root := "p" } .desk = [
      ⟨["p", "cut.ts"], "f;\ng;\nh;\n".toList, some "f;\nh;\n".toList⟩,
      ⟨["p", "old.ts"], "f;\n".toList, none⟩] ∧
    cleanup.Settled { root := "p" } .desk (cleanup.fix { root := "p" } ⟨none⟩ .desk) := by
  have hl : FileTree.desk.Linkless := FileTree.linkless_of_entries (by simp [FileTree.desk])
  have hn : (cleanup.map FilePlan.filename).Nodup := by decide
  have hp : ∀ x ∈ cleanup, Path.Normal x.filename := by decide
  exact ⟨hl, hn, hp, by decide +kernel, fix_settled hl hn hp rfl _⟩

end DeadCode
