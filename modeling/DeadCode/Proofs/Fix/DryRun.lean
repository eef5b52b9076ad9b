import DeadCode.Proofs.Fix.Twice
import Mathlib.Data.List.Basic
import Mathlib.Data.Option.Basic

namespace DeadCode

variable {t u : FileTree} {s : Settings} {plan todo : Plan}

namespace Plan

-- What is passed over is the removal of a file, so the other parts of the account stay the same.
theorem account_carriedOut (s : Settings) (t u : FileTree) (todo : Plan) :
    ((todo.carriedOut s t u).account s t).edited = (todo.account s t).edited ∧
      ((todo.carriedOut s t u).account s t).errors = (todo.account s t).errors := by
  induction todo generalizing u
  case nil => exact ⟨rfl, rfl⟩
  case cons x rest hi =>
    rw [carriedOut]
    split
    case isTrue hm =>
      obtain ⟨e, he, hm⟩ : ∃ e, x.effect? s t = some e ∧ e.misses u := by
        simpa [Option.any_eq_true] using hm
      obtain ⟨ha, _⟩ := Effect.misses_iff.mp hm
      simpa [account, he, ha, FilePlan.edit_of_effect? he] using hi u
    case isFalse =>
      have hr := hi ((x.effect? s t).elim u (Effect.apply s.dryRun u))
      simp only [account, List.filter_cons, List.filterMap_cons] at hr ⊢
      exact ⟨by split <;> simp [hr.left], by rw [hr.right]⟩

-- What a dry run tells of the fix:
-- 1. it changes nothing
-- 2. the files that will be cut and those that will fail are as it says
-- 3. it misses no file that will be removed
-- 4. all it says is right, unless there is a file that is to go twice
structure Foretold (plan : Plan) (s : Settings) (t : FileTree) (dry done : FixState) : Prop where
  tree    : dry.tree = t
  edited  : dry.fix.edited = done.fix.edited
  errors  : dry.fix.errors = done.fix.errors
  removed : done.fix.removed.Sublist dry.fix.removed
  fix     : dry.fix = { done.fix with dryRun := true } ↔ Effect.deletesTwice (plan.effects s t) = false

theorem account_dryRun (plan : Plan) (s : Settings) (t : FileTree) :
    plan.account { s with dryRun := true } t = { plan.account s t with dryRun := true } := by
  simp only [account, effects, FilePlan.effect?]

theorem account_carriedOut_iff (hd : s.dryRun = false) (plan : Plan) (t : FileTree) :
    plan.account { s with dryRun := true } t = { (plan.carriedOut s t t).account s t with dryRun := true } ↔
      Effect.deletesTwice (plan.effects s t) = false := by
  rw [← carriedOut_iff hd, account_dryRun]
  constructor
  case mp =>
    -- Equal accounts are accounts of equally many files.
    intro h
    have ⟨he, hr, _, hx⟩ := Fix.mk.injEq .. |>.mp h
    refine (carriedOut_sublist s t t plan).eq_of_length ?_
    rw [← length_account plan s t, ← length_account _ s t, he, hr, hx.right]
  case mpr =>
    intro h
    rw [h]

-- The same plan in the same tree, for show and in earnest.
theorem fix_foretold (hl : t.Linkless) (hd : s.dryRun = false) (plan : Plan) (log : Log) :
    plan.Foretold s t (plan.fix { s with dryRun := true } log t) (plan.fix s log t) := by
  have ⟨_, hdry⟩ := fix_linkless hl plan { s with dryRun := true } log
  have ⟨_, hfix⟩ := fix_linkless hl plan s log
  have ⟨he, hx⟩ := account_carriedOut s t t plan
  rw [carriedOut_of_dryRun rfl] at hdry
  refine ⟨fix_of_dryRun rfl plan log t, ?edited, ?errors, ?removed, ?fix⟩
  case edited => rw [hdry, hfix, he, account_dryRun]
  case errors => rw [hdry, hfix, hx, account_dryRun]
  case removed =>
    rw [hdry, hfix, account_dryRun]
    exact ((carriedOut_sublist s t t plan).filter _).map _
  case fix =>
    rw [hdry, hfix]
    exact account_carriedOut_iff hd plan t

end Plan

-- One file under two names.
def Manifest.aliased : Manifest where
  files := ["a.ts", "./a.ts"].map fun filename =>
    { filename, declarations := [{ name := "f", span := ⟨0, 1, 3, by decide, by decide⟩ }] }

def FileTree.single : FileTree where
  current := []
  entries := [(["a.ts"], .file " f;\n".toUTF8)]

theorem FileTree.single_linkless : single.Linkless :=
  linkless_of_entries (by simp [single])

-- The file goes under its first name, and the dry run counts it under both.
theorem Plan.fix_aliased_ne : ∃ a, ({ root := "" } : Settings).analyze .aliased = .ok a ∧
    (a.plan.map FilePlan.filename).Nodup ∧ FileTree.single.Linkless ∧
    (a.plan.fix { root := "", dryRun := true } ⟨none⟩ .single).fix ≠
      { (a.plan.fix { root := "" } ⟨none⟩ .single).fix with dryRun := true } := by
  obtain ⟨a, h, hp⟩ : ∃ a, ({ root := "" } : Settings).analyze .aliased = .ok a ∧
      a.plan = [⟨0, "a.ts", [0], .delete⟩, ⟨1, "./a.ts", [1], .delete⟩] :=
    exists_ok (by cbv)
  refine ⟨a, h, by rw [hp]; decide, FileTree.single_linkless, ?_⟩
  rw [hp]
  decide +kernel

-- A file that goes, is written under its second name and goes under the third.
def Plan.rewritten : Plan := [
  ⟨0, "a.ts", [0], .delete⟩, ⟨1, "./a.ts", [1], .snip [⟨0, 1, 3, by decide, by decide⟩]⟩,
  ⟨2, ".//a.ts", [2], .delete⟩]

theorem Plan.fix_foretold_rewritten : FileTree.single.Linkless ∧
    (rewritten.effects { root := "" } .single).map Effect.after = [none, some [' '], none] ∧
    rewritten.Foretold { root := "" } .single (rewritten.fix { root := "", dryRun := true } ⟨none⟩ .single)
      (rewritten.fix { root := "" } ⟨none⟩ .single) ∧
    (rewritten.fix { root := "", dryRun := true } ⟨none⟩ .single).fix =
      { (rewritten.fix { root := "" } ⟨none⟩ .single).fix with dryRun := true } := by
  have hf := fix_foretold FileTree.single_linkless (s := { root := "" }) rfl rewritten ⟨none⟩
  exact ⟨FileTree.single_linkless, by decide +kernel, hf, hf.fix.mpr (by decide +kernel)⟩

end DeadCode
