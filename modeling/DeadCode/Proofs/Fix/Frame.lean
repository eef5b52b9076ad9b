import DeadCode.Fix.Basic
import DeadCode.Proofs.FileTree.Shape

namespace DeadCode

variable {t : FileTree} {s : Settings} {x : FilePlan} {log : Log} {todo : Plan} {st : FixState}

theorem FilePlan.path_edit {edit : FileEdit} (h : x.edit t root keepLines = .ok edit) :
    edit.path = Path.join root x.filename := by
  have ⟨_, _, h⟩ := bind_ok h
  have ⟨_, _, h⟩ := bind_ok h
  cases h
  rfl

namespace FixState

-- The ways to change the tree: the file of an edit is written, or it is removed.
inductive Touches (st : FixState) (edit : FileEdit) (u : FileTree) : Prop
  | write  : st.tree.write edit.path text = .ok u → Touches st edit u
  | remove : st.tree.remove edit.path false = .ok (.removed u) → Touches st edit u

theorem overwrite_tree (log : Log) (st : FixState) (edit : FileEdit) (text : String) :
    (st.overwrite log edit text).tree = st.tree ∨
      st.fix.dryRun = false ∧ st.Touches edit (st.overwrite log edit text).tree := by
  unfold overwrite FileTree.save
  cases hd : st.fix.dryRun
  case true => exact .inl rfl
  case false =>
    cases hw : st.tree.write edit.path text
    case error => exact .inl rfl
    case ok u => exact .inr ⟨rfl, .write hw⟩

theorem delete_tree (log : Log) (st : FixState) (edit : FileEdit) :
    (st.delete log edit).tree = st.tree ∨
      st.fix.dryRun = false ∧ st.Touches edit (st.delete log edit).tree := by
  unfold delete
  cases hd : st.fix.dryRun
  case true =>
    split
    case h_1 u hr =>
      have ⟨_, _, _, hu⟩ := FileTree.remove_ok hr
      exact .inl hu
    all_goals exact .inl rfl
  case false =>
    split
    case h_1 u hr => exact .inr ⟨rfl, .remove hr⟩
    all_goals exact .inl rfl

-- All that a step can do to the tree.
theorem step_tree (log : Log) (st : FixState) (outcome : Except Failure FileEdit) :
    (st.step log outcome).tree = st.tree ∨
      st.fix.dryRun = false ∧ ∃ edit, outcome = .ok edit ∧ st.Touches edit (st.step log outcome).tree := by
  cases outcome
  case error => exact .inl rfl
  case ok edit =>
    have ⟨st', hs, ht⟩ : ∃ st', st.step log (.ok edit) = st' ∧
        (st'.tree = st.tree ∨ st.fix.dryRun = false ∧ st.Touches edit st'.tree) := by
      cases hc : edit.change <;> simp only [step, hc]
      case overwrite text => exact ⟨_, rfl, st.overwrite_tree log edit text⟩
      case delete => exact ⟨_, rfl, st.delete_tree log edit⟩
    rw [hs]
    exact ht.imp_right fun ⟨hd, ht⟩ => ⟨hd, edit, rfl, ht⟩

theorem dryRun_step (log : Log) (st : FixState) (outcome : Except Failure FileEdit) :
    (st.step log outcome).fix.dryRun = st.fix.dryRun := by
  cases outcome
  case error => rfl
  case ok edit => cases hc : edit.change <;> simp only [step, hc, overwrite, delete] <;> split <;> rfl

theorem step_alters (log : Log) (st : FixState) (x : FilePlan) (s : Settings) (t : FileTree) :
    FileTree.Alters [Path.join s.root x.filename] st.tree
      (st.step log (x.edit t s.root s.keepLines)).tree := by
  rcases st.step_tree log (x.edit t s.root s.keepLines) with ht | ⟨_, edit, he, ht⟩
  case inl =>
    rw [ht]
    exact .refl _
  case inr =>
    rw [← FilePlan.path_edit he]
    cases ht
    case write hw => exact .write hw
    case remove hr => exact .remove hr

-- One step for each planned file.
def steps (log : Log) (s : Settings) (t : FileTree) (st : FixState) (todo : Plan) : FixState :=
  todo.foldl (fun st x => st.step log (x.edit t s.root s.keepLines)) st

theorem steps_alters (log : Log) (s : Settings) (t : FileTree) (st : FixState) (todo : Plan) :
    FileTree.Alters (todo.map fun x => Path.join s.root x.filename) st.tree (st.steps log s t todo).tree := by
  induction todo generalizing st
  case nil => exact .refl _
  case cons x rest hi =>
    refine ((st.step_alters log x s t).mono ?_).trans ((hi _).mono (List.subset_cons_self _ _))
    simp

theorem steps_of_dryRun (h : st.fix.dryRun = true) : (st.steps log s t todo).tree = st.tree := by
  induction todo generalizing st
  case nil => rfl
  case cons x rest hi =>
    have hs := st.dryRun_step log (x.edit t s.root s.keepLines)
    rcases st.step_tree log (x.edit t s.root s.keepLines) with ht | ⟨hd, _⟩
    case inl => exact (hi (hs.trans h)).trans ht
    case inr =>
      rw [h] at hd
      cases hd

end FixState

namespace Plan

-- A plan is carried out step by step, whatever is logged besides.
theorem fix_eq_steps (plan : Plan) (s : Settings) (log : Log) (t : FileTree) : ∃ before after,
    plan.fix s log t = (FixState.steps log s t ⟨t, { dryRun := s.dryRun }, before⟩ plan).logged after := by
  unfold fix
  split
  case isTrue he =>
    rw [List.isEmpty_iff.mp he]
    exact ⟨[], _, rfl⟩
  case isFalse =>
    simp only [edits, List.foldl_map]
    exact ⟨_, _, rfl⟩

theorem fix_alters (plan : Plan) (s : Settings) (log : Log) (t : FileTree) :
    FileTree.Alters (plan.map fun x => Path.join s.root x.filename) t (plan.fix s log t).tree := by
  have ⟨before, after, he⟩ := plan.fix_eq_steps s log t
  rw [he]
  exact FixState.steps_alters log s t ⟨t, _, before⟩ plan

theorem fix_of_dryRun (h : s.dryRun = true) (plan : Plan) (log : Log) (t : FileTree) :
    (plan.fix s log t).tree = t := by
  have ⟨before, after, he⟩ := plan.fix_eq_steps s log t
  rw [he]
  exact FixState.steps_of_dryRun h

end Plan

end DeadCode
