import DeadCode.Fix.Edit
import DeadCode.Proofs.Edit.Survival
import DeadCode.Proofs.Repair.Pass

namespace DeadCode

namespace Repair

open Text

-- What a pass leaves in the place of an occurrence is part of it.
theorem Pattern.passFrom_sublist (pattern : Pattern) (keepLines : Bool) (before : Option Char)
    (text : Text) : (pattern.passFrom (filler keepLines) before text).Sublist text := by
  fun_induction passFrom pattern (filler keepLines) before text
  case case1 text hit _ hi =>
    have hs := (List.Sublist.refl hit.kept).append <| (filler_sublist keepLines hit.dropped).append hi
    rwa [hit.split] at hs
  case case2 => exact .refl _
  case case3 c _ _ hi => exact hi.cons_cons c

theorem Pattern.pass_sublist (pattern : Pattern) (keepLines : Bool) (text : Text) :
    (pattern.pass (filler keepLines) text).Sublist text :=
  pass_eq text ▸ pattern.passFrom_sublist keepLines none text

theorem settle_sublist {pass : Text → Text} (hp : ∀ text, (pass text).Sublist text) (text : Text) :
    (settle pass text).Sublist text := by
  fun_induction settle pass text
  case case1 text _ _ hi => exact hi.trans (hp text)
  case case2 => exact .refl _

end Repair

namespace Text

variable {source out : Text}

theorem repaired_sublist (text : Text) (keepLines : Bool) : (text.repaired keepLines).Sublist text :=
  (Repair.settle_sublist (Repair.emptyStatement.pass_sublist keepLines) _).trans <|
    Repair.settle_sublist (Repair.separator.pass_sublist keepLines) text

theorem edited_sublist (h : source.edited dead keepLines = .ok out) : out.Sublist source := by
  have ⟨text, ht, h⟩ := bind_ok h
  cases h
  have ⟨_, _, hs⟩ := without_ok (Span.apart_collapse dead) ht
  exact (text.repaired_sublist keepLines).trans (hs.sublist (filler_sublist keepLines))

-- A line break at the end counts for no line of its own, but a text that has lost it has one line break
-- less.
theorem lineCount_mono (h : out.Sublist source) : out.lineCount ≤ source.lineCount := by
  have ho := out.lineCount_bounds
  have hc := h.count_le '\n'
  cases hl : source.getLast?
  case none =>
    rw [List.getLast?_eq_none_iff] at hl
    subst hl
    rw [List.sublist_nil.mp h]
  case some c =>
    by_cases hn : c = '\n'
    case neg =>
      have hs : source.lineCount = source.count '\n' + 1 := by simp [lineCount, hl, hn]
      omega
    case pos =>
      subst hn
      have hs : source.lineCount = source.count '\n' := by simp [lineCount, hl]
      obtain ⟨s, rfl⟩ := List.getLast?_eq_some_iff.mp hl
      obtain ⟨a, b, rfl, ha, hb⟩ := List.sublist_append_iff.mp h
      rcases List.sublist_singleton.mp hb with rfl | rfl
      case inl =>
        have := ha.count_le '\n'
        simp only [List.append_nil, List.count_append, List.count_singleton_self] at *
        omega
      case inr =>
        have ho : lineCount (a ++ ['\n']) = (a ++ ['\n']).count '\n' := by simp [lineCount]
        omega

end Text

-- What is left of a file that is changed.
def FileChange.left : FileChange → Text
  | overwrite text => text.toList
  | delete => []

-- What it means that an edit counts the lines of a file right:
-- 1. what is left is part of the file
-- 2. the lines before and after the edit are those of the file and of what is left
-- 3. the lines that are removed are those that are missing afterwards
structure FileEdit.Counts (edit : FileEdit) (source : Text) : Prop where
  left    : edit.change.left.Sublist source
  before  : edit.linesBefore = source.lineCount
  after   : edit.linesAfter = edit.change.left.lineCount
  removed : edit.linesRemoved + edit.linesAfter = edit.linesBefore

theorem FileAction.change_left {action : FileAction} {source : Text}
    (h : action.change source keepLines = .ok result) :
    result.1.left.Sublist source ∧ result.2 = result.1.left.lineCount := by
  cases action
  case delete =>
    cases h
    exact ⟨List.nil_sublist _, rfl⟩
  case snip spans =>
    have ⟨text, ht, h⟩ := bind_ok h
    cases h
    rw [FileChange.left, String.toList_ofList]
    exact ⟨Text.edited_sublist (mapError_ok ht), rfl⟩

theorem FilePlan.edit_counts {file : FilePlan} {e : FileEdit}
    (h : file.edit tree root keepLines = .ok e) :
    ∃ source, tree.load e.path = .ok source ∧ e.Counts source.toList := by
  have ⟨source, hs, h⟩ := bind_ok h
  have ⟨_, hc, h⟩ := bind_ok h
  cases h
  have ⟨hl, ha⟩ := FileAction.change_left hc
  refine ⟨source, hs, hl, rfl, ha, Nat.sub_add_cancel ?_⟩
  exact ha ▸ Text.lineCount_mono hl

theorem Plan.edits_count (keepLines : Bool) :
    (∀ (source : Text) (dead : List Span) (out : Text), source.edited dead keepLines = .ok out →
      out.Sublist source ∧ out.lineCount ≤ source.lineCount) ∧
    ∀ (plan : Plan) (tree : FileTree) (root : String) (edit : FileEdit),
      .ok edit ∈ plan.edits tree root keepLines →
        ∃ source, tree.load edit.path = .ok source ∧ edit.Counts source.toList := by
  constructor
  case left =>
    intro source dead out h
    have hs := Text.edited_sublist h
    exact ⟨hs, Text.lineCount_mono hs⟩
  case right =>
    intro plan tree root edit h
    have ⟨file, _, he⟩ := List.mem_map.mp h
    exact FilePlan.edit_counts he

-- The variable is all that the last line binds, and the line break before it goes with the rest.
def Text.brief : Text :=
  "g();\nlet abc;".toList

def Span.bound : List Span :=
  [⟨8, 9, 12, by decide, by decide⟩]

def FileTree.brief : FileTree where
  current := []
  entries := [(["a.ts"], .file "g();\nlet abc;".toUTF8)]

def FilePlan.brief : FilePlan :=
  ⟨0, "a.ts", [0], .snip Span.bound⟩

theorem Plan.edits_count_brief :
    (∃ out, Text.brief.edited Span.bound false = .ok out ∧ out = "g();".toList ∧
      out.Sublist Text.brief ∧ out.lineCount ≤ Text.brief.lineCount) ∧
    ∃ edit, .ok edit ∈ edits [.brief] .brief "" false ∧ edit.change.left = "g();".toList ∧
      edit.linesRemoved = 1 ∧
      ∃ source, FileTree.brief.load edit.path = .ok source ∧ edit.Counts source.toList := by
  obtain ⟨out, ho, he⟩ : ∃ out, Text.brief.edited Span.bound false = .ok out ∧ out = "g();".toList :=
    exists_ok (by decide +kernel)
  obtain ⟨edit, hp, hl, hr⟩ : ∃ edit, FilePlan.brief.edit .brief "" false = .ok edit ∧
      edit.change.left = "g();".toList ∧ edit.linesRemoved = 1 :=
    exists_ok (by decide +kernel)
  have hm : .ok edit ∈ edits [.brief] .brief "" false := List.mem_singleton.mpr hp.symm
  have ⟨hs, hc⟩ := edits_count false
  exact ⟨⟨out, ho, he, hs _ _ _ ho⟩, edit, hm, hl, hr, hc _ _ _ _ hm⟩

end DeadCode
