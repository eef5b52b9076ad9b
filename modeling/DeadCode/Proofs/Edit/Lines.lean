import DeadCode.Edit.Source
import DeadCode.Proofs.Edit.Cut

namespace DeadCode

namespace Text

variable {source out text : Text}

-- Some characters of a text go, but none of its line breaks.
structure Thins (source out : Text) : Prop where
  sublist : out.Sublist source
  count   : out.count '\n' = source.count '\n'

namespace Thins

theorem refl (text : Text) : Thins text text :=
  ⟨.refl text, rfl⟩

theorem trans (h₁ : Thins a b) (h₂ : Thins b c) : Thins a c :=
  ⟨h₂.sublist.trans h₁.sublist, h₂.count.trans h₁.count⟩

theorem append (h₁ : Thins a b) (h₂ : Thins c d) : Thins (a ++ c) (b ++ d) :=
  ⟨h₁.sublist.append h₂.sublist, by simp only [List.count_append, h₁.count, h₂.count]⟩

theorem filler (removed : Text) : Thins removed (filler true removed) :=
  ⟨List.filter_sublist, by simp [Text.filler, breaks, List.count_filter]⟩

end Thins

end Text

open Text

theorem Cut.Splices.thins {filler : Text → Text} (hf : ∀ text, Thins text (filler text))
    (h : Splices filler n cuts source out) : Thins source out := by
  induction h
  case nil => exact .refl _
  case cons hi => exact (Thins.refl _).append <| (hf _).append hi

namespace Repair

variable {filler : Text → Text} {pass : Text → Text}

theorem Pattern.go_pass_thins (pattern : Pattern) (hf : ∀ text, Thins text (filler text))
    (done : Text) (before : Option Char) (text : Text) :
    ∃ out, Pattern.pass.go pattern filler done before text = done.reverse ++ out ∧ Thins text out := by
  fun_induction Pattern.pass.go pattern filler done before text
  case case1 done before text hit _ hi =>
    have ⟨out, ho, ht⟩ := hi
    have hh : Thins (hit.kept ++ (hit.dropped ++ hit.rest))
        (hit.kept ++ (filler hit.dropped ++ out)) :=
      (Thins.refl _).append <| (hf _).append ht
    rw [hit.split] at hh
    refine ⟨_, ?_, hh⟩
    rw [ho]
    simp
  case case2 => exact ⟨[], by simp, .refl _⟩
  case case3 c rest _ hi =>
    have ⟨out, ho, ht⟩ := hi
    exact ⟨c :: out, by simp [ho], (Thins.refl [c]).append ht⟩

theorem Pattern.pass_thins (pattern : Pattern) (hf : ∀ text, Thins text (filler text)) (text : Text) :
    Thins text (pattern.pass filler text) := by
  have ⟨out, ho, ht⟩ := pattern.go_pass_thins hf [] none text
  rw [Pattern.pass, ho]
  exact ht

theorem settle_thins (hp : ∀ text, Thins text (pass text)) (text : Text) :
    Thins text (settle pass text) := by
  fun_induction settle pass text
  case case1 text _ _ hi => exact (hp text).trans hi
  case case2 text _ _ => exact .refl text

end Repair

namespace Text

theorem repaired_thins (text : Text) : Thins text (text.repaired true) :=
  (Repair.settle_thins (Repair.separator.pass_thins .filler) _).trans <|
    Repair.settle_thins (Repair.emptyStatement.pass_thins .filler) _

theorem edited_thins {source : Text} (h : source.edited dead true = .ok out) : Thins source out := by
  have ⟨text, ht, h⟩ := bind_ok h
  cases h
  have ⟨_, _, hs⟩ := without_ok (Span.apart_collapse dead) ht
  exact (hs.thins .filler).trans text.repaired_thins

-- The lines of a text, without the line breaks between them.
abbrev lines (text : Text) : List Text :=
  text.splitOn '\n'

theorem lines_cons (c : Char) (text : Text) :
    lines (c :: text) = if c = '\n' then [] :: text.lines else text.lines.modifyHead (c :: ·) := by
  simp [lines, List.splitOn_eq_splitOnP, List.splitOnP_cons_eq_if_modifyHead]

theorem forall₂_modifyHead {R : α → β → Prop} (hf : ∀ {x y}, R x y → R (f x) (g y))
    (h : List.Forall₂ R xs ys) : List.Forall₂ R (xs.modifyHead f) (ys.modifyHead g) := by
  cases h
  case nil => exact .nil
  case cons hr h => exact .cons (hf hr) h

-- A part of a text that has as many line breaks as the text itself lacks none of them.
theorem Thins.lines (h : Thins source out) : List.Forall₂ List.Sublist out.lines source.lines := by
  have ⟨hs, hc⟩ := h
  clear h
  induction hs
  case slnil => simp [Text.lines]
  case cons out source c hs hi =>
    have hl := hs.count_le '\n'
    -- The rest alone cannot have as many line breaks if one has been dropped.
    have hn : c ≠ '\n' := by
      intro hn
      simp only [hn, List.count_cons_self] at hc
      omega
    rw [List.count_cons_of_ne hn] at hc
    rw [lines_cons, if_neg hn]
    simpa using forall₂_modifyHead (f := id) (fun h => h.cons c) (hi hc)
  case cons_cons out source c hs hi =>
    rw [lines_cons, lines_cons]
    have hi := hi (by simpa [List.count_cons] using hc)
    split
    case isTrue => exact .cons (.refl _) hi
    case isFalse => exact forall₂_modifyHead (fun h => h.cons_cons c) hi

-- A line break at the beginning stays at the beginning.
theorem Thins.head? (h : Thins ('\n' :: text) out) : out.head? = some '\n' := by
  rcases List.sublist_cons_iff.mp h.sublist with hs | ⟨_, ho, _⟩
  case inl =>
    have hc := h.count
    have := hs.count_le '\n'
    simp only [List.count_cons_self] at hc
    omega
  case inr => rw [ho, List.head?_cons]

-- A line break at the end stays at the end.
theorem Thins.getLast? (h : Thins source out) (hl : source.getLast? = some '\n') :
    out.getLast? = some '\n' := by
  have ⟨s, hs⟩ := List.getLast?_eq_some_iff.mp hl
  subst hs
  have ⟨a, b, ho, ha, hb⟩ := List.sublist_append_iff.mp h.sublist
  subst ho
  rcases List.sublist_singleton.mp hb with hb | hb <;> subst hb
  case inl =>
    have := h.count
    have := ha.count_le '\n'
    simp at *
    omega
  case inr => simp

theorem lineCount_bounds (text : Text) :
    text.count '\n' ≤ text.lineCount ∧ text.lineCount ≤ text.count '\n' + 1 := by
  unfold lineCount
  split <;> omega

theorem Thins.lineCount (h : Thins source out) :
    (source.getLast? = some '\n' → out.lineCount = source.lineCount) ∧
      out.lineCount ≤ source.lineCount ∧ source.lineCount ≤ out.lineCount + 1 := by
  have hc := h.count
  cases hl : source.getLast?
  case none =>
    have hs := List.getLast?_eq_none_iff.mp hl
    subst hs
    have ho := List.sublist_nil.mp h.sublist
    simp [ho]
  case some c =>
    by_cases hn : c = '\n'
    case pos =>
      subst hn
      simp [Text.lineCount, hl, h.getLast? hl, hc]
    case neg =>
      have hs : source.lineCount = source.count '\n' + 1 := by simp [Text.lineCount, hl, hn]
      have ho := out.lineCount_bounds
      exact ⟨by simp [hn], by omega, by omega⟩

-- Nothing moves to another line. A last line that is not ended by a line break can vanish if nothing of
-- it stays, so the number of lines can drop by one.
theorem edited_lines {source : Text} (h : source.edited dead true = .ok out) :
    out.count '\n' = source.count '\n' ∧ List.Forall₂ List.Sublist out.lines source.lines ∧
    (source.getLast? = some '\n' → out.lineCount = source.lineCount) ∧
    out.lineCount ≤ source.lineCount ∧ source.lineCount ≤ out.lineCount + 1 := by
  have ht := edited_thins h
  exact ⟨ht.count, ht.lines, ht.lineCount⟩

-- The cuts leave a stray comma and an empty statement behind, which are then taken out as well.
theorem edited_lines_sample : ∃ out, sample.edited Span.samples true = .ok out ∧
    out = "import \x7b\n\n b \x7d;\n\nf".toList ∧ out.count '\n' = sample.count '\n' ∧
    List.Forall₂ List.Sublist out.lines sample.lines ∧
    (sample.getLast? = some '\n' → out.lineCount = sample.lineCount) ∧
    out.lineCount ≤ sample.lineCount ∧ sample.lineCount ≤ out.lineCount + 1 := by
  have ⟨out, h, ho⟩ : ∃ out, sample.edited Span.samples true = .ok out ∧
      out = "import \x7b\n\n b \x7d;\n\nf".toList := by
    rw [edited, Span.collapse_samples]
    exact exists_ok (by decide +kernel)
  exact ⟨out, h, ho, edited_lines h⟩

end Text

end DeadCode
