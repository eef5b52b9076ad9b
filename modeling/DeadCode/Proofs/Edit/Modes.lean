import DeadCode.Proofs.Repair.InStep

namespace DeadCode

open Text

namespace Cut

variable {f g : Text → Text} {source out out' : Text}

-- The cuts say where the gaps are.
theorem Splices.ink_eq (hf : ∀ text, ink (f text) = ink (g text)) (h : Splices f n cuts source out)
    (h' : Splices g n cuts source out') : out.ink = out'.ink := by
  induction h generalizing out'
  case nil =>
    cases h'
    rfl
  case cons rest _ gap cut hg hs _ hi =>
    generalize hx : gap ++ (cut.removed ++ rest) = source at h'
    cases h'
    case cons hg' hs' h' =>
      have ⟨hgap, hr⟩ := append_inj_of_byteSize hx (by omega)
      have hr := List.append_cancel_left hr
      subst hgap hr
      simp only [ink_append, hf, hi h']

end Cut

-- The repairs, in the order in which they run.
def Repair.all : List Pattern :=
  [separator, emptyStatement]

theorem Repair.all_aligned : ∀ pattern ∈ all, pattern.Aligned := by
  simp [all, separator_aligned, emptyStatement_aligned]

namespace Text

theorem without_modes (source : Text) (hs : Span.Apart spans) :
    (∃ e, ∀ keepLines, source.without spans keepLines = .error e) ∨
    ∃ plain kept, source.without spans false = .ok plain ∧ source.without spans true = .ok kept ∧
      plain.ink = kept.ink := by
  cases hc : Cut.ofSpans source spans
  case error e => exact .inl ⟨.invalid e, fun _ => by simp only [without, hc]⟩
  case ok cuts =>
    obtain ⟨plain, hp, sp⟩ := without_of_ofSpans false hs hc
    obtain ⟨kept, hk, sk⟩ := without_of_ofSpans true hs hc
    have hf (text : Text) : ink (filler false text) = ink (filler true text) := by
      rw [ink_filler, ink_filler]
    exact .inr ⟨plain, kept, hp, hk, sp.ink_eq hf sk⟩

theorem repaired_eq (text : Text) (keepLines : Bool) :
    text.repaired keepLines = Repair.settleAll keepLines Repair.all text :=
  rfl

-- What the cuts leave is the same but for line breaks, and so is what comes out in the end, unless it depends
-- on the mode what the repairs find.
theorem edited_modes (source : Text) (dead : List Span) :
    (∃ e, ∀ keepLines, source.edited dead keepLines = .error e) ∨
    ∃ plain kept, source.without (Span.collapse dead) false = .ok plain ∧
      source.without (Span.collapse dead) true = .ok kept ∧ plain.ink = kept.ink ∧
      source.edited dead false = .ok (plain.repaired false) ∧
      source.edited dead true = .ok (kept.repaired true) ∧
      (Repair.InStep Repair.all plain kept →
        ink (plain.repaired false) = ink (kept.repaired true)) := by
  rcases source.without_modes (Span.apart_collapse dead) with ⟨e, h⟩ | ⟨plain, kept, hp, hk, hi⟩
  case inl => exact .inl ⟨e, fun keepLines => by rw [edited, h]; rfl⟩
  case inr =>
    refine .inr ⟨plain, kept, hp, hk, hi, by rw [edited, hp]; rfl, by rw [edited, hk]; rfl, fun hs => ?_⟩
    rw [repaired_eq, repaired_eq]
    exact hs.ink_settleAll Repair.all_aligned hi

-- Two empty statements on one line. Without the line break before the first of them, the second does not
-- begin a line any more.
theorem edited_modes_joined : ∃ plain kept, edited "a\nconst;let;".toList [] false = .ok plain ∧
    edited "a\nconst;let;".toList [] true = .ok kept ∧ plain.ink ≠ kept.ink := by
  have hs : Span.collapse [] = [] := by simp [Span.collapse]
  obtain ⟨plain, hp, he⟩ : ∃ plain, edited "a\nconst;let;".toList [] false = .ok plain ∧
      plain = "alet;".toList := by
    rw [edited, hs]
    exact exists_ok (by decide +kernel)
  obtain ⟨kept, hk, he'⟩ : ∃ kept, edited "a\nconst;let;".toList [] true = .ok kept ∧
      kept = "a\n".toList := by
    rw [edited, hs]
    exact exists_ok (by decide +kernel)
  exact ⟨plain, kept, hp, hk, by rw [he, he']; decide⟩

end Text

-- A name list of which only the first name is used, and two variable statements of which nothing is.
def Text.program : Text :=
  "import \x7b\n  a,\n  b,\n  c\n\x7d from 'm';\nlet x;\nf();\nconst y = 1,\n  z = 2;\ng();".toList

def Span.unused : List Span := [
  ⟨16, 16, 17, by decide, by decide⟩, ⟨21, 21, 22, by decide, by decide⟩,
  ⟨39, 39, 40, by decide, by decide⟩, ⟨53, 53, 67, by decide, by decide⟩]

theorem Span.collapse_unused : collapse unused = unused := by
  simp [collapse, unused, List.mergeSort, List.MergeSort.Internal.splitInTwo, le, join]

def Text.program.plain : Text :=
  "import \x7b\n  a,\n  ,\n  \x7d from 'm';\nlet ;\nf();\nconst ;\ng();".toList

def Text.program.kept : Text :=
  "import \x7b\n  a,\n  ,\n  \n\x7d from 'm';\nlet ;\nf();\nconst \n;\ng();".toList

-- The line breaks that stay do not hide anything, and show nothing else.
theorem Text.program_inStep : Repair.InStep Repair.all program.plain program.kept :=
  .pass (by decide +kernel) <| .turn (by decide +kernel) (by decide +kernel) <|
    .pass (by decide +kernel) <| .turn (by decide +kernel) (by decide +kernel) .nil

theorem Text.edited_modes_program : ∃ plain kept,
    program.without (Span.collapse Span.unused) false = .ok plain ∧
    program.without (Span.collapse Span.unused) true = .ok kept ∧ Repair.InStep Repair.all plain kept ∧
    program.edited Span.unused false = .ok (plain.repaired false) ∧
    program.edited Span.unused true = .ok (kept.repaired true) ∧
    ink (plain.repaired false) = ink (kept.repaired true) := by
  obtain ⟨plain, hp, he⟩ : ∃ plain, program.without (Span.collapse Span.unused) false = .ok plain ∧
      plain = program.plain := by
    rw [Span.collapse_unused]
    exact exists_ok (by decide +kernel)
  obtain ⟨kept, hk, he'⟩ : ∃ kept, program.without (Span.collapse Span.unused) true = .ok kept ∧
      kept = program.kept := by
    rw [Span.collapse_unused]
    exact exists_ok (by decide +kernel)
  have hs : Repair.InStep Repair.all plain kept := by
    rw [he, he']
    exact program_inStep
  rcases edited_modes program Span.unused with ⟨e, h⟩ | ⟨_, _, hx, hy, _, hep, hek, hi⟩
  case inl =>
    have := h false
    rw [edited, hp] at this
    cases this
  case inr =>
    cases hp.symm.trans hx
    cases hk.symm.trans hy
    exact ⟨plain, kept, hp, hk, hs, hep, hek, hi hs⟩

end DeadCode
