import DeadCode.Proofs.Edit.Cut
import Mathlib.Data.List.Flatten

namespace DeadCode

namespace Text

-- The UTF-8 encoding of a text.
def bytes (text : Text) : List UInt8 :=
  text.flatMap String.utf8EncodeChar

@[simp]
theorem bytes_append (a b : Text) : bytes (a ++ b) = a.bytes ++ b.bytes :=
  List.flatMap_append

@[simp]
theorem length_bytes (text : Text) : text.bytes.length = text.byteSize := by
  induction text
  case nil => rfl
  case cons c text hi => simpa [bytes] using hi

theorem filler_sublist (keepLines : Bool) (removed : Text) :
    (filler keepLines removed).Sublist removed := by
  cases keepLines
  case false => exact List.nil_sublist _
  case true => exact List.filter_sublist

theorem bytes_sublist {a b : Text} (h : a.Sublist b) : a.bytes.Sublist b.bytes :=
  h.flatMap _

end Text

namespace Cut

variable {filler : Text → Text} {source out : Text}

theorem BreakAt.getElem?_bytes (h : BreakAt source n) : source.bytes[n]? = some 10 := by
  have ⟨a, b, hs, ha⟩ := h
  subst hs ha
  rw [Text.bytes_append, List.getElem?_append_right (by simp), Text.length_bytes, Nat.sub_self]
  rfl

theorem Removes.clear_of_avoids (h : Removes source span cut) (hn : source.bytes[a]? ≠ some 10)
    (hs : span.Avoids a b) : cut.stop ≤ a ∨ b ≤ cut.start := by
  have hf := span.fullStart_le_start
  have he := h.start
  cases hs
  case inr hb => exact .inr (by omega)
  case inl ha =>
    cases h.stop
    case inl hs => exact .inl (by omega)
    case inr hs =>
      -- The byte at `a` is no line break, so it is not the one that has been absorbed.
      have : span.stop ≠ a := fun he => hn (he ▸ hs.right.getElem?_bytes)
      exact .inl (by omega)

theorem Splices.sublist (hf : ∀ text, (filler text).Sublist text)
    (h : Splices filler n cuts source out) : out.Sublist source := by
  induction h
  case nil => exact .refl _
  case cons hi => exact (List.Sublist.refl _).append <| (hf _).append hi

theorem exists_append_of_length_le {a b c d : List α} (h : a ++ b = c ++ d)
    (hl : a.length ≤ c.length) : ∃ m, c = a ++ m ∧ b = m ++ d := by
  have ⟨m, hm⟩ : a <+: c := List.prefix_of_prefix_length_le ⟨b, h⟩ (List.prefix_append c d) hl
  subst hm
  exact ⟨m, rfl, by simpa using h⟩

-- A range that all cuts stay clear of lies in one of the gaps.
theorem Splices.exists_bytes (hf : ∀ text, (filler text).Sublist text)
    (h : Splices filler n cuts source out) {x y z : List UInt8} (hs : source.bytes = x ++ (y ++ z))
    (hc : ∀ cut ∈ cuts, cut.stop ≤ n + x.length ∨ n + x.length + y.length ≤ cut.start) :
    ∃ before after, out.bytes = before ++ (y ++ after) ∧ before.Sublist x ∧ after.Sublist z := by
  induction h generalizing x
  case nil => exact ⟨x, z, hs, .refl _, .refl _⟩
  case cons n cuts rest out gap cut hn hl h hi =>
    simp only [List.mem_cons, forall_eq_or_imp] at hc
    simp only [Text.bytes_append] at hs ⊢
    rcases hc with ⟨hx | hy, hc⟩
    case inl =>
      -- The cut lies before the range, which is part of the rest.
      rw [← List.append_assoc] at hs
      have ⟨x', hx', hr⟩ := exists_append_of_length_le hs
        (by simp only [List.length_append, Text.length_bytes]; omega)
      have hl' : x.length = gap.byteSize + cut.removed.byteSize + x'.length := by
        simp [hx', Nat.add_assoc]
      have ⟨before, after, ho, hb, ha⟩ := hi hr fun cut' hm => by
        have := hc cut' hm
        omega
      refine ⟨gap.bytes ++ ((filler cut.removed).bytes ++ before), after, by simp [ho], ?_, ha⟩
      rw [hx', List.append_assoc]
      exact (List.Sublist.refl _).append <| (Text.bytes_sublist (hf _)).append hb
    case inr =>
      -- The cut lies behind the range, which is part of the gap.
      rw [← List.append_assoc x] at hs
      have ⟨g, hg, hz⟩ := exists_append_of_length_le hs.symm
        (by simp only [List.length_append, Text.length_bytes]; omega)
      refine ⟨x, g ++ ((filler cut.removed).bytes ++ out.bytes), by simp [hg], .refl _, ?_⟩
      rw [hz]
      exact (List.Sublist.refl _).append <| (Text.bytes_sublist (hf _)).append <|
        Text.bytes_sublist (h.sublist hf)

end Cut

-- A cut can exceed the dead spans in two ways: it fills the gap between spans that have grown together,
-- and it takes the line break after them. Neither reaches into the bytes from `a` to `b`.
theorem Text.without_survives {source : Text}
    (h : source.without (Span.collapse dead) keepLines = .ok out) {a b : Nat} (hab : a < b)
    (hb : b ≤ source.bytes.length) (hn : source.bytes[a]? ≠ some 10)
    (hd : ∀ s ∈ dead, s.stop ≤ a ∨ b ≤ s.fullStart) : ∃ before after,
      out.bytes = before ++ ((source.bytes.take b).drop a ++ after) ∧
      before.Sublist (source.bytes.take a) ∧ after.Sublist (source.bytes.drop b) := by
  have ⟨cuts, hc, hs⟩ := without_ok (Span.apart_collapse dead) h
  have hl : (source.bytes.take a).length = a := List.length_take_of_le (by omega)
  have hm : ((source.bytes.take b).drop a).length = b - a := by
    rw [List.length_drop, List.length_take_of_le hb]
  have hp : source.bytes =
      source.bytes.take a ++ ((source.bytes.take b).drop a ++ source.bytes.drop b) := by
    have ht : source.bytes.take a = (source.bytes.take b).take a := by
      rw [List.take_take, Nat.min_eq_left (Nat.le_of_lt hab)]
    rw [ht, ← List.append_assoc, List.take_append_drop, List.take_append_drop]
  refine hs.exists_bytes (filler_sublist keepLines) hp fun cut hc' => ?_
  have ⟨span, hs, hr⟩ := Cut.removes_of_ofSpans hc cut hc'
  have := hr.clear_of_avoids hn (Span.avoids_collapse hab hd span hs)
  rw [hl, hm]
  omega

-- What stands between the two cuts stays. Only the second takes a line break with it.
theorem Text.without_survives_sample : ∃ out,
    sample.without (Span.collapse Span.samples) false = .ok out ∧
    out = "import \x7b\n ,\n b \x7d;\nlet f".toList ∧
    ∃ before after, out.bytes = before ++ ((sample.bytes.take 18).drop 11 ++ after) ∧
      before.Sublist (sample.bytes.take 11) ∧ after.Sublist (sample.bytes.drop 18) := by
  have ⟨out, h, ho⟩ : ∃ out, sample.without (Span.collapse Span.samples) false = .ok out ∧
      out = "import \x7b\n ,\n b \x7d;\nlet f".toList := by
    rw [Span.collapse_samples]
    exact exists_ok (by decide +kernel)
  exact ⟨out, h, ho, without_survives h (by decide) (by decide) (by decide) (by decide)⟩

end DeadCode
