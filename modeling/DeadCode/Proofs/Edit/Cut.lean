import DeadCode.Edit.Cut
import DeadCode.Proofs.Edit.Collapse
import DeadCode.Proofs.Except
import DeadCode.Proofs.Text.Place

namespace DeadCode

namespace Cut

variable {source : Text} {span : Span} {next : Option Span} {cut : Cut}

-- A line break stands at the given offset.
def BreakAt (source : Text) (offset : Nat) : Prop :=
  ∃ a b, source = a ++ '\n' :: b ∧ a.byteSize = offset

-- A cut takes a span out of a text, and maybe the line break after it.
structure Removes (source : Text) (span : Span) (cut : Cut) : Prop where
  split : ∃ before after, source = before ++ (cut.removed ++ after) ∧ before.byteSize = cut.start
  size  : cut.start + cut.removed.byteSize = cut.stop
  start : cut.start = span.start
  stop  : cut.stop = span.stop ∨ cut.stop = span.stop + 1 ∧ BreakAt source span.stop

theorem drop_take_append (a m b : Text) (hn : n = a.length + m.length) :
    ((a ++ (m ++ b)).take n).drop a.length = m := by
  rw [hn, ← List.append_assoc, ← List.length_append, List.take_left, List.drop_left]

-- Whether the line break after a span goes with it.
def Absorbs (span : Span) (after : Text) (next : Option Span) : Prop :=
  after.head? = some '\n' ∧ ∀ t ∈ next, span.stop < t.start

open Classical in
theorem ofSpan_append (hs : a.byteSize = span.start) (he : (a ++ m).byteSize = span.stop) :
    ofSpan (a ++ (m ++ b)) span next = .ok
      (if Absorbs span b next then ⟨span.start, span.stop + 1, m ++ ['\n']⟩
      else ⟨span.start, span.stop, m⟩) := by
  have hl : ¬(a ++ (m ++ b)).byteSize < span.stop := by
    simp only [Text.byteSize_append] at he ⊢
    omega
  have hi := Text.charsBefore?_append a (m ++ b)
  have hj := Text.charsBefore?_append (a ++ m) b
  have hd : (a ++ (m ++ b)).drop (a ++ m).length = b := by rw [← List.append_assoc, List.drop_left]
  rw [List.append_assoc, he] at hj
  rw [hs] at hi
  have hb : (b.head? == some '\n' && next.all (span.stop < ·.start)) ↔ Absorbs span b next := by
    cases next <;> simp [Absorbs]
  simp only [ofSpan, hl, hi, hj, hd, hb, if_false]
  split
  case isTrue hb =>
    have ⟨b', hb⟩ := List.head?_eq_some_iff.mp hb.left
    have hm : m ++ b = (m ++ ['\n']) ++ b' := by simp [hb]
    rw [hm, drop_take_append _ _ _ (by simp [Nat.add_assoc]), Nat.add_sub_cancel_left]
  case isFalse => rw [drop_take_append _ _ _ (by simp), Nat.sub_self, Nat.add_zero]

theorem exists_append_of_ofSpan (h : ofSpan source span next = .ok cut) : ∃ a m b,
    source = a ++ (m ++ b) ∧ a.byteSize = span.start ∧ (a ++ m).byteSize = span.stop := by
  unfold ofSpan at h
  split at h
  case isTrue => contradiction
  case isFalse =>
    split at h
    case h_2 => contradiction
    case h_1 i j hi hj =>
      have ⟨a, b, hab, ha, _⟩ := Text.exists_append_of_charsBefore? hi
      have ⟨c, d, hcd, hc, _⟩ := Text.exists_append_of_charsBefore? hj
      have ⟨m, hm, hb⟩ := Text.exists_append_of_byteSize_le (hab.symm.trans hcd)
        (by rw [ha, hc]; exact span.start_le_stop)
      exact ⟨a, m, d, hb ▸ hab, ha, hm ▸ hc⟩

theorem ofSpan_ok (h : ofSpan source span next = .ok cut) :
    Removes source span cut ∧ ∀ t ∈ next, span.stop ≤ t.start → cut.stop ≤ t.start := by
  have ⟨a, m, b, hs, ha, hm⟩ := exists_append_of_ofSpan h
  rw [hs, ofSpan_append ha hm] at h
  cases h
  have he := hm
  rw [Text.byteSize_append, ha] at he
  split
  case isTrue hb =>
    have ⟨b', hb'⟩ := List.head?_eq_some_iff.mp hb.left
    subst hs hb'
    refine ⟨⟨⟨a, b', by simp, ha⟩, ?size, rfl, .inr ⟨rfl, a ++ m, b', by simp, hm⟩⟩, ?next⟩
    case size => rw [Text.byteSize_append, ← Nat.add_assoc, he]; rfl
    case next => exact fun t ht _ => hb.right t ht
  case isFalse => exact ⟨⟨⟨a, b, hs, ha⟩, he, rfl, .inl rfl⟩, fun _ _ hn => hn⟩

theorem ofSpans_cons (h : ofSpans source (span :: spans) = .ok cuts) : ∃ cut rest,
    ofSpan source span spans.head? = .ok cut ∧ ofSpans source spans = .ok rest ∧
    cuts = cut :: rest := by
  have ⟨cut, hc, h⟩ := bind_ok h
  have ⟨rest, hr, h⟩ := bind_ok h
  cases h
  exact ⟨cut, rest, hc, hr, rfl⟩

theorem removes_of_ofSpans (h : ofSpans source spans = .ok cuts) :
    ∀ cut ∈ cuts, ∃ span ∈ spans, Removes source span cut := by
  induction spans generalizing cuts
  case nil =>
    cases h
    simp
  case cons span spans hi =>
    have ⟨cut, rest, hc, hr, he⟩ := ofSpans_cons h
    subst he
    simp only [List.mem_cons, forall_eq_or_imp, exists_eq_or_imp]
    exact ⟨.inl (ofSpan_ok hc).left, fun c hm => .inr (hi hr c hm)⟩

-- How cuts take a text apart that begins at byte `n` of the source: gaps stay, and what is removed
-- between them gives way to its filler.
inductive Splices (filler : Text → Text) : Nat → List Cut → Text → Text → Prop
  | nil : Splices filler n [] rest rest
  | cons {cut : Cut} : n + gap.byteSize = cut.start → cut.start + cut.removed.byteSize = cut.stop →
    Splices filler cut.stop cuts rest out →
    Splices filler n (cut :: cuts) (gap ++ (cut.removed ++ rest)) (gap ++ (filler cut.removed ++ out))

-- Makes the cuts, from the last to the first.
def applyAll (filler : Text → Text) (cuts : List Cut) (source : Text) : Option Text :=
  cuts.foldr (fun cut text => text.bind (cut.apply (filler cut.removed))) (some source)

-- The later cuts leave everything in place up to where they begin, so when the turn of a cut comes,
-- the text still is what it was up to its end.
theorem splices_of_ofSpans (filler : Text → Text) (before rest : Text)
    (hs : spans.IsChain fun s t => s.stop ≤ t.start)
    (hb : ∀ s ∈ spans.head?, before.byteSize ≤ s.start)
    (h : ofSpans (before ++ rest) spans = .ok cuts) : ∃ out,
      applyAll filler cuts (before ++ rest) = some (before ++ out) ∧
      Splices filler before.byteSize cuts rest out := by
  induction spans generalizing before rest cuts
  case nil =>
    cases h
    exact ⟨rest, rfl, .nil⟩
  case cons span spans hi =>
    have ⟨cut, cuts, hc, hr, he⟩ := ofSpans_cons h
    subst he
    have ⟨hm, hn⟩ := ofSpan_ok hc
    have ⟨x, after, hx, hxs⟩ := hm.split
    -- The cut begins no earlier than the rest does, so there is a gap before it.
    have ⟨gap, hg, hrest⟩ := Text.exists_append_of_byteSize_le hx
      (by rw [hxs, hm.start]; exact hb span rfl)
    subst hg hrest
    have hl : (before ++ gap ++ cut.removed).byteSize = cut.stop := by
      rw [Text.byteSize_append, hxs, hm.size]
    have hb' : ∀ t ∈ spans.head?, (before ++ gap ++ cut.removed).byteSize ≤ t.start := by
      intro t ht
      rw [hl]
      exact hn t ht (hs.rel_head? ht)
    have ha : before ++ (gap ++ (cut.removed ++ after)) = before ++ gap ++ cut.removed ++ after := by
      simp
    rw [ha] at hr ⊢
    have ⟨out, ho, hp⟩ := hi _ _ hs.tail hb' hr
    rw [hl] at hp
    have hg : before.byteSize + gap.byteSize = cut.start := by rw [← Text.byteSize_append, hxs]
    refine ⟨gap ++ (filler cut.removed ++ out), ?_, .cons hg hm.size hp⟩
    calc
      _ = (applyAll filler cuts _).bind (cut.apply (filler cut.removed)) := rfl
      _ = cut.apply (filler cut.removed) (before ++ gap ++ (cut.removed ++ out)) := by
        rw [ho, Option.bind_some, List.append_assoc]
      _ = some (before ++ gap ++ (filler cut.removed ++ out)) := by
        rw [Cut.apply, ← hxs, ← hl, Text.replace?_append]
      _ = _ := by rw [List.append_assoc]

end Cut

theorem Text.without_of_chain {source : Text} (keepLines : Bool)
    (hs : spans.IsChain fun s t => s.stop ≤ t.start) (hc : Cut.ofSpans source spans = .ok cuts) :
    ∃ out, source.without spans keepLines = .ok out ∧
      Cut.Splices (filler keepLines) 0 cuts source out := by
  have ⟨out, ho, hp⟩ := Cut.splices_of_ofSpans (filler keepLines) [] source hs (by simp) hc
  have ho : cuts.foldr (fun cut text => text.bind (cut.apply (filler keepLines cut.removed)))
      (some source) = some out := ho
  exact ⟨out, by simp only [without, hc, ho], hp⟩

theorem Span.Apart.chain (hs : Apart spans) : spans.IsChain fun s t => s.stop ≤ t.start :=
  hs.imp fun _ t h => Nat.le_trans h t.fullStart_le_start

theorem Text.without_of_ofSpans {source : Text} (keepLines : Bool) (hs : Span.Apart spans)
    (hc : Cut.ofSpans source spans = .ok cuts) : ∃ out, source.without spans keepLines = .ok out ∧
      Cut.Splices (filler keepLines) 0 cuts source out :=
  without_of_chain keepLines hs.chain hc

theorem Text.without_ok {source : Text} (hs : Span.Apart spans)
    (h : source.without spans keepLines = .ok out) : ∃ cuts,
      Cut.ofSpans source spans = .ok cuts ∧ Cut.Splices (filler keepLines) 0 cuts source out := by
  cases hc : Cut.ofSpans source spans
  case error =>
    simp only [without, hc] at h
    contradiction
  case ok cuts =>
    have ⟨out', ho, hp⟩ := without_of_ofSpans keepLines hs hc
    cases h.symm.trans ho
    exact ⟨cuts, rfl, hp⟩

-- A name list and a variable statement.
def Text.sample : Text :=
  "import \x7b\n a,\n b \x7d;\nlet x;\nf".toList

-- The variable with the semicolon after it, an empty span in there, and the first name of the list.
def Span.samples : List Span := [
  ⟨23, 23, 25, by decide, by decide⟩, ⟨24, 24, 24, by decide, by decide⟩,
  ⟨9, 10, 11, by decide, by decide⟩]

theorem Span.collapse_samples :
    collapse samples = [⟨9, 10, 11, by decide, by decide⟩, ⟨23, 23, 25, by decide, by decide⟩] := by
  simp [collapse, samples, List.mergeSort, List.MergeSort.Internal.splitInTwo, le, join, extend]

end DeadCode
