import DeadCode.Edit.Source
import DeadCode.Proofs.Edit.Cover
import DeadCode.Proofs.Edit.Survival

namespace DeadCode

namespace Text

variable {a b text : Text} {n : Nat}

-- An offset falls between two characters, or is an end of the text.
def Between (text : Text) (offset : Nat) : Prop :=
  ∃ a b, text = a ++ b ∧ a.byteSize = offset

theorem between_iff : text.Between n ↔ (text.charsBefore? n).isSome := by
  constructor
  case mp =>
    rintro ⟨a, b, rfl, rfl⟩
    rw [charsBefore?_append]
    rfl
  case mpr =>
    intro h
    have ⟨_, hi⟩ := Option.isSome_iff_exists.mp h
    have ⟨a, b, ht, ha, _⟩ := exists_append_of_charsBefore? hi
    exact ⟨a, b, ht, ha⟩

instance : Decidable (text.Between n) :=
  decidable_of_iff _ between_iff.symm

-- A line break is a single byte, and no part of any other character.
theorem not_mem_utf8EncodeChar (h : c ≠ '\n') : 10 ∉ String.utf8EncodeChar c := by
  have hc : c.val.toNat ≠ 10 := fun he => h (Char.ext (UInt32.toNat_inj.mp he))
  have hb {n} (hn : n < 256) (he : n ≠ 10) : (10 : UInt8) ≠ .ofNat n := by
    intro h
    have := congrArg UInt8.toNat h
    simp only [UInt8.toNat_ofNat', UInt8.reduceToNat] at this
    omega
  unfold String.utf8EncodeChar
  dsimp only
  split <;> try split <;> try split
  all_goals
    simp only [List.mem_cons, List.not_mem_nil, or_false, not_or]
    and_intros <;> exact hb (by omega) (by omega)

theorem bytes_cons (c : Char) (text : Text) : bytes (c :: text) = String.utf8EncodeChar c ++ bytes text :=
  rfl

theorem count_bytes (text : Text) : text.bytes.count 10 = text.count '\n' := by
  induction text
  case nil => rfl
  case cons c text hi =>
    rw [bytes_cons, List.count_append, hi]
    by_cases hc : c = '\n'
    case pos =>
      subst hc
      rw [List.count_cons_self, Nat.add_comm]
      rfl
    case neg =>
      rw [List.count_eq_zero.mpr (not_mem_utf8EncodeChar hc), List.count_cons_of_ne hc, Nat.zero_add]

theorem head?_bytes : text.bytes.head? = some 10 ↔ text.head? = some '\n' := by
  cases text
  case nil => simp [bytes]
  case cons c text =>
    by_cases hc : c = '\n'
    case pos => simp [hc, bytes, String.utf8EncodeChar]
    case neg =>
      have hm := not_mem_utf8EncodeChar hc
      have hl : 0 < (String.utf8EncodeChar c).length := by simp [c.utf8Size_pos]
      obtain ⟨x, xs, hx⟩ := List.exists_cons_of_length_pos hl
      simp only [hx, List.mem_cons, not_or] at hm
      simp [bytes_cons, hx, hc, Ne.symm hm.left]

-- The line breaks among some bytes, or nothing.
def fillerBytes (keepLines : Bool) (removed : List UInt8) : List UInt8 :=
  if keepLines then List.replicate (removed.count 10) 10 else []

theorem bytes_filler (keepLines : Bool) (removed : Text) :
    (filler keepLines removed).bytes = fillerBytes keepLines removed.bytes := by
  cases keepLines
  case false => rfl
  case true =>
    have hb : removed.breaks = List.replicate (removed.count '\n') '\n' := by
      simp [breaks, List.filter_beq]
    have hr (n : Nat) : bytes (List.replicate n '\n') = List.replicate n 10 := by
      simp [bytes, String.utf8EncodeChar, List.flatMap_replicate]
    simp only [filler, fillerBytes, if_true, hb, hr, count_bytes]

end Text

namespace Span

variable {source : Text} {s : Span}

-- A span ends within a text and does not cut characters apart.
def Fits (source : Text) (s : Span) : Prop :=
  s.stop ≤ source.byteSize ∧ source.Between s.start ∧ source.Between s.stop

instance : Decidable (s.Fits source) :=
  inferInstanceAs (Decidable (_ ∧ _ ∧ _))

-- What is wrong with a span that does not fit. Whether the text is long enough is looked at first.
def misfit (source : Text) (s : Span) : SpanError :=
  s.error (if source.byteSize < s.stop then .pastEnd source.byteSize else .insideCharacter)

-- Where the bytes end that go with a span. The line break after it is one of them, unless the next span
-- begins there.
def rangeStop (bytes : List UInt8) (s : Span) (next : Option Span) : Nat :=
  if bytes[s.stop]? = some 10 ∧ ∀ t ∈ next, s.stop < t.start then s.stop + 1 else s.stop

-- The bytes from the offset `n` on: the gaps between the spans, and what fills the place of each span.
def carve (keepLines : Bool) (bytes : List UInt8) (n : Nat) : List Span → List UInt8
  | [] => bytes.drop n
  | s :: rest =>
    let stop := s.rangeStop bytes rest.head?
    (bytes.take s.start).drop n ++ Text.fillerBytes keepLines ((bytes.take stop).drop s.start) ++
      carve keepLines bytes stop rest

end Span

namespace Cut

variable {source : Text} {span : Span} {next : Option Span} {cut : Cut}

theorem exists_append_of_fits (h : span.Fits source) : ∃ a m b, source = a ++ (m ++ b) ∧
    a.byteSize = span.start ∧ (a ++ m).byteSize = span.stop := by
  obtain ⟨_, ⟨a, b, hs, ha⟩, ⟨c, d, hs', hc⟩⟩ := h
  have ⟨m, hm, hb⟩ := Text.exists_append_of_byteSize_le (hs.symm.trans hs')
    (by rw [ha, hc]; exact span.start_le_stop)
  exact ⟨a, m, d, hb ▸ hs, ha, hm ▸ hc⟩

theorem ofSpan_of_not_fits (h : ¬span.Fits source) :
    ofSpan source span next = .error (span.misfit source) := by
  unfold ofSpan Span.misfit
  split
  case isTrue => rfl
  case isFalse hl =>
    split
    case h_2 => rfl
    case h_1 hi hj =>
      -- Both ends fall between two characters, so there is nothing wrong with the span.
      refine absurd ⟨by omega, ?_, ?_⟩ h
      case refine_1 => simp [Text.between_iff, hi]
      case refine_2 => simp [Text.between_iff, hj]

theorem ofSpan_of_fits (h : span.Fits source) (next : Option Span) : ∃ cut,
    ofSpan source span next = .ok cut ∧ cut.stop = span.rangeStop source.bytes next := by
  have ⟨a, m, b, hs, ha, hm⟩ := exists_append_of_fits h
  subst hs
  refine ⟨_, ofSpan_append ha hm, ?_⟩
  have hb : (Text.bytes (a ++ (m ++ b)))[span.stop]? = some 10 ↔ b.head? = some '\n' := by
    rw [← Text.head?_bytes, ← hm, ← List.append_assoc, Text.bytes_append,
      List.getElem?_append_right (by simp), Text.length_bytes, Nat.sub_self, List.head?_eq_getElem?]
  by_cases ha : Absorbs span b next
  case pos => rw [if_pos ha, Span.rangeStop, if_pos ⟨hb.mpr ha.left, ha.right⟩]
  case neg => rw [if_neg ha, Span.rangeStop, if_neg fun h => ha ⟨hb.mp h.left, h.right⟩]

theorem ofSpans_of_misfit (h : spans.find? (¬·.Fits source) = some s) :
    ofSpans source spans = .error (s.misfit source) := by
  induction spans
  case nil => contradiction
  case cons span spans hi =>
    by_cases hf : span.Fits source
    case pos =>
      have ⟨cut, hc, _⟩ := ofSpan_of_fits hf spans.head?
      rw [List.find?_cons_of_neg (by simpa using hf)] at h
      simp only [ofSpans, hc, hi h]
      rfl
    case neg =>
      rw [List.find?_cons_of_pos (by simpa using hf)] at h
      cases h
      simp only [ofSpans, ofSpan_of_not_fits hf]
      rfl

theorem exists_ofSpans (h : ∀ s ∈ spans, s.Fits source) : ∃ cuts, ofSpans source spans = .ok cuts := by
  induction spans
  case nil => exact ⟨[], rfl⟩
  case cons span spans hi =>
    have ⟨cut, hc, _⟩ := ofSpan_of_fits (h span (.head _)) spans.head?
    have ⟨cuts, hcs⟩ := hi fun s hs => h s (.tail _ hs)
    exact ⟨cut :: cuts, by simp only [ofSpans, hc, hcs]; rfl⟩

theorem stop_of_ofSpan (h : ofSpan source span next = .ok cut) :
    cut.stop = span.rangeStop source.bytes next := by
  by_cases hf : span.Fits source
  case pos =>
    have ⟨_, hc, hs⟩ := ofSpan_of_fits hf next
    cases h.symm.trans hc
    exact hs
  case neg =>
    rw [ofSpan_of_not_fits hf] at h
    contradiction

theorem eq_of_drop_eq_append {l a b : List α} (h : l.drop n = a ++ b) (hm : n + a.length = m) :
    a = (l.take m).drop n ∧ b = l.drop m := by
  subst hm
  rw [List.drop_take, ← List.drop_drop, h, Nat.add_sub_cancel_left, List.take_left, List.drop_left]
  exact ⟨rfl, rfl⟩

-- The gaps and what is removed between them follow one another in the bytes of the text.
theorem Splices.bytes_eq (h : ofSpans source spans = .ok cuts)
    (hp : Splices (Text.filler keepLines) n cuts rest out) (hr : source.bytes.drop n = rest.bytes) :
    out.bytes = Span.carve keepLines source.bytes n spans := by
  induction spans generalizing cuts n rest out
  case nil =>
    cases h
    cases hp
    exact hr.symm
  case cons span spans hi =>
    obtain ⟨cut, cuts, hc, hcs, rfl⟩ := ofSpans_cons h
    have hs := (ofSpan_ok hc).left.start
    cases hp
    case cons rest out gap hl hg hp =>
      rw [Text.bytes_append, Text.bytes_append] at hr
      have ⟨hgap, hr⟩ := eq_of_drop_eq_append (m := cut.start) hr (by rw [Text.length_bytes, hg])
      have ⟨hrem, hr⟩ := eq_of_drop_eq_append (m := cut.stop) hr.symm (by rw [Text.length_bytes, hl])
      have ho := hi hcs hp hr.symm
      rw [hs] at hgap hrem
      rw [stop_of_ofSpan hc] at hrem ho
      simp only [Span.carve, Text.bytes_append, Text.bytes_filler, ← hgap, ← hrem, ← ho,
        List.append_assoc]

end Cut

namespace Text

theorem bytes_without (source : Text) (keepLines : Bool)
    (hs : spans.IsChain fun s t => s.stop ≤ t.start) :
    (source.without spans keepLines).map bytes =
      match spans.find? (¬·.Fits source) with
      | some s => .error (.invalid (s.misfit source))
      | none => .ok (Span.carve keepLines source.bytes 0 spans) := by
  split
  case h_1 s hf => simp only [without, Cut.ofSpans_of_misfit hf, Except.map]
  case h_2 hf =>
    have hf : ∀ s ∈ spans, s.Fits source := by simpa using hf
    obtain ⟨cuts, hc⟩ := Cut.exists_ofSpans hf
    obtain ⟨out, ho, hp⟩ := without_of_chain keepLines hs hc
    simp only [ho, Except.map, hp.bytes_eq hc rfl]

theorem misfit_of_edited {source : Text} (h : source.edited dead keepLines = .error e) :
    ∃ t ∈ Span.collapse dead, ¬t.Fits source ∧ e = .invalid (t.misfit source) := by
  have hw : source.without (Span.collapse dead) keepLines = .error e := by
    rcases bind_error h with hw | ⟨_, _, h⟩
    case inl => exact hw
    case inr => contradiction
  have hb := source.bytes_without keepLines (Span.apart_collapse dead).chain
  rw [hw] at hb
  split at hb
  case h_1 t hf =>
    cases hb
    exact ⟨t, List.mem_of_find?_eq_some hf, by simpa using List.find?_some hf, rfl⟩
  case h_2 => contradiction

-- The end of a span is not lost, so a text that is too short for a span is too short for the one it has
-- grown into.
theorem edited_of_pastEnd {source : Text} (hs : s ∈ dead) (hl : source.byteSize < s.stop) :
    ∃ e, source.edited dead keepLines = .error e := by
  have ⟨t, ht, hst⟩ := Span.exists_stop_le_collapse hs
  cases h : source.edited dead keepLines
  case error e => exact ⟨e, rfl⟩
  case ok out =>
    have ⟨text, hw, _⟩ := bind_ok h
    have hb := source.bytes_without keepLines (Span.apart_collapse dead).chain
    rw [hw] at hb
    split at hb
    case h_1 => contradiction
    case h_2 hf =>
      have ⟨hf, _⟩ : t.Fits source := by simpa using List.find?_eq_none.mp hf t ht
      omega

-- What is cut out is what the spans say, and the first that does not fit is named. Spans that have been
-- collapsed always can be cut out if they fit.
theorem without_slices (source : Text) (keepLines : Bool) :
    (∀ spans : List Span, spans.IsChain (fun s t => s.stop ≤ t.start) →
      (source.without spans keepLines).map bytes =
        match spans.find? (¬·.Fits source) with
        | some s => .error (.invalid (s.misfit source))
        | none => .ok (Span.carve keepLines source.bytes 0 spans)) ∧
    ∀ dead : List Span, (Span.collapse dead).IsChain (fun s t => s.stop ≤ t.start) ∧
      (∀ e, source.edited dead keepLines = .error e →
        ∃ t ∈ Span.collapse dead, ¬t.Fits source ∧ e = .invalid (t.misfit source)) ∧
      ((∃ s ∈ dead, source.byteSize < s.stop) → ∃ e, source.edited dead keepLines = .error e) :=
  ⟨fun _ hs => source.bytes_without keepLines hs, fun dead => ⟨(Span.apart_collapse dead).chain,
    fun _ h => misfit_of_edited h, fun ⟨_, hs, hl⟩ => edited_of_pastEnd hs hl⟩⟩

end Text

-- A character of two bytes, a statement, the line break after it, and a statement after an empty line.
def Span.touching : List Span := [
  ⟨4, 4, 6, by decide, by decide⟩, ⟨12, 12, 18, by decide, by decide⟩,
  ⟨18, 18, 19, by decide, by decide⟩, ⟨19, 20, 21, by decide, by decide⟩]

def Text.accented : Text :=
  "let é = 1;\nlet b;\n\nc\n".toList

theorem Text.without_slices_touching : Span.touching.IsChain (fun s t => s.stop ≤ t.start) ∧
    (accented.without Span.touching false).map bytes = .ok (bytes "let  = 1;\n".toList) ∧
    (accented.without Span.touching true).map bytes = .ok (bytes "let  = 1;\n\n\n\n".toList) := by
  have hs : Span.touching.IsChain (fun s t => s.stop ≤ t.start) := by decide
  exact ⟨hs, ((without_slices accented false).left _ hs).trans (by rfl),
    ((without_slices accented true).left _ hs).trans (by rfl)⟩

end DeadCode
