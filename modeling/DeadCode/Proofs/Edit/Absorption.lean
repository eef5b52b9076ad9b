import DeadCode.Proofs.Edit.Slices
import Mathlib.Data.Nat.Find

namespace DeadCode

namespace Span

variable {bytes : List UInt8} {s t : Span} {next : Option Span} {spans rest : List Span} {i j k m n o : Nat}

-- An offset is cut out: it lies in one of the spans, or goes with it.
def Gone (bytes : List UInt8) : List Span → Nat → Prop
  | [], _ => False
  | s :: rest, o => s.start ≤ o ∧ o < s.rangeStop bytes rest.head? ∨ Gone bytes rest o

instance Gone.decidable (bytes : List UInt8) : (spans : List Span) → DecidablePred (Gone bytes spans)
  | [], _ => isFalse id
  | _ :: rest, o =>
    have := decidable bytes rest o
    inferInstanceAs (Decidable (_ ∨ _))

-- A line break goes with the span before it, as the next span begins further behind.
def Absorbed (bytes : List UInt8) (spans : List Span) (k : Nat) : Prop :=
  ∃ before s rest, spans = before ++ s :: rest ∧ s.stop = k ∧ bytes[k]? = some 10 ∧
    ∀ t ∈ rest.head?, k < t.start

section Gone

theorem rangeStop_cases (bytes : List UInt8) (s : Span) (next : Option Span) :
    s.rangeStop bytes next = s.stop ∨ s.rangeStop bytes next = s.stop + 1 ∧
      bytes[s.stop]? = some 10 ∧ ∀ t ∈ next, s.stop < t.start := by
  unfold rangeStop
  split
  case isTrue h => exact .inr ⟨rfl, h⟩
  case isFalse => exact .inl rfl

theorem rangeStop_of_absorbed (h : bytes[s.stop]? = some 10) (hn : ∀ t ∈ next, s.stop < t.start) :
    s.rangeStop bytes next = s.stop + 1 :=
  if_pos ⟨h, hn⟩

theorem Absorbed.cons (h : Absorbed bytes spans k) (s : Span) : Absorbed bytes (s :: spans) k := by
  obtain ⟨before, t, rest, rfl, h⟩ := h
  exact ⟨s :: before, t, rest, rfl, h⟩

theorem gone_iff : Gone bytes spans o ↔ (∃ s ∈ spans, s.contains o) ∨ Absorbed bytes spans o := by
  induction spans
  case nil => simp [Gone, Absorbed]
  case cons s rest hi =>
    have := s.start_le_stop
    constructor
    case mp =>
      rintro (⟨hs, ho⟩ | h)
      case inl =>
        rcases rangeStop_cases bytes s rest.head? with he | ⟨he, hb, hn⟩
        case inl => exact .inl ⟨s, .head _, contains_iff.mpr ⟨hs, he ▸ ho⟩⟩
        case inr =>
          by_cases hl : o < s.stop
          case pos => exact .inl ⟨s, .head _, contains_iff.mpr ⟨hs, hl⟩⟩
          case neg =>
            have he : s.stop = o := by omega
            exact .inr ⟨[], s, rest, rfl, he, he ▸ hb, he ▸ hn⟩
      case inr =>
        rcases hi.mp h with ⟨t, ht, hc⟩ | h
        case inl => exact .inl ⟨t, .tail _ ht, hc⟩
        case inr => exact .inr (h.cons s)
    case mpr =>
      rintro (⟨t, ht, hc⟩ | ⟨before, t, rest', he, hk, hb, hn⟩)
      case inl =>
        cases ht
        case head =>
          have ⟨hs, ho⟩ := contains_iff.mp hc
          have := rangeStop_cases bytes s rest.head?
          exact .inl ⟨hs, by omega⟩
        case tail ht => exact .inr <| hi.mpr <| .inl ⟨t, ht, hc⟩
      case inr =>
        cases before
        case nil =>
          cases he
          subst hk
          exact .inl ⟨by omega, by rw [rangeStop_of_absorbed hb hn]; omega⟩
        case cons =>
          cases he
          exact .inr <| hi.mpr <| .inr ⟨_, t, rest', rfl, hk, hb, hn⟩

theorem start_le_of_gone (hs : spans.IsChain fun s t => s.stop ≤ t.start)
    (hn : ∀ s ∈ spans.head?, n ≤ s.start) (h : Gone bytes spans o) : n ≤ o := by
  induction spans generalizing n
  case nil => exact h.elim
  case cons s rest hi =>
    have hn : n ≤ s.start := hn s rfl
    rcases h with ⟨ho, _⟩ | h
    case inl => omega
    case inr =>
      have hr : ∀ t ∈ rest.head?, n ≤ t.start := by
        intro t ht
        have := hs.rel_head? ht
        have := s.start_le_stop
        omega
      exact hi hs.tail hr h

end Gone

section Image

theorem range'_split (h : i ≤ j) (hk : j ≤ k) :
    List.range' i (k - i) = List.range' i (j - i) ++ List.range' j (k - j) := by
  obtain ⟨n, rfl⟩ := Nat.exists_eq_add_of_le h
  have he : i + n - i = n := by omega
  rw [he, List.range'_append_1]
  congr 1
  omega

-- The offset stays where it is, but for what has been cut out before it.
def Stays (bytes : List UInt8) (spans : List Span) (o : Nat) : Prop :=
  o < bytes.length ∧ ¬Gone bytes spans o

instance : DecidablePred (Stays bytes spans) :=
  fun _ => inferInstanceAs (Decidable (_ ∧ _))

-- The offset that a byte has afterwards: the number of those before it that stay.
def image (bytes : List UInt8) (spans : List Span) (o : Nat) : Nat :=
  (List.range o).countP (Stays bytes spans ·)

-- The offsets that stay.
def staying (bytes : List UInt8) (spans : List Span) : List Nat :=
  (List.range bytes.length).filter (Stays bytes spans ·)

theorem image_mono (h : i ≤ j) : image bytes spans i ≤ image bytes spans j :=
  (List.range_sublist.mpr h).countP_le

theorem image_succ (h : Stays bytes spans o) : image bytes spans (o + 1) = image bytes spans o + 1 := by
  simp [image, List.range_succ, h]

theorem image_lt_iff (h : Stays bytes spans i) : image bytes spans i < image bytes spans j ↔ i < j := by
  constructor
  case mp =>
    intro hl
    by_contra hn
    have : image bytes spans j ≤ image bytes spans i := image_mono (by omega)
    omega
  case mpr =>
    intro hl
    have := image_succ h
    have : image bytes spans (i + 1) ≤ image bytes spans j := image_mono hl
    omega

theorem getElem?_staying_image (h : Stays bytes spans o) :
    (staying bytes spans)[image bytes spans o]? = some o := by
  have hr : List.range bytes.length =
      List.range o ++ o :: List.range' (o + 1) (bytes.length - (o + 1)) := by
    have hl : bytes.length - o = bytes.length - (o + 1) + 1 := by
      have := h.left
      omega
    rw [List.range_eq_range', List.range_eq_range', ← List.range'_succ, ← hl]
    exact range'_split (Nat.zero_le o) (Nat.le_of_lt h.left)
  rw [staying, hr, List.filter_append, List.filter_cons_of_pos (by simpa using h), image,
    List.countP_eq_length_filter, List.getElem?_append_right (Nat.le_refl _), Nat.sub_self]
  rfl

theorem Stays.getElem? (h : Stays bytes spans o) : bytes[o]? = some (bytes.getD o 0) := by
  simp [h.left]

theorem getElem?_map_image (h : Stays bytes spans o) :
    ((staying bytes spans).map (bytes.getD · 0))[image bytes spans o]? = bytes[o]? := by
  rw [List.getElem?_map, getElem?_staying_image h, h.getElem?, Option.map_some]

theorem image_of_getElem?_staying (h : (staying bytes spans)[m]? = some o) :
    Stays bytes spans o ∧ image bytes spans o = m := by
  have ho : Stays bytes spans o := by
    simpa using (List.mem_filter.mp (List.mem_of_getElem? h)).right
  have hn : (staying bytes spans).Nodup := List.nodup_range.filter _
  have hl : m < (staying bytes spans).length := (List.getElem?_eq_some_iff.mp h).choose
  exact ⟨ho, ((List.getElem?_inj hl hn).mp (h.trans (getElem?_staying_image ho).symm)).symm⟩

end Image

section Carve

theorem map_range' (h : i ≤ j) (hj : j ≤ bytes.length) :
    (List.range' i (j - i)).map (bytes.getD · 0) = (bytes.take j).drop i := by
  apply List.ext_getElem
  case hl =>
    simp only [List.length_map, List.length_range', List.length_drop, List.length_take]
    omega
  case h =>
    intro m hm _
    have hm : i + m < bytes.length := by
      simp only [List.length_map, List.length_range'] at hm
      omega
    simp [hm]

theorem rangeStop_bounds (h : s.stop ≤ bytes.length) :
    s.start ≤ s.rangeStop bytes next ∧ s.rangeStop bytes next ≤ bytes.length := by
  have := s.start_le_stop
  rcases rangeStop_cases bytes s next with he | ⟨he, hb, _⟩
  case inl => omega
  case inr =>
    have : s.stop < bytes.length := (List.getElem?_eq_some_iff.mp hb).choose
    omega

theorem rangeStop_le_start (hs : (s :: rest).IsChain fun s t => s.stop ≤ t.start) :
    ∀ t ∈ rest.head?, s.rangeStop bytes rest.head? ≤ t.start := by
  intro t ht
  have := hs.rel_head? ht
  rcases rangeStop_cases bytes s rest.head? with he | ⟨he, _, hn⟩
  case inl => omega
  case inr =>
    have := hn t ht
    omega

theorem stays_cons_of_lt (hs : (s :: rest).IsChain fun s t => s.stop ≤ t.start) (h : o < s.start)
    (ho : o < bytes.length) : Stays bytes (s :: rest) o := by
  refine ⟨ho, fun hg => ?_⟩
  have : s.start ≤ o := start_le_of_gone hs (by simp) hg
  omega

theorem stays_cons_of_le (h : s.rangeStop bytes rest.head? ≤ o) :
    Stays bytes (s :: rest) o ↔ Stays bytes rest o := by
  simp only [Stays, Gone]
  refine and_congr_right fun _ => not_congr <| or_iff_right ?_
  omega

-- Up to the first span all stays, and nothing of what goes with it does.
theorem filter_stays_cons (hs : (s :: rest).IsChain fun s t => s.stop ≤ t.start)
    (hl : s.stop ≤ bytes.length) (hn : n ≤ s.start) :
    let stop := s.rangeStop bytes rest.head?
    (List.range' n (bytes.length - n)).filter (Stays bytes (s :: rest) ·) =
      List.range' n (s.start - n) ++
        (List.range' stop (bytes.length - stop)).filter (Stays bytes rest ·) := by
  intro stop
  have ⟨hst, hle⟩ : s.start ≤ stop ∧ stop ≤ bytes.length := rangeStop_bounds hl
  have hb : (List.range' n (s.start - n)).filter (Stays bytes (s :: rest) ·) =
      List.range' n (s.start - n) := by
    refine List.filter_eq_self.mpr fun o ho => decide_eq_true ?_
    rw [List.mem_range'_1] at ho
    exact stays_cons_of_lt hs (by omega) (by omega)
  have hm : (List.range' s.start (stop - s.start)).filter (Stays bytes (s :: rest) ·) = [] := by
    refine List.filter_eq_nil_iff.mpr fun o ho => ?_
    rw [List.mem_range'_1] at ho
    have hg : Gone bytes (s :: rest) o := .inl (by omega)
    simpa using fun h : Stays bytes (s :: rest) o => h.right hg
  have ha : (List.range' stop (bytes.length - stop)).filter (Stays bytes (s :: rest) ·) =
      (List.range' stop (bytes.length - stop)).filter (Stays bytes rest ·) := by
    refine List.filter_congr fun o ho => decide_eq_decide.mpr (stays_cons_of_le ?_)
    exact (List.mem_range'_1.mp ho).left
  rw [range'_split hn (Nat.le_trans hst hle), range'_split hst hle, List.filter_append,
    List.filter_append, hb, hm, ha, List.nil_append]

theorem filter_stays_nil (n : Nat) : (List.range' n (bytes.length - n)).filter (Stays bytes [] ·) =
    List.range' n (bytes.length - n) := by
  refine List.filter_eq_self.mpr fun o ho => decide_eq_true ⟨?_, id⟩
  rw [List.mem_range'_1] at ho
  omega

-- What is left from an offset on is what stays from there on.
theorem carve_eq (hs : spans.IsChain fun s t => s.stop ≤ t.start)
    (hl : ∀ s ∈ spans, s.stop ≤ bytes.length) (hn : ∀ s ∈ spans.head?, n ≤ s.start)
    (hb : n ≤ bytes.length) : carve false bytes n spans =
      ((List.range' n (bytes.length - n)).filter (Stays bytes spans ·)).map (bytes.getD · 0) := by
  induction spans generalizing n
  case nil => rw [filter_stays_nil, map_range' hb (Nat.le_refl _), List.take_length, carve]
  case cons s rest hi =>
    have hs' := hl s (.head _)
    have hns : n ≤ s.start := hn s rfl
    obtain ⟨hst, hle⟩ : s.start ≤ s.rangeStop bytes rest.head? ∧
        s.rangeStop bytes rest.head? ≤ bytes.length := rangeStop_bounds hs'
    have hr := hi hs.tail (fun t ht => hl t (.tail _ ht)) (rangeStop_le_start hs) hle
    rw [filter_stays_cons hs hs' hns, List.map_append, map_range' hns (Nat.le_trans hst hle), ← hr, carve]
    simp [Text.fillerBytes]

end Carve

-- Two lines become one at an offset: from the last byte that stays before it up to the first that stays
-- behind it all is cut out, and neither of the two is a line break.
def Joined (bytes : List UInt8) (spans : List Span) (k : Nat) : Prop :=
  ∃ i j, i < k ∧ k < j ∧ Stays bytes spans i ∧ Stays bytes spans j ∧
    (∀ o, i < o → o < j → Gone bytes spans o) ∧ bytes[i]? ≠ some 10 ∧ bytes[j]? ≠ some 10

section Joined

theorem Joined.gone (h : Joined bytes spans k) : Gone bytes spans k :=
  have ⟨_, _, hi, hj, _, _, hg, _⟩ := h
  hg k hi hj

-- The last offset of a kind before another one.
theorem exists_last {P : Nat → Prop} (h : P i) (hi : i < k) :
    ∃ l, i ≤ l ∧ l < k ∧ P l ∧ ∀ o, l < o → o < k → ¬P o := by
  classical
  have hi : i ≤ k - 1 := by omega
  refine ⟨Nat.findGreatest P (k - 1), Nat.le_findGreatest hi h, ?_, Nat.findGreatest_spec hi h, ?_⟩
  case refine_1 =>
    have := Nat.findGreatest_le (P := P) (k - 1)
    omega
  case refine_2 => exact fun o hl ho => Nat.findGreatest_is_greatest hl (by omega)

theorem exists_first {P : Nat → Prop} (h : P j) (hj : k < j) :
    ∃ f, f ≤ j ∧ k < f ∧ P f ∧ ∀ o, k < o → o < f → ¬P o := by
  classical
  have he : ∃ f, k < f ∧ P f := ⟨j, hj, h⟩
  have ⟨hf, hp⟩ := Nat.find_spec he
  exact ⟨Nat.find he, Nat.find_min' he ⟨hj, h⟩, hf, hp, fun o hk ho hn => Nat.find_min he ho ⟨hk, hn⟩⟩

-- Two bytes that stay are still on different lines if a line break between them stays.
def Parted (bytes : List UInt8) (spans : List Span) (i j : Nat) : Prop :=
  ∃ o, i < o ∧ o < j ∧ Stays bytes spans o ∧ bytes[o]? = some 10

theorem forall_parted_iff (hk : bytes[k]? = some 10) :
    (∀ i j, i < k → k < j → Stays bytes spans i → Stays bytes spans j → bytes[i]? ≠ some 10 →
      bytes[j]? ≠ some 10 → Parted bytes spans i j) ↔ ¬Joined bytes spans k := by
  constructor
  case mp =>
    rintro h ⟨i, j, hi, hj, hsi, hsj, hg, hbi, hbj⟩
    have ⟨o, hio, hoj, hs, _⟩ := h i j hi hj hsi hsj hbi hbj
    exact hs.right (hg o hio hoj)
  case mpr =>
    intro h i j hi hj hsi hsj hbi hbj
    by_contra hn
    -- The bytes next to the offset that stay are no line breaks either, as these would lie between.
    have ⟨l, hil, hlk, hl, hlast⟩ := exists_last hsi hi
    have ⟨f, hfj, hkf, hf, hfirst⟩ := exists_first hsj hj
    have hbl : bytes[l]? ≠ some 10 := fun hb =>
      have : i ≠ l := fun he => hbi (he ▸ hb)
      hn ⟨l, by omega, by omega, hl, hb⟩
    have hbf : bytes[f]? ≠ some 10 := fun hb =>
      have : f ≠ j := fun he => hbj (he ▸ hb)
      hn ⟨f, by omega, by omega, hf, hb⟩
    have hns : ¬Stays bytes spans k := fun hs => hn ⟨k, hi, hj, hs, hk⟩
    refine h ⟨l, f, hlk, hkf, hl, hf, fun o hlo hof => ?_, hbl, hbf⟩
    have ho : o < bytes.length := Nat.lt_trans hof hf.left
    have hs : ¬Stays bytes spans o := by
      rcases Nat.lt_trichotomy o k with hok | rfl | hok
      case inl => exact hlast o hlo hok
      case inr.inl => exact hns
      case inr.inr => exact hfirst o hok hof
    by_contra hg
    exact hs ⟨ho, hg⟩

theorem parted_iff (h : Stays bytes spans i) :
    (∃ m, image bytes spans i < m ∧ m < image bytes spans j ∧
      ((staying bytes spans).map (bytes.getD · 0))[m]? = some 10) ↔ Parted bytes spans i j := by
  constructor
  case mp =>
    rintro ⟨m, him, hmj, hm⟩
    rw [List.getElem?_map] at hm
    have ⟨o, ho, hb⟩ := Option.map_eq_some_iff.mp hm
    have ⟨hs, he⟩ := image_of_getElem?_staying ho
    subst he
    refine ⟨o, (image_lt_iff h).mp him, (image_lt_iff hs).mp hmj, hs, ?_⟩
    rw [hs.getElem?, hb]
  case mpr =>
    rintro ⟨o, hio, hoj, hs, hb⟩
    refine ⟨image bytes spans o, (image_lt_iff h).mpr hio, (image_lt_iff hs).mpr hoj, ?_⟩
    rw [getElem?_map_image hs, hb]

end Joined

end Span

namespace Text

open DeadCode.Span

variable {source out : Text} {spans : List Span}

theorem bytes_of_without (hs : spans.IsChain fun s t => s.stop ≤ t.start)
    (hf : ∀ s ∈ spans, s.Fits source) : ∃ out, source.without spans false = .ok out ∧
      out.bytes = (staying source.bytes spans).map (source.bytes.getD · 0) := by
  have hb := source.bytes_without false hs
  have hn : spans.find? (¬·.Fits source) = none := by simpa using hf
  have hl : ∀ s ∈ spans, s.stop ≤ source.bytes.length := fun s h => by
    rw [length_bytes]
    exact (hf s h).left
  rw [hn, carve_eq hs hl (fun _ _ => Nat.zero_le _) (Nat.zero_le _)] at hb
  have ⟨out, ho, he⟩ := map_ok_iff.mp hb
  exact ⟨out, ho, he.trans (by rw [staying, List.range_eq_range', Nat.sub_zero])⟩

-- Of a line break that no span contains it depends on its surroundings whether those before it and those
-- behind it stay on different lines: they do unless it goes with the span before it, and what is cut out
-- there stands directly between bytes that stay and are no line breaks.
theorem without_parted (hs : spans.IsChain fun s t => s.stop ≤ t.start)
    (hf : ∀ s ∈ spans, s.Fits source) : ∃ out, source.without spans false = .ok out ∧
      (∀ o, Stays source.bytes spans o →
        out.bytes[image source.bytes spans o]? = source.bytes[o]?) ∧
      ∀ k, source.bytes[k]? = some 10 → (∀ s ∈ spans, ¬s.contains k) →
        ((∀ i j, i < k → k < j → Stays source.bytes spans i → Stays source.bytes spans j →
          source.bytes[i]? ≠ some 10 → source.bytes[j]? ≠ some 10 → ∃ m, image source.bytes spans i < m ∧
            m < image source.bytes spans j ∧ out.bytes[m]? = some 10) ↔
          ¬(Absorbed source.bytes spans k ∧ Joined source.bytes spans k)) := by
  have ⟨out, ho, hb⟩ := bytes_of_without hs hf
  refine ⟨out, ho, fun o h => by rw [hb, getElem?_map_image h], fun k hk hc => ?_⟩
  have ha : Joined source.bytes spans k → Absorbed source.bytes spans k := fun h =>
    (gone_iff.mp h.gone).resolve_left fun ⟨s, hs, hsk⟩ => hc s hs hsk
  rw [and_iff_right_of_imp ha, ← forall_parted_iff hk, hb]
  constructor
  case mp => exact fun h i j hi hj hsi hsj hbi hbj => (parted_iff hsi).mp (h i j hi hj hsi hsj hbi hbj)
  case mpr => exact fun h i j hi hj hsi hsj hbi hbj => (parted_iff hsi).mpr (h i j hi hj hsi hsj hbi hbj)

end Text

-- A statement that begins within a line goes with the line break behind it.
def Span.trailing : List Span :=
  [⟨2, 2, 4, by decide, by decide⟩]

def Text.two : Text :=
  "ab c\nd".toList

theorem Text.without_parted_trailing : Span.collapse Span.trailing = Span.trailing ∧
    (∀ s ∈ Span.trailing, s.Fits two) ∧ Span.Stays two.bytes Span.trailing 1 ∧
    Span.Stays two.bytes Span.trailing 5 ∧ two.bytes[1]? ≠ some 10 ∧ two.bytes[5]? ≠ some 10 ∧
    two.bytes[4]? = some 10 ∧ (∀ s ∈ Span.trailing, ¬s.contains 4) ∧
    ∃ out, two.without Span.trailing false = .ok out ∧ out = "abd".toList ∧
      ¬∃ m, Span.image two.bytes Span.trailing 1 < m ∧ m < Span.image two.bytes Span.trailing 5 ∧
        out.bytes[m]? = some 10 := by
  refine ⟨by simp [Span.collapse, Span.trailing, Span.join], by decide, by decide, by decide, by decide,
    by decide, by decide, by decide, ?_⟩
  obtain ⟨out, ho, he⟩ : ∃ out, two.without Span.trailing false = .ok out ∧ out = "abd".toList :=
    exists_ok (by decide +kernel)
  have hi : Span.image two.bytes Span.trailing 1 = 1 := by decide
  have hj : Span.image two.bytes Span.trailing 5 = 2 := by decide
  refine ⟨out, ho, he, ?_⟩
  rintro ⟨m, hm, hm', _⟩
  omega

-- A statement that has a line of its own.
def Span.middle : List Span :=
  [⟨7, 7, 10, by decide, by decide⟩]

def Text.three : Text :=
  "run();\nbc;\nd".toList

-- The line break before it is the last byte that stays.
theorem Span.middle_not_joined : ¬Joined Text.three.bytes middle 10 := by
  rintro ⟨i, j, hi, hj, hs, _, hg, hb, _⟩
  have hl : ∀ i < 10, Stays Text.three.bytes middle i → i ≤ 6 := by decide
  rcases Nat.lt_or_eq_of_le (hl i hi hs) with h | rfl
  case inl => exact absurd (hg 6 h (by omega)) (by decide)
  case inr => exact hb (by decide)

theorem Text.without_parted_middle : Span.middle.IsChain (fun s t => s.stop ≤ t.start) ∧
    (∀ s ∈ Span.middle, s.Fits three) ∧ Span.Absorbed three.bytes Span.middle 10 ∧
    ∃ out, three.without Span.middle false = .ok out ∧ ∃ m, Span.image three.bytes Span.middle 5 < m ∧
      m < Span.image three.bytes Span.middle 11 ∧ out.bytes[m]? = some 10 := by
  have hs : Span.middle.IsChain (fun s t => s.stop ≤ t.start) := by decide
  have hf : ∀ s ∈ Span.middle, s.Fits three := by decide
  obtain ⟨out, ho, _, h⟩ := without_parted hs hf
  refine ⟨hs, hf, ⟨[], _, [], rfl, rfl, by decide, nofun⟩, out, ho, ?_⟩
  exact (h 10 (by decide) (by decide)).mpr (fun h => Span.middle_not_joined h.right) 5 11 (by decide)
    (by decide) (by decide) (by decide) (by decide) (by decide)

end DeadCode
