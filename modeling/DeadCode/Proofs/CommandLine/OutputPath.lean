import DeadCode.CommandLine.OutputPath
import DeadCode.Proofs.Path

namespace DeadCode.OutputPath

variable {P Q : Char → Bool} {text segment before after : Text} {path : String}

section Segments

-- A segment from one separator to the next one, or else from the start or to the end of a text.
structure SegmentAt (P : Char → Bool) (text before segment after : Text) : Prop where
  text  : text = before ++ segment ++ after
  left  : ∀ c ∈ before.getLast?, P c
  right : ∀ c ∈ after.head?, P c

theorem SegmentAt.mono (h : SegmentAt P text before segment after) (hPQ : ∀ c, P c → Q c) :
    SegmentAt Q text before segment after :=
  ⟨h.text, fun c hc => hPQ c (h.left c hc), fun c hc => hPQ c (h.right c hc)⟩

-- The first segment goes up to the first separator.
theorem cons_of_splitOnP (h : text.splitOnP P = first :: rest) :
    text = first ∧ rest = [] ∨ ∃ c text', text = first ++ c :: text' ∧ P c ∧ text'.splitOnP P = rest := by
  induction text generalizing first
  case nil =>
    cases h
    exact .inl ⟨rfl, rfl⟩
  case cons c text hi =>
    rw [List.splitOnP_cons_eq_if_modifyHead] at h
    split at h
    case isTrue hc =>
      cases h
      exact .inr ⟨c, text, rfl, hc, rfl⟩
    case isFalse hc =>
      obtain ⟨first', rest', he⟩ := List.exists_cons_of_ne_nil (List.splitOnP_ne_nil P text)
      rw [he] at h
      cases h
      rcases hi he with ⟨rfl, rfl⟩ | ⟨c', text', rfl, hc', ht⟩
      case inl => exact .inl ⟨rfl, rfl⟩
      case inr => exact .inr ⟨c', text', rfl, hc', ht⟩

theorem exists_segmentAt (h : text.splitOnP P = front ++ segment :: back) :
    ∃ before after, SegmentAt P text before segment after ∧ (after = [] ↔ back = []) := by
  induction front generalizing text
  case nil =>
    rcases cons_of_splitOnP h with ⟨rfl, rfl⟩ | ⟨c, text', rfl, hc, rfl⟩
    case inl => exact ⟨[], [], ⟨by simp, by simp, by simp⟩, by simp⟩
    case inr =>
      refine ⟨[], c :: text', ⟨by simp, by simp, by simpa using hc⟩, ?_⟩
      simp [List.splitOnP_ne_nil]
  case cons first front hi =>
    rcases cons_of_splitOnP h with ⟨_, he⟩ | ⟨c, text', rfl, hc, ht⟩
    case inl => simp at he
    case inr =>
      obtain ⟨before, after, hs, hb⟩ := hi ht
      refine ⟨first ++ c :: before, after, ⟨by simp [hs.text], ?_, hs.right⟩, hb⟩
      cases before
      case nil => simpa using hc
      case cons => simpa using hs.left

theorem SegmentAt.exists_splitOnP (h : SegmentAt P text before segment after)
    (hs : ∀ c ∈ segment, P c = false) :
    ∃ front back, text.splitOnP P = front ++ segment :: back ∧ (after = [] ↔ back = []) := by
  obtain ⟨back, hb, hn⟩ : ∃ back, (segment ++ after).splitOnP P = segment :: back ∧
      (after = [] ↔ back = []) := by
    cases after
    case nil => exact ⟨[], by simp [List.splitOnP_eq_singleton hs], by simp⟩
    case cons c after =>
      have hc : P c := h.right c rfl
      refine ⟨after.splitOnP P, ?_, by simp [List.splitOnP_ne_nil]⟩
      rw [List.splitOnP_append_cons _ _ hc, List.splitOnP_eq_singleton hs, List.singleton_append]
  rcases List.eq_nil_or_concat before with rfl | ⟨before, c, rfl⟩
  case inl => exact ⟨[], back, by simp [h.text, hb], hn⟩
  case inr =>
    have hc : P c := h.left c (by simp)
    refine ⟨before.splitOnP P, back, ?_, hn⟩
    rw [h.text, ← hb, ← List.splitOnP_append_cons _ _ hc]
    simp

variable (hs : ∀ c ∈ segment, P c = false)
include hs

theorem mem_splitOnP_iff :
    segment ∈ text.splitOnP P ↔ ∃ before after, SegmentAt P text before segment after := by
  constructor
  case mp =>
    intro h
    obtain ⟨front, back, he⟩ := List.append_of_mem h
    obtain ⟨before, after, hb, _⟩ := exists_segmentAt he
    exact ⟨before, after, hb⟩
  case mpr =>
    intro ⟨before, after, h⟩
    obtain ⟨front, back, he, _⟩ := h.exists_splitOnP hs
    simp [he]

theorem mem_dropLast_splitOnP_iff : segment ∈ (text.splitOnP P).dropLast ↔
    ∃ before after, SegmentAt P text before segment after ∧ after ≠ [] := by
  constructor
  case mp =>
    intro h
    obtain ⟨front, back, he⟩ := List.append_of_mem h
    have hc := List.dropLast_concat_getLast (List.splitOnP_ne_nil P text)
    rw [he, List.append_assoc, List.cons_append] at hc
    obtain ⟨before, after, hb, hn⟩ := exists_segmentAt hc.symm
    exact ⟨before, after, hb, by simp [hn]⟩
  case mpr =>
    intro ⟨before, after, h, hn⟩
    obtain ⟨front, back, he, hb⟩ := h.exists_splitOnP hs
    have hb : back ≠ [] := mt hb.mpr hn
    rw [he, List.dropLast_append_cons]
    simp [List.dropLast_cons_of_ne_nil hb]

end Segments

def isSlash (c : Char) : Bool :=
  c == '/'

def isSeparator (c : Char) : Bool :=
  c == '/' || c == '\\'

-- The segments of a path if both separators count.
def segments (path : String) : List Text :=
  path.toList.splitOnP isSeparator

-- The segment that leads to the directory above.
def up : Text := ['.', '.']

theorem isSlash_up : ∀ c ∈ up, isSlash c = false := by
  simp [up, isSlash]

theorem isSeparator_up : ∀ c ∈ up, isSeparator c = false := by
  simp [up, isSeparator]

theorem isSeparator_of_isSlash (c : Char) (h : isSlash c) : isSeparator c := by
  simp_all [isSlash, isSeparator]

-- Where only the slash counts, what leads up is found among the parts of a path.
theorem contains_parts_iff (path : String) :
    (Path.parts path).contains .parent ↔ up ∈ path.toList.splitOnP isSlash := by
  have hs : Path.segments path.toList = path.toList.splitOnP isSlash := by
    rw [Path.segments_eq_splitOn, List.splitOn_eq_splitOnP]
    rfl
  have hm : Path.Part.parent ∈
      ((Path.segments path.toList).filter (!Path.isIdle ·)).map Path.Part.ofSegment ↔
        up ∈ Path.segments path.toList := by
    simp only [List.mem_map, List.mem_filter, Path.Part.ofSegment]
    constructor
    case mp =>
      rintro ⟨segment, ⟨hm, _⟩, hp⟩
      split at hp
      case isTrue he =>
        cases beq_iff_eq.mp he
        exact hm
      case isFalse => contradiction
    case mpr =>
      intro h
      exact ⟨up, ⟨h, rfl⟩, rfl⟩
  rw [List.contains_iff_mem, ← hs, ← hm, Path.parts]
  split <;> simp

theorem occurs_iff (pattern text : Text) : occurs pattern text ↔ pattern <:+: text := by
  induction text
  case nil => simp [occurs]
  case cons c rest hi => rw [occurs, Bool.or_eq_true, hi, List.isPrefixOf_iff_prefix, List.infix_cons_iff]

theorem leadsUp_iff (text : Text) : leadsUp text ↔ up ∈ (text.splitOnP isSlash).dropLast := by
  rw [mem_dropLast_splitOnP_iff isSlash_up, leadsUp, Bool.or_eq_true, occurs_iff,
    List.isPrefixOf_iff_prefix]
  constructor
  case mp =>
    rintro (⟨before, after, rfl⟩ | ⟨after, rfl⟩)
    case inl =>
      refine ⟨before ++ ['/'], '/' :: after, ⟨?_, ?_, ?_⟩, by simp⟩ <;> simp [up, isSlash]
    case inr =>
      refine ⟨[], '/' :: after, ⟨?_, ?_, ?_⟩, by simp⟩ <;> simp [up, isSlash]
  case mpr =>
    intro ⟨before, after, h, hn⟩
    obtain ⟨c, after, rfl⟩ := List.exists_cons_of_ne_nil hn
    have hc : c = '/' := by simpa [isSlash] using h.right c rfl
    rcases List.eq_nil_or_concat before with rfl | ⟨before, d, rfl⟩
    case inl => exact .inr ⟨after, by simp [h.text, up, hc]⟩
    case inr =>
      have hd : d = '/' := by simpa [isSlash] using h.left d (by simp)
      exact .inl ⟨before, after, by simp [h.text, up, hc, hd]⟩

-- The separators are told apart no more once the path is normalized.
theorem splitOnP_normalized (path : String) :
    (normalized path).splitOnP isSlash = segments path := by
  rw [normalized, segments]
  induction path.toList
  case nil => rfl
  case cons c rest hi =>
    rw [List.map_cons, List.splitOnP_cons_eq_if_modifyHead, List.splitOnP_cons_eq_if_modifyHead, hi]
    by_cases hc : c = '\\'
    case pos => simp [hc, isSlash, isSeparator]
    case neg => simp [hc, isSlash, isSeparator]

-- A segment that leads up is found by one of the two tests, unless it stands at the end after a backslash.
theorem up_mem_segments_iff (path : String) : up ∈ segments path ↔
    up ∈ path.toList.splitOnP isSlash ∨ up ∈ (segments path).dropLast ∨ '\\' :: up <:+ path.toList := by
  rw [segments, mem_splitOnP_iff isSeparator_up, mem_splitOnP_iff isSlash_up,
    mem_dropLast_splitOnP_iff isSeparator_up]
  constructor
  case mp =>
    rintro ⟨before, after, h⟩
    by_cases hn : after = []
    case neg => exact .inr (.inl ⟨before, after, h, hn⟩)
    case pos =>
      subst hn
      rcases List.eq_nil_or_concat before with rfl | ⟨before, c, rfl⟩
      case inl => exact .inl ⟨[], [], h.text, by simp, by simp⟩
      case inr =>
        have hc : c = '/' ∨ c = '\\' := by simpa [isSeparator] using h.left c (by simp)
        rcases hc with rfl | rfl
        case inl => exact .inl ⟨before ++ ['/'], [], by simp [h.text], by simp [isSlash], by simp⟩
        case inr => exact .inr (.inr ⟨before, by simp [h.text]⟩)
  case mpr =>
    rintro (⟨before, after, h⟩ | ⟨before, after, h, _⟩ | ⟨before, h⟩)
    case inl => exact ⟨before, after, h.mono isSeparator_of_isSlash⟩
    case inr.inl => exact ⟨before, after, h⟩
    case inr.inr => exact ⟨before ++ ['\\'], [], by simp [← h], by simp [isSeparator], by simp⟩

theorem up_mem_dropLast (he : '\\' :: up <:+ path.toList) (h : up ∈ path.toList.splitOnP isSlash) :
    up ∈ (segments path).dropLast := by
  rw [mem_splitOnP_iff isSlash_up] at h
  rw [segments, mem_dropLast_splitOnP_iff isSeparator_up]
  obtain ⟨front, he⟩ := he
  obtain ⟨before, after, h⟩ := h
  refine ⟨before, after, h.mono isSeparator_of_isSlash, ?_⟩
  rintro rfl
  -- At the end there is a backslash, and no slash, before the segment.
  have hb : before = front ++ ['\\'] := by
    have ht : before ++ up = front ++ ['\\'] ++ up := by simpa [← he] using h.text.symm
    exact List.append_cancel_right ht
  simpa [hb, isSlash] using h.left '\\' (by simp [hb])

-- What the two tests for segments that lead up let pass.
theorem passes_iff (path : String) :
    (Path.parts path).contains .parent = false ∧ leadsUp (normalized path) = false ↔
      up ∉ segments path ∨ up ∉ (segments path).dropLast ∧ '\\' :: up <:+ path.toList := by
  rw [← Bool.not_eq_true, ← Bool.not_eq_true, contains_parts_iff, leadsUp_iff, splitOnP_normalized,
    up_mem_segments_iff]
  constructor
  case mp =>
    rintro ⟨hp, hd⟩
    by_cases he : '\\' :: up <:+ path.toList
    case pos => exact .inr ⟨hd, he⟩
    case neg => exact .inl (by simp [hp, hd, he])
  case mpr =>
    rintro (h | ⟨hd, he⟩)
    case inl =>
      simp only [not_or] at h
      exact ⟨h.left, h.right.left⟩
    case inr => exact ⟨mt (up_mem_dropLast he) hd, hd⟩

-- A path is accepted as it is. It must not contain a zero character nor begin with a slash, and no segment
-- may be `..`, except for the last one after a backslash.
theorem check_eq_ok_iff (path accepted : String) : check path = .ok accepted ↔
    accepted = path ∧ '\x00' ∉ path.toList ∧ path.toList.head? ≠ some '/' ∧
      (up ∉ segments path ∨ up ∉ (segments path).dropLast ∧ '\\' :: up <:+ path.toList) := by
  have hn : path.toList.contains '\x00' = false ↔ '\x00' ∉ path.toList := by simp
  have ha : Path.isAbsolute path = false ↔ path.toList.head? ≠ some '/' := by simp [Path.isAbsolute]
  rw [← passes_iff, ← hn, ← ha, check]
  cases path.toList.contains '\x00' <;> cases Path.isAbsolute path <;>
    cases (Path.parts path).contains .parent <;> cases leadsUp (normalized path) <;> simp [eq_comm]

-- A segment at the end that leads up is overlooked because no separator follows it.
theorem check_trailing : check "a\\.." = .ok "a\\.." ∧ up ∈ segments "a\\.." := by
  constructor
  · rfl
  · decide

end DeadCode.OutputPath
