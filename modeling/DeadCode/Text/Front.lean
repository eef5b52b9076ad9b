import DeadCode.Text.Basic

namespace DeadCode

structure Front (text : Text) where
  taken : Text
  rest : Text
  split : taken ++ rest = text

namespace Front

variable {text : Text}

theorem length_add_length (a : Front text) : a.taken.length + a.rest.length = text.length := by
  rw [← List.length_append, a.split]

theorem length_rest_lt (a : Front text) (h : a.taken ≠ []) : a.rest.length < text.length := by
  have := a.length_add_length
  have := List.length_pos_iff.mpr h
  omega

def nothing (text : Text) : Front text :=
  ⟨[], text, rfl⟩

def append (a : Front text) (b : Front a.rest) : Front text where
  taken := a.taken ++ b.taken
  rest := b.rest
  split := by rw [List.append_assoc, b.split, a.split]

@[simp]
theorem taken_append (a : Front text) (b : Front a.rest) :
    (a.append b).taken = a.taken ++ b.taken :=
  rfl

def takeWhile (p : Char → Bool) (text : Text) : Front text where
  taken := text.takeWhile p
  rest := text.dropWhile p
  split := List.takeWhile_append_dropWhile

def char? (p : Char → Bool) : (text : Text) → Option (Front text)
  | [] => none
  | c :: rest => if p c then some ⟨[c], rest, rfl⟩ else none

theorem taken_of_char? {p : Char → Bool} {a : Front text} (h : char? p text = some a) :
    ∃ c, p c ∧ a.taken = [c] := by
  unfold char? at h
  split at h
  case h_1 => contradiction
  case h_2 c _ =>
    split at h
    case isTrue hc => exact ⟨c, hc, by cases h; rfl⟩
    case isFalse => contradiction

def word? : (word text : Text) → Option (Front text)
  | [], text => some (nothing text)
  | c :: word, text => do
    let first ← char? (· == c) text
    let others ← word? word first.rest
    return first.append others

theorem taken_of_word? {word : Text} {a : Front text} (h : word? word text = some a) :
    a.taken = word := by
  induction word generalizing text with
  | nil =>
    cases h
    rfl
  | cons c word ih =>
    simp only [word?, bind, Option.bind_eq_some_iff] at h
    obtain ⟨first, hf, others, ho, h⟩ := h
    obtain ⟨d, hd, ht⟩ := taken_of_char? hf
    cases h
    simp_all

def oneOf? (words : List Text) (text : Text) : Option (Front text) :=
  words.findSome? (word? · text)

theorem taken_of_oneOf? {words : List Text} {a : Front text} (h : oneOf? words text = some a) :
    a.taken ∈ words := by
  obtain ⟨word, mem, h⟩ := List.exists_of_findSome?_eq_some h
  exact taken_of_word? h ▸ mem

end Front

end DeadCode
