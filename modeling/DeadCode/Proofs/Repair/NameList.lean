import DeadCode.Proofs.Repair.Binding
import Mathlib.Data.Option.Basic

namespace DeadCode

open Text

theorem intercalate_append_cons (sep : List α) (xs : List (List α)) (y : List α) (ys : List (List α)) :
    sep.intercalate (xs ++ y :: ys) = xs.flatMap (· ++ sep) ++ sep.intercalate (y :: ys) := by
  induction xs
  case nil => rfl
  case cons x xs hi =>
    have ⟨z, zs, hz⟩ := List.exists_cons_of_ne_nil (by simp : xs ++ y :: ys ≠ [])
    rw [hz] at hi
    simp [hz, List.intercalate_cons_cons, hi]

namespace Front

variable {p : Char → Bool} {text a b rest : Text} {c : Char}

theorem rest_takeWhile (h : text = a ++ b) (ha : ∀ c ∈ a, p c) (hb : ∀ c ∈ b.head?, p c = false) :
    (takeWhile p text).rest = b := by
  subst h
  have hd : b.dropWhile p = b := by
    cases b
    case nil => rfl
    case cons c b => rw [List.dropWhile_cons_of_neg (by simp [hb c rfl])]
  exact (List.dropWhile_append_of_pos ha).trans hd

theorem exists_char? (h : text = c :: rest) (hc : p c) : ∃ a, char? p text = some a ∧ a.rest = rest := by
  subst h
  exact ⟨⟨[c], rest, rfl⟩, by simp [char?, hc], rfl⟩

theorem char?_eq_none (h : ∀ c ∈ text.head?, p c = false) : char? p text = none := by
  rw [← Option.not_isSome_iff_eq_none, isSome_char?]
  cases text
  case nil => simp
  case cons c text => simp [h c rfl]

end Front

namespace Repair

-- Blanks come before all characters of names or after all of them.
theorem bounds_of_isBlank (h : isBlank c) : c.toNat ≤ 32 ∨ 133 ≤ c.toNat := by
  have hr : ∀ r ∈ blankRanges, r.2 ≤ 32 ∨ 133 ≤ r.1 := by decide
  have ⟨r, hm, hc⟩ := List.any_eq_true.mp h
  have := hr r hm
  simp only [Bool.and_eq_true, decide_eq_true_eq] at hc
  omega

theorem bounds_of_isNameChar (h : isNameChar c) : 36 ≤ c.toNat ∧ c.toNat ≤ 122 := by
  simp only [isNameChar, isNameStart, Bool.or_eq_true, beq_iff_eq] at h
  rcases h with ((h | rfl) | rfl) | h
  case inl.inl.inl =>
    rcases Bool.or_eq_true_iff.mp h with h | h
    case inl =>
      have : 65 ≤ c.toNat ∧ c.toNat ≤ 90 := of_decide_eq_true h
      omega
    case inr =>
      have : 97 ≤ c.toNat ∧ c.toNat ≤ 122 :=
        (Bool.and_eq_true_iff.mp h).imp of_decide_eq_true of_decide_eq_true
      omega
  case inl.inl.inr | inl.inr => decide
  case inr =>
    have : 48 ≤ c.toNat ∧ c.toNat ≤ 57 := Char.isDigit_iff_toNat.mp h
    omega

-- No blank character can be part of a name.
theorem isBlank_of_isNameChar (h : isNameChar c) : isBlank c = false := by
  have hn := bounds_of_isNameChar h
  refine Bool.eq_false_iff.mpr fun hb => ?_
  have := bounds_of_isBlank hb
  omega

theorem isNameChar_of_isNameStart (h : isNameStart c) : isNameChar c := by
  simp [isNameChar, h]

structure Blanks where
  text  : Text
  blank : ∀ c ∈ text, isBlank c

structure Name where
  first  : Char
  others : Text
  starts : isNameStart first
  goesOn : ∀ c ∈ others, isNameChar c

def Name.text (name : Name) : Text :=
  name.first :: name.others

theorem Name.isNameChar_of_mem (name : Name) (h : c ∈ name.text) : isNameChar c := by
  rcases List.mem_cons.mp h with rfl | h
  case inl => exact isNameChar_of_isNameStart name.starts
  case inr => exact name.goesOn c h

-- What stands between two commas of a list, or between a comma and a brace.
inductive Slot
  | empty (blanks : Blanks)
  | filled (before : Blanks) (name : Name) (after : Blanks)

namespace Slot

def text : Slot → Text
  | empty blanks => blanks.text
  | filled before name after => before.text ++ (name.text ++ after.text)

def isFilled : Slot → Bool
  | empty _ => false
  | filled .. => true

theorem not_mem_text (hb : isBlank c = false) (hn : isNameChar c = false) (s : Slot) : c ∉ s.text := by
  have hb (blanks : Blanks) : c ∉ blanks.text := fun h => by simp [blanks.blank c h] at hb
  have hn (name : Name) : c ∉ name.text := fun h => by simp [name.isNameChar_of_mem h] at hn
  cases s <;> simp [text, hb, hn]

end Slot

-- Slots with a comma behind each of them.
def listed (slots : List Slot) : Text :=
  slots.flatMap (·.text ++ [','])

theorem listed_cons (s : Slot) (slots : List Slot) (rest : Text) :
    listed (s :: slots) ++ rest = s.text ++ (',' :: (listed slots ++ rest)) := by
  simp [listed]

-- The beginning of a list, up to its brace.
structure Opening where
  keyword   : Text
  blanks    : Blanks
  isKeyword : keyword ∈ ["export".toList, "import".toList]

def Opening.text (o : Opening) : Text :=
  o.keyword ++ (o.blanks.text ++ ['\x7b'])

section Reading

variable {text rest : Text} {before : Option Char} {c : Char}

theorem head?_blanks_append (blanks : Blanks) (hn : isNameChar c = false) :
    ∀ d ∈ (blanks.text ++ c :: rest).head?, isNameChar d = false := by
  cases h : blanks.text
  case nil => simpa using hn
  case cons d text =>
    have hd : isBlank d := blanks.blank d (h ▸ .head _)
    rintro _ ⟨⟩
    exact Bool.eq_false_iff.mpr fun hn => by simp [isBlank_of_isNameChar hn] at hd

theorem map_rest_append {p : Char → Bool} (a : Front text) (b : Front a.rest) :
    ((Front.char? p b.rest).bind fun c => some (a.append (b.append c))).map (·.rest) =
      (Front.char? p b.rest).map (·.rest) := by
  cases Front.char? p b.rest <;> rfl

-- A slot is read up to the comma behind it, if it holds a name and there is a comma.
theorem slot?_text (s : Slot) (hb : isBlank c = false) (hn : isNameChar c = false)
    (h : text = s.text ++ c :: rest) :
    (slot? text).map (·.rest) = if s.isFilled ∧ c = ',' then some rest else none := by
  cases s
  case empty blanks =>
    have hr := Front.rest_takeWhile h blanks.blank (by simp [hb])
    have hs : isNameStart c = false := Bool.eq_false_iff.mpr fun hs => by
      simp [isNameChar_of_isNameStart hs] at hn
    have hf : Front.char? isNameStart (Front.takeWhile isBlank text).rest = none :=
      Front.char?_eq_none (by simp [hr, hs])
    simp [slot?, Slot.isFilled, hf]
  case filled before name after =>
    have hf : isBlank name.first = false := isBlank_of_isNameChar (isNameChar_of_isNameStart name.starts)
    rw [Slot.text, List.append_assoc, List.append_assoc] at h
    have hr := Front.rest_takeWhile h before.blank (by simp [Name.text, hf])
    obtain ⟨first, hs, hr⟩ := Front.exists_char? hr name.starts
    have hr := Front.rest_takeWhile hr name.goesOn (head?_blanks_append after hn)
    have hr := Front.rest_takeWhile hr after.blank (by simp [hb])
    simp only [slot?, hs, Option.bind_eq_bind, Option.bind_some, Option.pure_def, map_rest_append]
    calc
      _ = (Front.char? (· == ',') (c :: rest)).map (·.rest) :=
        congrArg (fun text => (Front.char? (· == ',') text).map (·.rest)) hr
      _ = _ := by by_cases hc : c = ',' <;> simp [Front.char?, Slot.isFilled, hc]

-- Filled slots are read as long as they follow one another.
theorem rest_slots {done : List Slot} (hd : ∀ s ∈ done, s.isFilled) (hr : slot? rest = none)
    (h : text = listed done ++ rest) : (slots text).rest = rest := by
  induction done generalizing text
  case nil =>
    rw [slots_of_none (h ▸ hr)]
    exact h
  case cons s done hi =>
    have ⟨hs, hd⟩ := List.forall_mem_cons.mp hd
    have ht := slot?_text s (by decide) (by decide) (h.trans (listed_cons ..))
    rw [if_pos ⟨hs, rfl⟩] at ht
    have ⟨e, he, ht⟩ := Option.map_eq_some_iff.mp ht
    rw [slots_of_some he]
    exact hi hd ht

theorem exists_keyword? {keyword : Text} (hk : keyword ∈ ["export".toList, "import".toList])
    (h : text = keyword ++ rest) :
    ∃ a, Front.oneOf? ["export".toList, "import".toList] text = some a ∧ a.rest = rest := by
  subst h
  simp only [List.mem_cons, List.not_mem_nil, or_false] at hk
  rcases hk with rfl | rfl <;> exact ⟨_, rfl, rfl⟩

theorem nameList?_opening (o : Opening) (hb : before.all (!isWord ·)) (h : text = o.text ++ rest) :
    (nameList? before text).map (·.rest) = some (slots rest).rest := by
  simp only [Opening.text, List.append_assoc] at h
  have ⟨keyword, hk, hr⟩ := exists_keyword? o.isKeyword h
  have hr := Front.rest_takeWhile hr o.blanks.blank (by simp; decide)
  have ⟨brace, hc, hr⟩ := Front.exists_char? (p := (· == '\x7b')) hr rfl
  have hc : Front.char? (· == '\x7b') (keyword.append (.takeWhile isBlank keyword.rest)).rest = some brace :=
    hc
  have hg : (guard (before.all (!isWord ·)) : Option Unit) = some () := by simp [hb]
  simp only [nameList?, hk, hg, hc, Option.bind_eq_bind, Option.bind_some, Option.pure_def]
  exact congrArg (fun text => some (slots text).rest) hr

theorem exists_opening (h : (separator before text).isSome) :
    ∃ (o : Opening) (rest : Text), text = o.text ++ rest := by
  obtain ⟨hit, hh⟩ := Option.isSome_iff_exists.mp h
  obtain ⟨list, hl, _⟩ := Option.bind_eq_some_iff.mp (separator_eq ▸ hh)
  simp only [nameList?, Option.bind_eq_bind, Option.bind_eq_some_iff] at hl
  obtain ⟨keyword, hk, _, _, brace, hb, _⟩ := hl
  obtain ⟨c, hc, ht⟩ := Front.taken_of_char? hb
  let blanks := Front.takeWhile isBlank keyword.rest
  refine ⟨⟨keyword.taken, ⟨blanks.taken, fun c => List.mem_takeWhile_imp⟩, Front.taken_of_oneOf? hk⟩,
    brace.rest, ?_⟩
  have hr : ['\x7b'] ++ brace.rest = blanks.rest := by
    rw [← beq_iff_eq.mp hc, ← ht]
    exact brace.split
  simp only [Opening.text, List.append_assoc, hr, blanks.split, keyword.split]

theorem commaAfter_of_comma {list : Front text} (blanks : Blanks)
    (h : list.rest = blanks.text ++ ',' :: rest) :
    ∃ hit, commaAfter list = some hit ∧ hit.kept = list.taken ∧ hit.rest = rest := by
  have hr := Front.rest_takeWhile h blanks.blank (by simp; decide)
  have ⟨comma, hc, hr⟩ := Front.exists_char? (p := (· == ',')) hr rfl
  simp only [commaAfter]
  split
  case h_1 hn => cases hc.symm.trans hn
  case h_2 hs =>
    cases hc.symm.trans hs
    exact ⟨_, rfl, rfl, hr⟩

theorem commaAfter_of_ne {list : Front text} (h : (list.rest.dropWhile isBlank).head? ≠ some ',') :
    commaAfter list = none := by
  have hn : Front.char? (· == ',') (Front.takeWhile isBlank list.rest).rest = none :=
    Front.char?_eq_none fun c hc => by
      rw [beq_eq_false_iff_ne]
      rintro rfl
      exact h hc
  simp only [commaAfter]
  split
  case h_1 => rfl
  case h_2 hs => cases hn.symm.trans hs

-- What is found of a list, once the slots up to some place have been read.
theorem separator_opening (o : Opening) (hb : before.all (!isWord ·)) {done : List Slot}
    (hd : ∀ s ∈ done, s.isFilled) (hr : slot? rest = none) (h : text = o.text ++ (listed done ++ rest)) :
    ∃ list : Front text, separator before text = commaAfter list ∧ list.taken = o.text ++ listed done ∧
      list.rest = rest := by
  have hl := nameList?_opening o hb h
  rw [rest_slots hd hr rfl] at hl
  have ⟨list, hl, hr⟩ := Option.map_eq_some_iff.mp hl
  refine ⟨list, by rw [separator_eq, hl]; rfl, ?_, hr⟩
  have ht : list.taken ++ list.rest = o.text ++ listed done ++ list.rest := by
    rw [list.split, hr, h, List.append_assoc]
  exact List.append_cancel_right ht

-- The comma behind an empty slot is found, once all slots before hold names.
theorem separator_of_empty (o : Opening) (hb : before.all (!isWord ·)) {done : List Slot}
    (hd : ∀ s ∈ done, s.isFilled) (blanks : Blanks)
    (h : text = o.text ++ (listed done ++ (blanks.text ++ ',' :: rest))) : ∃ hit,
      separator before text = some hit ∧ hit.kept = o.text ++ listed done ∧ hit.rest = rest := by
  have hs := slot?_text (.empty blanks) (by decide) (by decide) (rfl : blanks.text ++ ',' :: rest = _)
  have ⟨list, hs, hk, hr⟩ := separator_opening o hb hd (by simpa [Slot.isFilled] using hs) h
  have ⟨hit, hc, hk', hr⟩ := commaAfter_of_comma blanks hr
  exact ⟨hit, hs.trans hc, hk'.trans hk, hr⟩

theorem Slot.head?_dropWhile (s : Slot) :
    ((s.text ++ '\x7d' :: rest).dropWhile isBlank).head? ≠ some ',' := by
  have hb : isBlank '\x7d' = false := by decide
  cases s
  case empty blanks => simp [Slot.text, List.dropWhile_append_of_pos blanks.blank, hb]
  case filled before name after =>
    have hf := isNameChar_of_isNameStart name.starts
    have hn : name.first ≠ ',' := fun h => by
      rw [h] at hf
      contradiction
    simpa [Slot.text, Name.text, List.dropWhile_append_of_pos before.blank, isBlank_of_isNameChar hf]

-- The last slot has no comma behind it.
theorem separator_of_filled (o : Opening) (hb : before.all (!isWord ·)) {done : List Slot}
    (hd : ∀ s ∈ done, s.isFilled) (last : Slot)
    (h : text = o.text ++ (listed done ++ (last.text ++ '\x7d' :: rest))) :
    separator before text = none := by
  have hs := slot?_text last (by decide) (by decide) (rfl : last.text ++ '\x7d' :: rest = _)
  have ⟨list, hs, _, hr⟩ := separator_opening o hb hd (by simpa using hs) h
  rw [hs, commaAfter_of_ne (hr ▸ last.head?_dropWhile)]

end Reading

section Place

variable {text rest a b : Text} {before : Option Char}

-- The keyword and the blanks behind it.
def Opening.stem (o : Opening) : Text :=
  o.keyword ++ o.blanks.text

theorem Opening.text_eq (o : Opening) (rest : Text) : o.text ++ rest = o.stem ++ '\x7b' :: rest := by
  simp [text, stem]

theorem Opening.not_mem_stem (o : Opening) (hb : isBlank c = false) (hn : isNameChar c = false) :
    c ∉ o.stem := by
  have hk : ∀ keyword ∈ ["export".toList, "import".toList], keyword.all isNameChar := by decide
  intro h
  rcases List.mem_append.mp h with h | h
  case inl => simp [List.all_eq_true.mp (hk _ o.isKeyword) c h] at hn
  case inr => simp [o.blanks.blank c h] at hb

-- Nothing is found where there is no brace.
theorem not_occursFrom (h : '\x7b' ∉ text) : ¬separator.OccursFrom before text := by
  rintro ⟨a, b, rfl, hs⟩
  have ⟨o, rest, hb⟩ := exists_opening hs
  rw [hb, o.text_eq] at h
  simp at h

theorem Opening.dropWhile_stem (o : Opening) (a : Text) :
    (a ++ o.stem).reverse.dropWhile isBlank = (a ++ o.keyword).reverse := by
  have hk : (a ++ o.keyword).reverse.dropWhile isBlank = (a ++ o.keyword).reverse := by
    have := o.isKeyword
    simp only [List.mem_cons, List.not_mem_nil, or_false] at this
    rcases this with h | h <;> rw [h, List.reverse_append] <;> rfl
  have hb : ∀ c ∈ o.blanks.text.reverse, isBlank c :=
    fun c hc => o.blanks.blank c (List.mem_reverse.mp hc)
  rw [stem, ← List.append_assoc, List.reverse_append, List.dropWhile_append_of_pos hb, hk]

theorem Opening.length_keyword (o : Opening) : o.keyword.length = 6 := by
  have := o.isKeyword
  simp only [List.mem_cons, List.not_mem_nil, or_false] at this
  rcases this with h | h <;> rw [h] <;> rfl

-- A text with one brace has a list at its beginning or nowhere.
theorem eq_nil_of_opening {o : Opening} (hr : '\x7b' ∉ rest) (h : o.text ++ rest = a ++ b)
    (hs : (separator before b).isSome) : a = [] := by
  have ⟨o', rest', hb⟩ := exists_opening hs
  rw [hb, o.text_eq, o'.text_eq, ← List.append_assoc,
    List.append_cons_inj_of_notMem (o.not_mem_stem (by decide) (by decide)) hr] at h
  have hd := o.dropWhile_stem []
  rw [List.nil_append, h.left, o'.dropWhile_stem a] at hd
  have hl := congrArg List.length hd
  simp only [List.length_reverse, List.length_append, o.length_keyword, o'.length_keyword,
    List.nil_append] at hl
  exact List.length_eq_zero_iff.mp (by omega)

end Place

section Lists

variable {rest : Text} {done : List Slot}

-- A list with its keyword and its braces.
def Opening.list (o : Opening) (items : List Text) : Text :=
  o.text ++ ([','].intercalate items ++ ['\x7d'])

theorem Opening.list_concat (o : Opening) (init : List Slot) (last : Slot) :
    o.list ((init ++ [last]).map Slot.text) = o.text ++ (listed init ++ (last.text ++ ['\x7d'])) := by
  rw [list, List.map_append, List.map_singleton, intercalate_append_cons, List.intercalate_singleton,
    List.flatMap_map, List.append_assoc]
  rfl

theorem brace_not_mem (slots : List Slot) (last : Slot) :
    '\x7b' ∉ listed slots ++ (last.text ++ ['\x7d']) := by
  have hs (s : Slot) : '\x7b' ∉ s.text := s.not_mem_text (by decide) (by decide)
  simp [listed, hs]

-- One pass takes the first empty slot out, and the comma behind it.
theorem pass_of_empty (o : Opening) (hd : ∀ s ∈ done, s.isFilled) (blanks : Blanks)
    (hr : '\x7b' ∉ rest) :
    separator.pass (filler false) (o.text ++ (listed (done ++ [.empty blanks]) ++ rest)) =
      o.text ++ (listed done ++ rest) := by
  have ht : listed (done ++ [.empty blanks]) ++ rest = listed done ++ (blanks.text ++ ',' :: rest) := by
    simp [listed, Slot.text]
  have hb : Option.all (!isWord ·) none := rfl
  have ⟨hit, hs, hk, hh⟩ := separator_of_empty o hb hd blanks (congrArg (o.text ++ ·) ht)
  rw [Pattern.pass_eq, Pattern.passFrom_of_some hs, hk, hh,
    (separator.passFrom_eq_self_iff ..).mpr (not_occursFrom hr), List.append_assoc]
  rfl

theorem not_occurs_of_filled (o : Opening) (hd : ∀ s ∈ done, s.isFilled) (last : Slot) :
    ¬separator.Occurs (o.text ++ (listed done ++ (last.text ++ ['\x7d']))) := by
  rintro ⟨a, b, h, hs⟩
  have ha := eq_nil_of_opening (brace_not_mem done last) h hs
  subst ha
  have hb : Option.all (!isWord ·) none := rfl
  have h : b = o.text ++ (listed done ++ (last.text ++ '\x7d' :: [])) := h.symm
  simp [separator_of_filled o hb hd last h] at hs

-- The induction is on the slots that have not been dealt with. Those before them hold names.
theorem settle_listed (o : Opening) (hd : ∀ s ∈ done, s.isFilled) (more : List Slot) (last : Slot) :
    settle (separator.pass (filler false)) (o.text ++ (listed (done ++ more) ++ (last.text ++ ['\x7d']))) =
      o.text ++ (listed (done ++ more.filter Slot.isFilled) ++ (last.text ++ ['\x7d'])) := by
  induction more generalizing done
  case nil =>
    simp only [List.filter_nil, List.append_nil]
    exact Pattern.settle_of_not_occurs false (not_occurs_of_filled o hd last)
  case cons s more hi =>
    cases s
    case filled before name after =>
      have hd : ∀ s ∈ done ++ [.filled before name after], s.isFilled := by
        simpa [or_imp, forall_and] using ⟨hd, rfl⟩
      simpa [List.filter_cons, Slot.isFilled] using hi hd
    case empty blanks =>
      have hp := pass_of_empty o hd blanks (brace_not_mem more last)
      have hl : listed (done ++ .empty blanks :: more) ++ (last.text ++ ['\x7d']) =
          listed (done ++ [.empty blanks]) ++ (listed more ++ (last.text ++ ['\x7d'])) := by
        simp [listed]
      rw [hl, ← settle_pass (separator.pass_shorter false _), hp]
      simpa [List.filter_cons, listed, Slot.isFilled] using hi hd

end Lists

end Repair

-- Of a list of names, all empty slots go but the last one.
theorem Text.uncluttered_list (o : Repair.Opening) (init : List Repair.Slot) (last : Repair.Slot) :
    uncluttered (o.list ((init ++ [last]).map Repair.Slot.text)) false =
      o.list ((init.filter Repair.Slot.isFilled ++ [last]).map Repair.Slot.text) := by
  rw [o.list_concat, o.list_concat]
  exact Repair.settle_listed o (List.forall_mem_nil _) init last

end DeadCode
