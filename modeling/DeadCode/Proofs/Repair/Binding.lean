import DeadCode.Proofs.Repair.Occurrence
import Mathlib.Data.List.TakeWhile

namespace DeadCode

open Text

namespace Front

variable {text word rest : Text} {p : Char → Bool}

theorem isSome_char? : (char? p text).isSome ↔ text.head?.any p := by
  cases text
  case nil => simp [char?]
  case cons c text => by_cases hc : p c <;> simp [char?, hc]

theorem word?_append (word rest : Text) : word? word (word ++ rest) = some ⟨word, rest, rfl⟩ := by
  induction word
  case nil => rfl
  case cons c word hi => simp [word?, char?, hi, append]

theorem exists_word? (h : text = word ++ rest) : ∃ a, word? word text = some a ∧ a.rest = rest := by
  subst h
  exact ⟨_, word?_append word rest, rfl⟩

end Front

namespace Repair

variable {text rest indent exported keyword line : Text} {before : Option Char}

section Reading

def Spaces (text : Text) : Prop :=
  ∀ c ∈ text, c = ' '

-- Nothing, or the word `export` and spaces behind it.
def Exported (text : Text) : Prop :=
  text = [] ∨ ∃ spaces, Spaces spaces ∧ text = "export".toList ++ spaces

-- A line that begins with the keyword of a variable statement: spaces come first, and an `export` may come
-- before the keyword.
def Opens (line rest : Text) : Prop :=
  ∃ indent exported keyword, line = indent ++ (exported ++ (keyword ++ rest)) ∧ Spaces indent ∧
    Exported exported ∧ keyword ∈ binders

-- The end of a statement comes before anything else: a semicolon, or a line break.
def Ends (rest : Text) : Prop :=
  (rest.dropWhile isBlank).head? = some ';' ∨ '\n' ∈ rest.takeWhile isBlank

theorem spaces_takeWhile (text : Text) : Spaces (text.takeWhile (· == ' ')) := by
  intro c hc
  simpa using List.mem_takeWhile_imp hc

theorem Spaces.dropWhile_append (h : Spaces indent) (hl : line.head? ≠ some ' ') :
    (indent ++ line).dropWhile (· == ' ') = line := by
  rw [List.dropWhile_append_of_pos (by simpa [Spaces] using h)]
  cases line
  case nil => rfl
  case cons c line => rw [List.dropWhile_cons_of_neg (by simpa using hl)]

theorem taken_statementHead (text : Text) : ∃ indent exported,
    (statementHead text).taken = indent ++ exported ∧ Spaces indent ∧ Exported exported := by
  cases h : Front.word? "export".toList (Front.takeWhile (· == ' ') text).rest <;>
    simp only [statementHead, h]
  case none => exact ⟨_, [], (List.append_nil _).symm, spaces_takeWhile text, .inl rfl⟩
  case some word =>
    refine ⟨_, _, rfl, spaces_takeWhile text, .inr ⟨_, spaces_takeWhile word.rest, ?_⟩⟩
    rw [Front.taken_append, Front.taken_of_word? h]
    rfl

theorem rest_statementHead_of_not (h : ¬"export".toList <+: text.dropWhile (· == ' ')) :
    (statementHead text).rest = text.dropWhile (· == ' ') := by
  have hn : Front.word? "export".toList (Front.takeWhile (· == ' ') text).rest = none := by
    by_contra hx
    have ⟨a, ha⟩ := Option.ne_none_iff_exists'.mp hx
    exact h ⟨a.rest, Front.taken_of_word? ha ▸ a.split⟩
  simp only [statementHead, hn]
  rfl

theorem rest_statementHead_of_export (h : text.dropWhile (· == ' ') = "export".toList ++ rest) :
    (statementHead text).rest = rest.dropWhile (· == ' ') := by
  have ⟨a, ha, hr⟩ := Front.exists_word? h
  have ha : Front.word? "export".toList (Front.takeWhile (· == ' ') text).rest = some a := ha
  simp only [statementHead, ha]
  exact congrArg (List.dropWhile (· == ' ')) hr

-- No keyword begins like `export`, so there is only one way to read a line.
theorem rest_statementHead (hi : Spaces indent) (he : Exported exported) (hk : keyword ∈ binders) :
    (statementHead (indent ++ (exported ++ (keyword ++ rest)))).rest = keyword ++ rest := by
  have ⟨hs, hw⟩ : (keyword ++ rest).head? ≠ some ' ' ∧ ¬"export".toList <+: keyword ++ rest := by
    simp only [binders, List.mem_cons, List.not_mem_nil, or_false] at hk
    rcases hk with rfl | rfl | rfl <;> simp
  rcases he with rfl | ⟨spaces, hsp, rfl⟩
  case inl =>
    have hd := hi.dropWhile_append hs
    rw [← hd] at hw
    exact (rest_statementHead_of_not hw).trans hd
  case inr =>
    have hd := hi.dropWhile_append (by simp : ("export".toList ++ (spaces ++ (keyword ++ rest))).head? ≠ _)
    rw [List.append_assoc, rest_statementHead_of_export hd, hsp.dropWhile_append hs]

theorem exists_oneOf? (hk : keyword ∈ binders) (h : text = keyword ++ rest) :
    ∃ a, Front.oneOf? binders text = some a ∧ a.rest = rest := by
  subst h
  simp only [binders, List.mem_cons, List.not_mem_nil, or_false] at hk
  rcases hk with rfl | rfl | rfl <;> exact ⟨_, rfl, rfl⟩

theorem upToBreak_eq_nil_iff (blanks : Text) : upToBreak blanks = [] ↔ '\n' ∉ blanks := by
  simp only [upToBreak, List.reverse_eq_nil_iff, List.dropWhile_eq_nil_iff, List.mem_reverse, bne_iff_ne]
  exact ⟨fun h hm => h _ hm rfl, fun h c hc he => h (he ▸ hc)⟩

theorem isSome_breakEnd? : (breakEnd? rest).isSome ↔ '\n' ∈ rest.takeWhile isBlank := by
  have hu := upToBreak_eq_nil_iff (rest.takeWhile isBlank)
  by_cases hn : '\n' ∈ rest.takeWhile isBlank
  case pos => simp [breakEnd?, Front.takeWhile, hu, hn]
  case neg => simp [breakEnd?, Front.takeWhile, hu, hn]

theorem isSome_statementEnd? : (statementEnd? rest).isSome ↔ Ends rest := by
  have hs : (Front.char? (· == ';') (rest.dropWhile isBlank)).isSome ↔
      (rest.dropWhile isBlank).head? = some ';' := by
    simp [Front.isSome_char?, Option.any_eq_true]
  rw [Ends, ← hs, ← isSome_breakEnd?, statementEnd?_eq]
  cases h : Front.char? (· == ';') (rest.dropWhile isBlank) <;> simp [Front.takeWhile, h]

theorem opens_iff : Opens line rest ↔
    (Front.oneOf? binders (statementHead line).rest).map (·.rest) = some rest := by
  rw [Option.map_eq_some_iff]
  constructor
  case mp =>
    rintro ⟨indent, exported, keyword, rfl, hi, hx, hk⟩
    exact exists_oneOf? hk (rest_statementHead hi hx hk)
  case mpr =>
    rintro ⟨keyword, hk, rfl⟩
    have ⟨indent, exported, ht, hi, hx⟩ := taken_statementHead line
    refine ⟨indent, exported, keyword.taken, ?_, hi, hx, Front.taken_of_oneOf? hk⟩
    rw [keyword.split, ← List.append_assoc, ← ht, (statementHead line).split]

theorem isSome_bareStatement? : (bareStatement? line).isSome ↔ ∃ rest, Opens line rest ∧ Ends rest := by
  simp only [opens_iff, ← isSome_statementEnd?, bareStatement?]
  cases Front.oneOf? binders (statementHead line).rest
  case none => simp
  case some keyword => cases h : statementEnd? keyword.rest <;> simp [h]

end Reading

section Occurrence

-- The keyword of a variable statement stands at the beginning of a line of the text.
def Declares (text rest : Text) : Prop :=
  ∃ before line, text = before ++ line ∧ (before = [] ∨ before.getLast? = some '\n') ∧ Opens line rest

-- What follows these keywords, each of which is found by trying every place of the text.
def declared (text : Text) : List Text :=
  (List.range (text.length + 1)).filterMap fun n =>
    if text.take n = [] ∨ (text.take n).getLast? = some '\n' then
      (Front.oneOf? binders (statementHead (text.drop n)).rest).map (·.rest)
    else none

theorem mem_declared : rest ∈ declared text ↔ Declares text rest := by
  simp only [declared, List.mem_filterMap, List.mem_range, Option.ite_none_right_eq_some, ← opens_iff]
  constructor
  case mp =>
    rintro ⟨n, _, hb, ho⟩
    exact ⟨text.take n, text.drop n, (List.take_append_drop n text).symm, hb, ho⟩
  case mpr =>
    rintro ⟨before, line, rfl, hb, ho⟩
    refine ⟨before.length, by rw [List.length_append]; omega, ?_, ?_⟩
    case refine_1 => rwa [List.take_left]
    case refine_2 => rwa [List.drop_left]

theorem isSome_statementAfter (start : Front text) :
    (statementAfter start).isSome ↔ (bareStatement? start.rest).isSome := by
  cases h : bareStatement? start.rest
  case none => simp [statementAfter_of_none start h]
  case some =>
    have ⟨_, hs, _⟩ := statementAfter_of_some start h
    simp [hs]

theorem isSome_emptyStatement : (emptyStatement before text).isSome ↔
    before = none ∧ (bareStatement? text).isSome ∨
      ∃ line, text = '\n' :: line ∧ (bareStatement? line).isSome := by
  by_cases hn : text.head? = some '\n'
  case pos =>
    have ⟨line, ht⟩ := List.head?_eq_some_iff.mp hn
    subst ht
    have hb : bareStatement? ('\n' :: line) = none := rfl
    simp [emptyStatement_break, isSome_statementAfter, hb]
  case neg =>
    have hl : ¬∃ line, text = '\n' :: line ∧ (bareStatement? line).isSome := by
      rintro ⟨_, ht, _⟩
      exact hn (ht ▸ rfl)
    rw [emptyStatement_of_ne hn, or_iff_left hl]
    cases before <;> simp [isSome_statementAfter, Front.nothing]

theorem emptyStatement_occurs_iff :
    emptyStatement.Occurs text ↔ ∃ rest, Declares text rest ∧ Ends rest := by
  constructor
  case mp =>
    rintro ⟨a, b, rfl, h⟩
    rcases isSome_emptyStatement.mp h with ⟨ha, hb⟩ | ⟨line, rfl, hb⟩
    case inl =>
      have ⟨rest, ho, he⟩ := isSome_bareStatement?.mp hb
      exact ⟨rest, ⟨a, b, rfl, .inl (List.getLast?_eq_none_iff.mp ha), ho⟩, he⟩
    case inr =>
      have ⟨rest, ho, he⟩ := isSome_bareStatement?.mp hb
      exact ⟨rest, ⟨a ++ ['\n'], line, by simp, .inr (by simp), ho⟩, he⟩
  case mpr =>
    rintro ⟨rest, ⟨before, line, rfl, hb, ho⟩, he⟩
    have hs := isSome_bareStatement?.mpr ⟨rest, ho, he⟩
    rcases hb with rfl | hb
    case inl => exact ⟨[], line, rfl, isSome_emptyStatement.mpr <| .inl ⟨rfl, hs⟩⟩
    case inr =>
      obtain ⟨a, rfl⟩ := List.getLast?_eq_some_iff.mp hb
      exact ⟨a, '\n' :: line, by simp, isSome_emptyStatement.mpr <| .inr ⟨line, rfl, hs⟩⟩

end Occurrence

-- Whether a binding can begin with this character: a name, or a pattern that takes a value apart.
def opensBinding (c : Char) : Bool :=
  isWord c || c == '$' || c == '\x7b' || c == '['

set_option maxRecDepth 4000 in
theorem opensBinding_semicolon : opensBinding ';' = false := by
  rw [opensBinding, isWord, wordRanges, List.any_toArray]
  decide

theorem opensBinding_a : opensBinding 'a' = true := by
  rw [opensBinding, isWord, wordRanges, List.any_toArray]
  decide

end Repair

namespace Text

open Repair

variable {text : Text}

-- Where each variable statement has something to bind, it is left alone if and only if this begins on the
-- line of the keyword.
theorem repaired_bindings (keepLines : Bool) (hs : ¬separator.Occurs text)
    (hb : ∀ rest, Declares text rest → ∃ c ∈ (rest.dropWhile isBlank).head?, opensBinding c) :
    text.repaired keepLines = text ↔ ∀ rest, Declares text rest → '\n' ∉ rest.takeWhile isBlank := by
  rw [repaired_eq_self_iff, and_iff_right hs, emptyStatement_occurs_iff]
  simp only [not_exists, not_and]
  refine forall_congr' fun rest => imp_congr_right fun hd => ?_
  have hn : (rest.dropWhile isBlank).head? ≠ some ';' := fun he => by
    have ⟨c, hc, ho⟩ := hb rest hd
    cases he.symm.trans hc
    simp [opensBinding_semicolon] at ho
  rw [Ends, or_iff_right hn]

-- The binding follows on the next line.
def wrapped : Text :=
  "const\n  a = 1;\n".toList

theorem repaired_wrapped : ¬separator.Occurs wrapped ∧
    (∀ rest, Declares wrapped rest → ∃ c ∈ (rest.dropWhile isBlank).head?, opensBinding c) ∧
    wrapped.repaired false = "  a = 1;\n".toList ∧ wrapped.repaired false ≠ wrapped := by
  have hd : declared wrapped = ["\n  a = 1;\n".toList] := by decide +kernel
  refine ⟨(separator.pass_eq_self_iff false wrapped).mp (by decide +kernel), fun rest h => ?_,
    by decide +kernel⟩
  rw [← mem_declared, hd, List.mem_singleton] at h
  exact ⟨'a', by rw [h]; decide, opensBinding_a⟩

-- A statement that is exported, and one that is not.
def straight : Text :=
  "export const a = 1;\n  let\t[b] = c;\n".toList

theorem repaired_bindings_straight : ¬separator.Occurs straight ∧
    (∀ rest, Declares straight rest → ∃ c ∈ (rest.dropWhile isBlank).head?, opensBinding c) ∧
    Declares straight "\t[b] = c;\n".toList ∧ straight.repaired false = straight := by
  have hd : declared straight = [" a = 1;\n  let\t[b] = c;\n".toList, "\t[b] = c;\n".toList] := by
    decide +kernel
  have hs : ¬separator.Occurs straight := (separator.pass_eq_self_iff false straight).mp (by decide +kernel)
  have hb : ∀ rest, Declares straight rest → ∃ c ∈ (rest.dropWhile isBlank).head?, opensBinding c := by
    intro rest h
    rw [← mem_declared, hd, List.mem_pair] at h
    rcases h with rfl | rfl
    case inl => exact ⟨'a', by decide, opensBinding_a⟩
    case inr => exact ⟨'[', by decide, by simp [opensBinding]⟩
  refine ⟨hs, hb, mem_declared.mp (by rw [hd]; decide), (repaired_bindings false hs hb).mpr ?_⟩
  intro rest h
  rw [← mem_declared, hd, List.mem_pair] at h
  rcases h with rfl | rfl <;> decide

end Text

end DeadCode
