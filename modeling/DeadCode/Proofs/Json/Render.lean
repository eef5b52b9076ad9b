import DeadCode.Json.Fragment
import Mathlib.Data.List.Forall2
import Mathlib.Tactic.IntervalCases

namespace DeadCode.Json

mutual

-- The fragment that a rendered document is read as: members are in the order of their keys, and numbers of
-- more than 64 bits have lost their value.
def written : Json → Fragment
  | .null => .null
  | .bool value => .bool value
  | .nat value => .number (if value < 2 ^ 64 then some value else none)
  | .string value => .string (some value)
  | .array items => .array (writtenItems items) true
  | .object members =>
    let sorted := (writtenMembers members).mergeSort fun a b => a.1 ≤ b.1
    .object (sorted.map fun (key, value) => (some key, value)) true

def writtenItems : List Json → List Fragment
  | [] => []
  | item :: items => item.written :: writtenItems items

def writtenMembers : List (String × Json) → List (String × Fragment)
  | [] => []
  | (key, value) :: members => (key, value.written) :: writtenMembers members

end

theorem writtenItems_eq (items : List Json) : writtenItems items = items.map written := by
  induction items <;> simp_all [writtenItems]

theorem writtenMembers_eq (members : List (String × Json)) :
    writtenMembers members = members.map fun m => (m.1, m.2.written) := by
  induction members <;> simp_all [writtenMembers]

theorem writeItems_eq (depth : Nat) (items : List Json) :
    writeItems depth items = items.map (write depth) := by
  induction items <;> simp_all [writeItems]

theorem writeMembers_eq (depth : Nat) (members : List (String × Json)) :
    writeMembers depth members = members.map fun m => (m.1, m.2.write depth) := by
  induction members <;> simp_all [writeMembers]

-- The members of an object in the order of their keys.
def byKey (members : List (String × Json)) : List (String × Json) :=
  members.mergeSort fun a b => a.1 ≤ b.1

theorem mergeSort_members (f : Json → α) (members : List (String × Json)) :
    (members.map fun m => (m.1, f m.2)).mergeSort (fun a b => a.1 ≤ b.1) =
      (byKey members).map fun m => (m.1, f m.2) := by
  rw [byKey, List.map_mergeSort]
  exact fun _ _ _ _ => rfl

theorem written_object (members : List (String × Json)) :
    (object members).written = .object ((byKey members).map fun m => (some m.1, m.2.written)) true := by
  simp [written, writtenMembers_eq, mergeSort_members]

theorem write_object (depth : Nat) (members : List (String × Json)) :
    (object members).write depth = bracket "\x7b" "\x7d" depth
      ((byKey members).map fun m => quote m.1 ++ ": " ++ m.2.write (depth + 1)) := by
  simp [write, writeMembers_eq, mergeSort_members, Function.comp_def]

theorem toList_newline (depth : Nat) :
    (newline depth).toList = '\n' :: List.replicate (2 * depth) ' ' := by
  have h (n : Nat) : ("".pushn ' ' n).toList = List.replicate n ' ' := by
    induction n
    case zero => rfl
    case succ n hi =>
      rw [String.pushn_eq_repeat_push] at hi ⊢
      rw [Nat.repeat, String.toList_push, hi, List.replicate_succ']
  simp [newline, h]

theorem hexDigit?_digitChar : ∀ d < 16, hexDigit? (Nat.digitChar d) = some d := by
  decide

namespace Lexer

-- What the tokens make up that have been read.
def assembly (lexer : Lexer) : Assembly :=
  lexer.tokens.reverse.foldl Assembly.step {}

structure Between (a : Assembly) (lexer : Lexer) : Prop where
  mode     : lexer.mode = .between
  assembly : lexer.assembly = a

-- A lexer that does not differ from one between two tokens, neither at the end of the text nor at a
-- character that ends numbers.
def Beyond (a : Assembly) (lexer : Lexer) : Prop :=
  ∃ other, Between a other ∧ lexer.finish = other.finish ∧
    ∀ c, c = ',' ∨ c = '\n' → lexer.step c = other.step c

-- A text that takes a lexer from between two tokens to between two others.
def Passes (text : List Char) (a b : Assembly) : Prop :=
  ∀ lexer, Between a lexer → Between b (text.foldl step lexer)

-- A text that takes a lexer from between two tokens beyond others.
def Reads (text : List Char) (a b : Assembly) : Prop :=
  ∀ lexer, Between a lexer → Beyond b (text.foldl step lexer)

variable {a b c : Assembly} {s t : List Char} {lexer : Lexer}

theorem Between.beyond (h : Between a lexer) : Beyond a lexer :=
  ⟨lexer, h, rfl, fun _ _ => rfl⟩

theorem Passes.reads (h : Passes s a b) : Reads s a b :=
  fun lexer hb => (h lexer hb).beyond

theorem Passes.append (hs : Passes s a b) (ht : Passes t b c) : Passes (s ++ t) a c := by
  intro lexer hb
  rw [List.foldl_append]
  exact ht _ (hs lexer hb)

theorem Passes.append_reads (hs : Passes s a b) (ht : Reads t b c) : Reads (s ++ t) a c := by
  intro lexer hb
  rw [List.foldl_append]
  exact ht _ (hs lexer hb)

theorem Reads.append (hs : Reads s a b) (ht : Passes (x :: t) b c) (hx : x = ',' ∨ x = '\n') :
    Passes (s ++ x :: t) a c := by
  intro lexer hb
  have ⟨other, ho, _, hstep⟩ := hs lexer hb
  rw [List.foldl_append, List.foldl_cons, hstep x hx]
  exact ht other ho

-- A text with one token.
theorem passes_of_emit (h : ∀ tokens, s.foldl step ⟨tokens, .between⟩ = ⟨token :: tokens, .between⟩) :
    Passes s a (a.step token) := by
  rintro ⟨tokens, _⟩ ⟨rfl, rfl⟩
  rw [h]
  exact ⟨rfl, by simp [assembly]⟩

theorem passes_blank (h : ∀ c ∈ s, c = ' ' ∨ c = '\n') : Passes s a a := by
  induction s
  case nil => exact fun _ => id
  case cons c s hi =>
    have ⟨hc, hs⟩ := List.forall_mem_cons.mp h
    rintro ⟨tokens, _⟩ ⟨rfl, ha⟩
    have hb : Between a (step ⟨tokens, .between⟩ c) := by
      rcases hc with rfl | rfl <;> exact ⟨rfl, ha⟩
    exact hi hs _ hb

theorem passes_newline (depth : Nat) : Passes (newline depth).toList a a := by
  rw [toList_newline]
  exact passes_blank (by simp)

theorem foldl_escapeChar (c : Char) (tokens : List Token) (chars : List Char) :
    (escapeChar c).foldl step ⟨tokens, .string { chars := some chars }⟩ =
      ⟨tokens, .string { chars := some (c :: chars) }⟩ := by
  unfold escapeChar
  split
  case h_1 | h_2 | h_3 | h_4 | h_5 | h_6 | h_7 => rfl
  split
  -- A control character is written with four digits, and begins with two zeros.
  case isTrue h =>
    have h₁ := hexDigit?_digitChar (c.toNat / 16) (by omega)
    have h₂ := hexDigit?_digitChar (c.toNat % 16) (by omega)
    have hv : 16 * (c.toNat / 16) + c.toNat % 16 = c.toNat := by omega
    have hu : StringPart.pushUnit { chars := some chars, escape := .unicode 3 (c.toNat / 16) } c.toNat =
        { chars := some (c :: chars) } := by
      have : ¬0xD800 ≤ c.toNat := by omega
      have : ¬0xDC00 ≤ c.toNat := by omega
      simp [StringPart.pushUnit, StringPart.push, *]
    simp [step, stringChar, h₁, h₂, hv, hu, show hexDigit? '0' = some 0 from rfl]
  case isFalse hq hb _ _ _ _ _ h =>
    have hq : c ≠ '"' := hq
    have hb : c ≠ '\\' := hb
    simp [step, stringChar, StringPart.push, hq, hb, h]

theorem foldl_quote (s : String) (tokens : List Token) :
    (quote s).toList.foldl step ⟨tokens, .between⟩ = ⟨.string (some s) :: tokens, .between⟩ := by
  have h (cs chars : List Char) :
      (cs.flatMap escapeChar).foldl step ⟨tokens, .string { chars := some chars }⟩ =
        ⟨tokens, .string { chars := some (cs.reverse ++ chars) }⟩ := by
    induction cs generalizing chars
    case nil => rfl
    case cons c cs hi => simp [List.foldl_append, foldl_escapeChar, hi]
  have hb : step ⟨tokens, .between⟩ '"' = ⟨tokens, .string { chars := some [] }⟩ := rfl
  have he : step ⟨tokens, .string { chars := some s.toList.reverse }⟩ '"' =
      ⟨.string (some s) :: tokens, .between⟩ := by
    simp [step, stringChar, StringPart.value, emit]
  simp [quote, hb, h, he]

theorem next?_digits (h : d < 10) : NumberPart.digits.next? d.digitChar = some .digits := by
  have he : d ≠ 14 := by omega
  simp [NumberPart.next?, Nat.isDigit_digitChar, h, he]

-- All digits of a number but the last are those of its tenth part.
theorem foldl_toDigits (tokens : List Token) (h : 0 < n) :
    (Nat.toDigits 10 n).foldl step ⟨tokens, .between⟩ = ⟨tokens, .number .digits true n⟩ := by
  induction n using Nat.strongRecOn
  case ind n hi =>
    rcases Nat.lt_or_ge n 10 with hn | hn
    case inl =>
      rw [Nat.toDigits_of_lt_base hn]
      interval_cases n <;> rfl
    case inr =>
      rw [Nat.toDigits_of_base_le (by decide) hn, List.foldl_append, hi (n / 10) (by omega) (by omega)]
      have hd : n % 10 < 10 := by omega
      have hv : 10 * (n / 10) + n % 10 = n := by omega
      simp [step, next?_digits hd, Nat.toNat_digitChar_sub_48_of_lt_ten hd, hv]

theorem reads_repr (n : Nat) : Reads n.repr.toList a (a.step (numberToken true n)) := by
  rintro ⟨tokens, _⟩ ⟨rfl, rfl⟩
  rw [Nat.toList_repr]
  refine ⟨⟨numberToken true n :: tokens, .between⟩, ⟨rfl, by simp [assembly]⟩, ?_⟩
  rcases n.eq_zero_or_pos with rfl | hn
  case inl => exact ⟨rfl, by rintro c (rfl | rfl) <;> rfl⟩
  case inr =>
    rw [foldl_toDigits tokens hn]
    exact ⟨rfl, by rintro c (rfl | rfl) <;> rfl⟩

end Lexer

namespace Assembly

-- A place in the document where a value can begin.
def AtValue (a : Assembly) : Prop :=
  a.expected = .value ∨ a.expected = .valueOrEnd

-- The assembly with one more bracket open.
def within (a : Assembly) (bracket : Bracket) (expected : Expected) : Assembly :=
  { a with brackets := bracket :: a.brackets, expected := expected }

variable {a : Assembly}

theorem AtValue.step_eq (h : a.AtValue) (ht : token ≠ .closeArray) : a.step token = a.beginValue token := by
  rcases h with h | h <;> simp [step, h, ht]

-- It does not matter what has been expected before a value.
theorem put_expected (a : Assembly) (value : Fragment) (expected : Expected) :
    { a with expected := expected }.put value = a.put value := by
  obtain ⟨brackets, _, _, _⟩ := a
  rcases brackets with _ | ⟨_ | _ | _, _⟩ <;> rfl

end Assembly

open Assembly

-- A kind of brackets, with what is expected before the first item and before the next ones.
structure Enclosure (α : Type) where
  frame        : List α → Bracket
  value        : List α → Fragment
  opening      : Token
  closing      : Token
  first        : Expected
  next         : Expected
  step_opening : ∀ {a : Assembly}, a.AtValue → a.step opening = a.within (frame []) first
  step_comma   : ∀ (a : Assembly) ys, (a.within (frame ys) .commaOrEnd).step .comma = a.within (frame ys) next
  step_closing : ∀ (a : Assembly) ys e, e = .commaOrEnd ∨ e = first ∧ ys = [] →
    (a.within (frame ys) e).step closing = a.put (value ys.reverse)

namespace Enclosure

def array : Enclosure Fragment where
  frame := .array
  value := (.array · true)
  opening := .openArray
  closing := .closeArray
  first := .valueOrEnd
  next := .value
  step_opening ha := ha.step_eq nofun
  step_comma _ _ := rfl
  step_closing a ys e he := by
    rcases he with rfl | ⟨rfl, rfl⟩ <;> exact put_expected a _ _

def object : Enclosure (Option String × Fragment) where
  frame := .object
  value := (.object · true)
  opening := .openObject
  closing := .closeObject
  first := .keyOrEnd
  next := .key
  step_opening ha := ha.step_eq nofun
  step_comma _ _ := rfl
  step_closing a ys e he := by
    rcases he with rfl | ⟨rfl, rfl⟩ <;> exact put_expected a _ _

-- A text that is read as an item.
def Holds (k : Enclosure α) (a : Assembly) (text : List Char) (y : α) : Prop :=
  ∀ ys e, e = k.first ∨ e = k.next →
    Lexer.Reads text (a.within (k.frame ys) e) (a.within (k.frame (y :: ys)) .commaOrEnd)

variable {k : Enclosure α} {a : Assembly} {values : List α}

open Lexer

theorem reads_items {texts : List (List Char)} (hi : texts.Forall₂ (k.Holds a) values) (hn : texts ≠ [])
    (he : e = k.first ∨ e = k.next) (depth : Nat) (ys : List α) :
    Reads ((',' :: (newline depth).toList).intercalate texts) (a.within (k.frame ys) e)
      (a.within (k.frame (values.reverse ++ ys)) .commaOrEnd) := by
  induction hi generalizing ys e
  case nil => contradiction
  case cons text value texts values h ht hi =>
    cases ht
    case nil => simpa using h ys e he
    case cons text' value' texts values h' ht =>
      have hcomma : Passes [','] (a.within (k.frame (value :: ys)) .commaOrEnd) _ :=
        passes_of_emit fun _ => rfl
      have hsep := (h ys e he).append (hcomma.append (passes_newline depth)) (.inl rfl)
      rw [k.step_comma] at hsep
      have hrest := hi (List.cons_ne_nil _ _) (.inr rfl) (value :: ys)
      simpa using hsep.append_reads hrest

theorem passes_bracket {texts : List String} (ha : a.AtValue)
    (ho : ∀ a, Passes left.toList a (a.step k.opening))
    (hc : ∀ a, Passes right.toList a (a.step k.closing))
    (hi : texts.Forall₂ (fun text => k.Holds a text.toList) values) :
    Passes (bracket left right depth texts).toList a (a.put (k.value values)) := by
  have ho := k.step_opening ha ▸ ho a
  have hc ys e he := k.step_closing a ys e he ▸ hc (a.within (k.frame ys) e)
  by_cases hn : texts = []
  case pos =>
    subst hn
    cases hi
    simpa [bracket] using ho.append (hc [] k.first (.inr ⟨rfl, rfl⟩))
  case neg =>
    have hi := reads_items (List.forall₂_map_left_iff.mpr hi) (by simpa using hn) (.inl rfl) (depth + 1) []
    have hl : Passes ('\n' :: List.replicate (2 * depth) ' ')
        (a.within (k.frame (values.reverse ++ [])) .commaOrEnd) _ :=
      toList_newline depth ▸ passes_newline depth
    have hc := hc (values.reverse ++ []) _ (.inl rfl)
    have h := (ho.append (passes_newline (depth + 1))).append ((hi.append hl (.inr rfl)).append hc)
    simpa [bracket, hn, String.toList_intercalate, toList_newline] using h

end Enclosure

open Lexer

-- A document that is read back wherever it stands.
def Readable (json : Json) : Prop :=
  ∀ depth a, AtValue a → Reads (json.write depth).toList a (a.put json.written)

-- A document that is written as a single token.
theorem readable_of_token (token : Token) (hw : ∀ depth, json.write depth = text)
    (h : ∀ a, Reads text.toList a (a.step token)) (ht : token ≠ .closeArray)
    (hb : ∀ a, Assembly.beginValue a token = a.put json.written) : Readable json := by
  intro depth a ha
  rw [hw, ← hb, ← ha.step_eq ht]
  exact h a

theorem readable_array (h : ∀ item ∈ items, Readable item) : Readable (.array items) := by
  intro depth a ha
  simp only [write, written, writeItems_eq, writtenItems_eq]
  refine (Enclosure.array.passes_bracket ha (fun _ => passes_of_emit fun _ => rfl)
    (fun _ => passes_of_emit fun _ => rfl) ?_).reads
  simp only [List.forall₂_map_left_iff, List.forall₂_map_right_iff, List.forall₂_same]
  exact fun item hi ys e he => h item hi (depth + 1) _ he.symm

theorem readable_object (h : ∀ m ∈ members, Readable m.2) : Readable (.object members) := by
  intro depth a ha
  rw [write_object, written_object]
  refine (Enclosure.object.passes_bracket ha (fun _ => passes_of_emit fun _ => rfl)
    (fun _ => passes_of_emit fun _ => rfl) ?_).reads
  simp only [List.forall₂_map_left_iff, List.forall₂_map_right_iff, List.forall₂_same]
  intro m hm ys e he
  let keyed := a.within (.keyed ys (some m.1))
  have hk : Passes (quote m.1).toList (a.within (.object ys) e) (keyed .colon) := by
    have h := passes_of_emit (a := a.within (.object ys) e) (foldl_quote m.1)
    rcases he with rfl | rfl <;> exact h
  have hc : Passes ": ".toList (keyed .colon) (keyed .value) :=
    (passes_of_emit fun _ => rfl : Passes _ _ (step _ .colon))
  have hv := h m (List.mem_mergeSort.mp hm) (depth + 1) (keyed .value) (.inl rfl)
  simp only [String.toList_append]
  exact (hk.append hc).append_reads hv

theorem readable_bool (value : Bool) : Readable (.bool value) := by
  refine readable_of_token (.bool value) (fun _ => by rw [write]) (fun _ => ?_) nofun fun _ => rfl
  cases value <;> exact (passes_of_emit fun _ => rfl).reads

theorem readable_nat (value : Nat) : Readable (.nat value) :=
  readable_of_token (numberToken true value) (fun _ => by rw [write]) (fun _ => reads_repr value) nofun
    fun _ => by simp [numberToken, beginValue, written]

mutual

theorem readable : (json : Json) → Readable json
  | .null => readable_of_token .null (fun _ => by rw [write])
    (fun _ => (passes_of_emit fun _ => rfl).reads) nofun fun _ => rfl
  | .bool value => readable_bool value
  | .nat value => readable_nat value
  | .string value => readable_of_token (.string (some value)) (fun _ => by rw [write])
    (fun _ => (passes_of_emit (foldl_quote value)).reads) nofun fun _ => rfl
  | .array items => readable_array (readable_items items)
  | .object members => readable_object (readable_members members)

theorem readable_items : (items : List Json) → ∀ item ∈ items, Readable item
  | [] => nofun
  | item :: items => List.forall_mem_cons.mpr ⟨readable item, readable_items items⟩

theorem readable_members : (members : List (String × Json)) → ∀ m ∈ members, Readable m.2
  | [] => nofun
  | (_, value) :: members => List.forall_mem_cons.mpr ⟨readable value, readable_members members⟩

end

theorem read_render (json : Json) : read json.render = (json.written, true) := by
  have ⟨other, hb, hf, _⟩ := readable json 0 {} (.inl rfl) {} ⟨rfl, rfl⟩
  have ht : tokenize json.render = (other.tokens.reverse, true) := by
    refine Eq.trans hf ?_
    simp [finish, hb.mode]
  have ha : other.tokens.reverse.foldl Assembly.step {} = Assembly.put {} json.written := hb.assembly
  simp [read, ht, ha, Assembly.put]

end DeadCode.Json
