import DeadCode.Proofs.Edit.Lines
import DeadCode.Proofs.Repair.NameList
import Mathlib.Data.Set.List

namespace DeadCode

open Text

section

variable {c : α} {x rest before after tail : List α}

theorem exists_append_of_not_mem (hc : c ∉ x) (h : x ++ rest = before ++ c :: after) :
    ∃ m, before = x ++ m ∧ rest = m ++ c :: after := by
  rcases List.append_eq_append_iff.mp h with ⟨m, hb, hr⟩ | ⟨m, hx, hr⟩
  case inl => exact ⟨m, hb, hr⟩
  case inr =>
    subst hx
    cases m
    case nil => exact ⟨[], by simp, by simpa using hr.symm⟩
    case cons d m =>
      cases hr
      simp at hc

-- Where a separator stands, one item ends and another one follows.
theorem exists_item_of_intercalate {items : List (List α)} (hc : ∀ x ∈ items, c ∉ x) (ht : c ∉ tail)
    (h : [c].intercalate items ++ tail = before ++ c :: after) : ∃ front x more,
      items = front ++ x :: more ∧ before = front.flatMap (· ++ [c]) ++ x := by
  induction items generalizing before
  case nil =>
    rw [List.intercalate_nil, List.nil_append] at h
    simp [h] at ht
  case cons x items hi =>
    rw [List.forall_mem_cons] at hc
    cases items
    case nil =>
      rw [List.intercalate_singleton] at h
      have : c ∈ x ++ tail := by simp [h]
      simp [hc.left, ht] at this
    case cons y items =>
      rw [List.intercalate_cons_cons, List.append_assoc, List.append_assoc, List.singleton_append] at h
      obtain ⟨m, rfl, hm⟩ := exists_append_of_not_mem hc.left h
      cases m
      case nil => exact ⟨[], x, y :: items, rfl, by simp⟩
      case cons d m =>
        have ⟨hd, hr⟩ := List.cons.inj hm
        have ⟨front, z, more, he, hf⟩ := hi hc.right hr
        exact ⟨x :: front, z, more, by rw [he]; rfl, by simp [hf, hd]⟩

end

namespace Repair

-- A list with entries of any kind, and commas between them.
-- No entry reaches beyond a comma or a brace.
structure NameList where
  opening : Opening
  entries : List Text
  whole   : ∀ e ∈ entries, ',' ∉ e ∧ '\x7b' ∉ e ∧ '\x7d' ∉ e

namespace NameList

def text (l : NameList) : Text :=
  l.opening.list l.entries

-- Before some place of the list, there is an entry that is not empty and no plain name either.
def Obscured (l : NameList) (before : Text) : Prop :=
  ∃ front entry more, l.entries = front ++ entry :: more ∧
    l.opening.text ++ (front.flatMap (· ++ [',']) ++ entry) <+: before ∧ ∀ s : Slot, s.text ≠ entry

end NameList

-- The list is part of the text, and its keyword is a word of its own.
def Stands (l : NameList) (text : Text) : Prop :=
  ∃ a b, text = a ++ (l.text ++ b) ∧ a.getLast?.all (!isWord ·)

-- What comes before a comma, if it is a stray one: a brace or another comma, and blanks.
def Dangles (before : Text) : Prop :=
  ∃ (front : Text) (c : Char) (blanks : Blanks), before = front ++ c :: blanks.text ∧ c ∈ ['\x7b', ',']

section Lists

variable {text rest front entry before after : Text} {prev : Option Char}

theorem isBlank_of_dangles (hx : ',' ∉ entry ∧ '\x7b' ∉ entry) (h : Dangles (front ++ entry)) :
    ∀ c ∈ entry, isBlank c := by
  have ⟨a, c, blanks, hd, hc⟩ := h
  have hc : c ∉ entry := by
    rcases List.mem_pair.mp hc with rfl | rfl
    case inl => exact hx.right
    case inr => exact hx.left
  rcases List.append_eq_append_iff.mp hd with ⟨m, hf, hm⟩ | ⟨m, hf, hm⟩
  case inl => simp [hm] at hc
  case inr =>
    cases m
    case nil =>
      rw [List.nil_append] at hm
      simp [← hm] at hc
    case cons d m =>
      have hm := (List.cons.inj hm).right
      exact fun c hc => blanks.blank c (hm ▸ List.mem_append_right m hc)

-- The induction is on the slots that have not been looked at. Those before them hold names.
theorem isSome_separator (o : Opening) (hp : prev.all (!isWord ·)) {done : List Slot}
    (hd : ∀ s ∈ done, s.isFilled) (more : List Slot) (blanks : Blanks)
    (h : text = o.text ++ (listed (done ++ more) ++ (blanks.text ++ ',' :: rest))) :
    (separator prev text).isSome := by
  induction more generalizing done
  case nil =>
    rw [List.append_nil] at h
    obtain ⟨_, hs, _⟩ := separator_of_empty o hp hd blanks h
    simp [hs]
  case cons s more hi =>
    cases s
    case filled before name after =>
      have hd : ∀ s ∈ done ++ [.filled before name after], s.isFilled := by
        simpa [or_imp, forall_and] using ⟨hd, rfl⟩
      exact hi hd (by simpa using h)
    case empty first =>
      have h : text = o.text ++ (listed done ++
          (first.text ++ ',' :: (listed more ++ (blanks.text ++ ',' :: rest)))) := by
        simpa [listed, Slot.text] using h
      obtain ⟨_, hs, _⟩ := separator_of_empty o hp hd first h
      simp [hs]

theorem Opening.comma_not_mem (o : Opening) : ',' ∉ o.text := by
  have hs : ',' ∉ o.stem := o.not_mem_stem (by decide) (by decide)
  have ht : o.text = o.stem ++ ['\x7b'] := by simpa using o.text_eq []
  simp [ht, hs]

-- A stray comma is found, unless there is an entry before it that is not read.
theorem obscured_of_stands {l : NameList} (ho : ¬separator.Occurs text) (hs : Stands l text)
    (hl : l.text = before ++ ',' :: after) (hd : Dangles before) : l.Obscured before := by
  by_contra hn
  have ⟨a, b, ht, hp⟩ := hs
  obtain ⟨m, rfl, hm⟩ := exists_append_of_not_mem l.opening.comma_not_mem hl
  obtain ⟨front, entry, more, he, rfl⟩ :=
    exists_item_of_intercalate (fun e he => (l.whole e he).left) (by simp) hm
  have hb : ∀ c ∈ entry, isBlank c := by
    have hw := l.whole entry (by simp [he])
    rw [← List.append_assoc] at hd
    exact isBlank_of_dangles ⟨hw.left, hw.right.left⟩ hd
  -- Entries that are empty or plain names are slots, and the first empty one among them is found.
  have hf : front ∈ Set.range (List.map Slot.text) := by
    rw [Set.range_list_map]
    intro e hm
    by_contra hr
    obtain ⟨above, below, rfl⟩ := List.append_of_mem hm
    refine hn ⟨above, e, below ++ entry :: more, by simp [he], ?_, fun s hs => hr ⟨s, hs⟩⟩
    simp
  obtain ⟨slots, rfl⟩ := hf
  have ht' : l.text ++ b = l.opening.text ++ (listed slots ++ (entry ++ ',' :: (after ++ b))) := by
    rw [hl]
    simp [listed, List.flatMap_map]
  exact ho ⟨a, _, ht, isSome_separator l.opening hp (List.forall_mem_nil _) slots ⟨entry, hb⟩ ht'⟩

end Lists

section Statements

-- What is left of a statement, on a line of its own: an indentation, the word `export` and a gap behind it,
-- a keyword, and a semicolon. Neither `export` nor the semicolon has to be there.
structure Remnant where
  indent    : Text
  gap       : Option Text
  keyword   : Text
  blanks    : Blanks
  semicolon : Option Blanks
  indented  : ∀ c ∈ indent, c ∈ [' ', '\t']
  gapped    : ∀ g ∈ gap, ∀ c ∈ g, c ∈ [' ', '\t']
  isBinder  : keyword ∈ binders

namespace Remnant

def exported (r : Remnant) : Text :=
  r.gap.elim [] ("export".toList ++ ·)

def ending (r : Remnant) : Text :=
  r.blanks.text ++ r.semicolon.elim [] (';' :: ·.text)

def text (r : Remnant) : Text :=
  r.indent ++ (r.exported ++ (r.keyword ++ r.ending))

-- A tab stands before the keyword.
def Tabbed (r : Remnant) : Prop :=
  '\t' ∈ r.indent ++ r.exported

end Remnant

variable {text : Text}

theorem spaces_of_not_mem (h : ∀ c ∈ text, c ∈ [' ', '\t']) (ht : '\t' ∉ text) : Spaces text := by
  intro c hc
  refine (List.mem_pair.mp (h c hc)).resolve_right ?_
  rintro rfl
  exact ht hc

theorem Remnant.opens (r : Remnant) (ht : ¬r.Tabbed) (rest : Text) :
    Opens (r.text ++ rest) (r.ending ++ rest) := by
  have ⟨hi, hx⟩ : '\t' ∉ r.indent ∧ '\t' ∉ r.exported := by simpa [Tabbed] using ht
  refine ⟨r.indent, r.exported, r.keyword, by simp [Remnant.text], spaces_of_not_mem r.indented hi, ?_,
    r.isBinder⟩
  cases hg : r.gap
  case none => exact .inl (by simp [exported, hg])
  case some gap =>
    refine .inr ⟨gap, spaces_of_not_mem (r.gapped gap hg) fun h => ?_, by simp [exported, hg]⟩
    simp [exported, hg, h] at hx

theorem Remnant.ends (r : Remnant) (rest : Text) (h : r.semicolon = none → rest.head? = some '\n') :
    Ends (r.ending ++ rest) := by
  rw [Ends, ending, List.append_assoc, List.dropWhile_append_of_pos r.blanks.blank,
    List.takeWhile_append_of_pos r.blanks.blank]
  cases hs : r.semicolon
  case none =>
    obtain ⟨more, hr⟩ := List.head?_eq_some_iff.mp (h hs)
    have hn : isBlank '\n' := by decide
    exact .inr (by simp [hr, hn])
  case some after =>
    have hn : isBlank ';' = false := by decide
    exact .inl (by simp [hn])

-- Each line of a text begins where the text does or behind a line break.
theorem exists_rest_of_lines {line : Text} (h : text.lines = above ++ line :: below) :
    ∃ before rest, text = before ++ (line ++ rest) ∧ (before = [] ∨ before.getLast? = some '\n') ∧
      (below ≠ [] → rest.head? = some '\n') := by
  have ht : ['\n'].intercalate text.lines = text := List.intercalate_splitOn '\n'
  rw [h, intercalate_append_cons] at ht
  have hb : above.flatMap (· ++ ['\n']) = [] ∨
      (above.flatMap (· ++ ['\n'])).getLast? = some '\n' := by
    cases above using List.reverseRecOn
    case nil => exact .inl rfl
    case append_singleton => exact .inr (by simp)
  cases below
  case nil => exact ⟨_, [], by rw [← ht]; simp, hb, by simp⟩
  case cons next below =>
    refine ⟨_, '\n' :: ['\n'].intercalate (next :: below), ?_, hb, fun _ => rfl⟩
    rw [← ht, List.intercalate_cons_cons]
    simp

theorem occurs_of_remnant (r : Remnant) (ht : ¬r.Tabbed) (h : text.lines = above ++ r.text :: below)
    (hb : r.semicolon = none → below ≠ []) : emptyStatement.Occurs text := by
  have ⟨before, rest, he, hl, hr⟩ := exists_rest_of_lines h
  have hd : Declares text (r.ending ++ rest) := ⟨before, r.text ++ rest, he, hl, r.opens ht rest⟩
  exact emptyStatement_occurs_iff.mpr ⟨_, hd, r.ends rest fun hs => hr (hb hs)⟩

end Statements

end Repair

namespace Text

open Repair

-- A stray comma that is left has an entry before it that is not read, or its list is one that the removal of
-- empty statements has put together. An empty statement that is left has a tab before its keyword, or it
-- comes last and has no semicolon.
theorem repaired_remains (text : Text) (keepLines : Bool) :
    (∀ l before after, Stands l (text.repaired keepLines) → l.text = before ++ ',' :: after →
      Dangles before → l.Obscured before ∨
        emptyStatement.Occurs (text.uncluttered keepLines) ∧ ¬Stands l (text.uncluttered keepLines)) ∧
    (∀ (r : Remnant) above below, (text.repaired keepLines).lines = above ++ r.text :: below →
      r.Tabbed ∨ r.semicolon = none ∧ below = []) := by
  constructor
  case left =>
    intro l before after hs hl hd
    by_cases hu : Stands l (text.uncluttered keepLines)
    case pos => exact .inl <| obscured_of_stands (separator.not_occurs_settle keepLines text) hu hl hd
    case neg =>
      refine .inr ⟨?_, hu⟩
      by_contra ho
      rw [repaired_of_uncluttered, Pattern.settle_of_not_occurs keepLines ho] at hs
      exact hu hs
  case right =>
    intro r above below h
    by_contra hn
    rw [not_or, not_and] at hn
    exact text.not_occurs_repaired keepLines (occurs_of_remnant r hn.left h hn.right)

-- An entry with an alias, a statement behind a tab, and one at the end.
def leftover : Text :=
  "import \x7b a as b, , c \x7d\n\tconst;\nlet".toList

def leftoverList : NameList where
  opening := ⟨"import".toList, ⟨[' '], List.forall_mem_singleton.mpr rfl⟩, by simp⟩
  entries := [" a as b".toList, " ".toList, " c ".toList]
  whole   := by simp

def leftoverConst : Remnant where
  indent    := ['\t']
  gap       := none
  keyword   := "const".toList
  blanks    := ⟨[], by simp⟩
  semicolon := some ⟨[], by simp⟩
  indented  := by simp
  gapped    := by simp
  isBinder  := by simp [binders]

def leftoverLet : Remnant where
  indent    := []
  gap       := none
  keyword   := "let".toList
  blanks    := ⟨[], by simp⟩
  semicolon := none
  indented  := by simp
  gapped    := by simp
  isBinder  := by simp [binders]

theorem dangles_leftover : Dangles "import \x7b a as b, ".toList :=
  ⟨"import \x7b a as b".toList, ',', ⟨[' '], List.forall_mem_singleton.mpr rfl⟩, rfl, by simp⟩

theorem leftover_repaired : leftover.repaired false = leftover := by
  decide +kernel

theorem repaired_leftover :
    (∃ before after, Stands leftoverList (leftover.repaired false) ∧
      leftoverList.text = before ++ ',' :: after ∧ Dangles before) ∧
    leftoverConst.text ∈ (leftover.repaired false).lines ∧
    leftoverLet.text ∈ (leftover.repaired false).lines := by
  rw [leftover_repaired]
  exact ⟨⟨_, " c \x7d".toList, ⟨[], _, rfl, rfl⟩, rfl, dangles_leftover⟩, by decide, by decide⟩

theorem repaired_remains_leftover :
    Stands leftoverList (leftover.repaired false) ∧ Stands leftoverList (leftover.uncluttered false) ∧
    leftoverList.Obscured "import \x7b a as b, ".toList ∧
    leftoverConst.text ∈ (leftover.repaired false).lines ∧ leftoverConst.Tabbed := by
  have hr : Stands leftoverList (leftover.repaired false) := ⟨[], _, leftover_repaired, rfl⟩
  have ho := (repaired_eq_self_iff.mp leftover_repaired).left
  have hu : Stands leftoverList (leftover.uncluttered false) :=
    ⟨[], _, Pattern.settle_of_not_occurs false ho, rfl⟩
  have hl : (leftover.repaired false).lines =
      ["import \x7b a as b, , c \x7d".toList] ++ leftoverConst.text :: [leftoverLet.text] := by
    rw [leftover_repaired]
    decide
  have ⟨hc, hs⟩ := repaired_remains leftover false
  refine ⟨hr, hu, ?_, by simp [hl], (hs leftoverConst _ _ hl).resolve_right (by simp [leftoverConst])⟩
  exact (hc leftoverList _ " c \x7d".toList hr rfl dangles_leftover).resolve_right fun h => h.right hu

end Text

end DeadCode
