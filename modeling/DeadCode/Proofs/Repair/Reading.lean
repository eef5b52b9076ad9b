import DeadCode.Proofs.Text.Ink
import DeadCode.Repair.EmptyStatement
import DeadCode.Repair.Separator

namespace DeadCode.Repair

open Text

variable {text : Text} {before : Option Char}

theorem slots_of_none (h : slot? text = none) : slots text = .nothing text := by
  rw [slots]
  split
  case h_1 => rfl
  case h_2 hs => cases h.symm.trans hs

theorem slots_of_some (h : slot? text = some e) : slots text = e.append (slots e.rest) := by
  rw [slots]
  split
  case h_1 hs => cases h.symm.trans hs
  case h_2 hs =>
    cases h.symm.trans hs
    rfl

-- Blanks up to the last line break among them, and what follows.
def upToBreak (blanks : Text) : Text :=
  (blanks.reverse.dropWhile (· != '\n')).reverse

def pastBreak (blanks : Text) : Text :=
  (blanks.reverse.takeWhile (· != '\n')).reverse

theorem upToBreak_append (blanks : Text) : upToBreak blanks ++ pastBreak blanks = blanks := by
  rw [upToBreak, pastBreak, ← List.reverse_append, List.takeWhile_append_dropWhile, List.reverse_reverse]

-- Without a semicolon, a statement ends after the last line break in a row of blanks.
def breakEnd? (text : Text) : Option (Front text) :=
  let blanks := Front.takeWhile isBlank text
  if upToBreak blanks.taken = [] then none
  else some ⟨upToBreak blanks.taken, pastBreak blanks.taken ++ blanks.rest, by
    rw [← List.append_assoc, upToBreak_append, blanks.split]⟩

theorem statementEnd?_eq : statementEnd? text =
    let blanks := Front.takeWhile isBlank text
    match Front.char? (· == ';') blanks.rest with
    | some semicolon => some (blanks.append semicolon)
    | none => breakEnd? text := by
  have hb := upToBreak_append (text.takeWhile isBlank)
  have ht : upToBreak (text.takeWhile isBlank) ++
      (pastBreak (text.takeWhile isBlank) ++ text.dropWhile isBlank) = text := by
    rw [← List.append_assoc, hb, List.takeWhile_append_dropWhile]
  have hs : (text.takeWhile isBlank).length -
      ((text.takeWhile isBlank).reverse.takeWhile (· != '\n')).length =
      (upToBreak (text.takeWhile isBlank)).length := by
    have := congrArg List.length hb
    simp only [List.length_append, pastBreak, List.length_reverse] at this
    omega
  have hn := congrArg (List.take (upToBreak (text.takeWhile isBlank)).length) ht
  have hd := congrArg (List.drop (upToBreak (text.takeWhile isBlank)).length) ht
  rw [List.take_left] at hn
  rw [List.drop_left] at hd
  simp only [statementEnd?, breakEnd?, Front.takeWhile, hs, ← hn, ← hd, List.length_eq_zero_iff]
  rfl

-- An occurrence of the comma, once the list before it has been read.
def commaAfter (list : Front text) : Option (Hit text) :=
  let blanks := Front.takeWhile isBlank list.rest
  match h : Front.char? (· == ',') blanks.rest with
  | none => none
  | some comma => some {
      kept := list.taken
      dropped := (blanks.append comma).taken
      rest := comma.rest
      split := by simp [comma.split, blanks.split, list.split]
      inked := by
        obtain ⟨c, hc, ht⟩ := Front.taken_of_char? h
        exact ⟨c, by simp [ht], by rintro rfl; simp at hc⟩ }

theorem separator_eq : separator before text = nameList? before text >>= commaAfter :=
  rfl

-- The occurrence of a statement, once the beginning of its line has been read.
def statementAfter (start : Front text) : Option (Hit text) :=
  match h : bareStatement? start.rest with
  | none => none
  | some s => some {
      kept := []
      dropped := (start.append s).taken
      rest := s.rest
      split := by simp [s.split, start.split]
      inked := by
        obtain ⟨c, mem, hc⟩ := bareStatement?_inked h
        exact ⟨c, by simp [mem], hc⟩ }

theorem emptyStatement_eq : emptyStatement before text =
    (lineStarts before text).findSome? statementAfter :=
  rfl

theorem statementAfter_of_none (start : Front text) (h : bareStatement? start.rest = none) :
    statementAfter start = none := by
  unfold statementAfter
  split
  case h_1 => rfl
  case h_2 hs => cases h.symm.trans hs

theorem statementAfter_of_some (start : Front text) {s : Front start.rest}
    (h : bareStatement? start.rest = some s) :
    ∃ hit, statementAfter start = some hit ∧ hit.kept = [] ∧ hit.dropped = start.taken ++ s.taken ∧
      hit.rest = s.rest := by
  unfold statementAfter
  split
  case h_1 hs => cases h.symm.trans hs
  case h_2 hs =>
    cases h.symm.trans hs
    exact ⟨_, rfl, rfl, rfl, rfl⟩

theorem emptyStatement_break :
    emptyStatement before ('\n' :: text) = statementAfter ⟨['\n'], text, rfl⟩ := by
  have hn : statementAfter (.nothing ('\n' :: text)) = none := rfl
  have hc : Front.char? (· == '\n') ('\n' :: text) = some ⟨['\n'], text, rfl⟩ := rfl
  rw [emptyStatement_eq, lineStarts, hc]
  cases before <;> simp [hn]

theorem emptyStatement_of_ne (h : text.head? ≠ some '\n') :
    emptyStatement before text = if before.isNone then statementAfter (.nothing text) else none := by
  have hc : Front.char? (· == '\n') text = none := by
    cases text
    case nil => rfl
    case cons c text =>
      have hc : c ≠ '\n' := by simpa using h
      simp [Front.char?, hc]
  rw [emptyStatement_eq, lineStarts, hc]
  cases before <;> simp

end DeadCode.Repair
