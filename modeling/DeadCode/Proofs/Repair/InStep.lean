import DeadCode.Proofs.Repair.Binding

namespace DeadCode

open Text

namespace Repair

variable {pattern : Pattern} {patterns : List Pattern} {before before' : Option Char}
variable {text text' rest plain kept : Text} {c : Char} {n : Nat}

-- Something that a pattern finds in a text: how much ink stands before it, how much of its ink is kept and
-- how much goes.
structure Finding where
  start : Nat
  kept : Nat
  dropped : Nat
  deriving DecidableEq

-- All that a pattern finds from a place on, even if it is part of something else that is found.
def Pattern.findingsFrom (pattern : Pattern) (before : Option Char) (start : Nat) : Text → List Finding
  | [] => []
  | c :: rest =>
    let later := pattern.findingsFrom (some c) (start + (ink [c]).length) rest
    match pattern before (c :: rest) with
    | some hit => ⟨start, hit.kept.ink.length, hit.dropped.ink.length⟩ :: later
    | none => later

def Pattern.findings (pattern : Pattern) (text : Text) : List Finding :=
  pattern.findingsFrom none 0 text

theorem Hit.ne_nil (hit : Hit text) : text ≠ [] := by
  rintro rfl
  have ⟨_, hm, _⟩ := hit.inked
  have hs := hit.split
  simp only [List.append_eq_nil_iff] at hs
  simp [hs.right.left] at hm

-- How much ink is kept and how much goes determines which.
theorem Hit.ink_eq {hit : Hit text} {hit' : Hit text'} (hi : text.ink = text'.ink)
    (hk : hit.kept.ink.length = hit'.kept.ink.length)
    (hd : hit.dropped.ink.length = hit'.dropped.ink.length) :
    hit.kept.ink = hit'.kept.ink ∧ hit.dropped.ink = hit'.dropped.ink ∧ hit.rest.ink = hit'.rest.ink := by
  rw [← hit.split, ← hit'.split] at hi
  simp only [ink_append] at hi
  have ⟨hk, hi⟩ := List.append_inj hi hk
  have ⟨hd, hr⟩ := List.append_inj hi hd
  exact ⟨hk, hd, hr⟩

theorem ink_of_ne (h : c ≠ '\n') : ink [c] = [c] := by
  simp [ink, h]

namespace Pattern

theorem findingsFrom_of_some {hit : Hit text} (h : pattern before text = some hit) :
    ∃ later, pattern.findingsFrom before n text =
      ⟨n, hit.kept.ink.length, hit.dropped.ink.length⟩ :: later := by
  cases text
  case nil => exact absurd rfl hit.ne_nil
  case cons c text => exact ⟨_, by rw [findingsFrom, h]⟩

theorem findingsFrom_of_none (h : pattern before (c :: rest) = none) :
    pattern.findingsFrom before n (c :: rest) =
      pattern.findingsFrom (some c) (n + (ink [c]).length) rest := by
  rw [findingsFrom, h]

theorem le_of_mem_findingsFrom {x : Finding} (hx : x ∈ pattern.findingsFrom before n text) :
    n ≤ x.start := by
  induction text generalizing before n
  case nil => contradiction
  case cons c rest hi =>
    rw [findingsFrom] at hx
    split at hx
    case h_1 =>
      cases hx
      case head => exact Nat.le_refl n
      case tail hx => exact Nat.le_of_add_right_le (hi hx)
    case h_2 => exact Nat.le_of_add_right_le (hi hx)

theorem lt_of_mem_findingsFrom {x : Finding} (h : pattern before text = none)
    (hb : text.head? ≠ some '\n') (hx : x ∈ pattern.findingsFrom before n text) : n < x.start := by
  cases text
  case nil => contradiction
  case cons c rest =>
    have hc : c ≠ '\n' := by simpa using hb
    rw [findingsFrom_of_none h, ink_of_ne hc] at hx
    exact le_of_mem_findingsFrom hx

theorem length_ink_pos {a : Text} (h : a ≠ []) (hl : a.getLast? ≠ some '\n') : 0 < a.ink.length := by
  have hm : a.getLast h ∈ a.ink := by
    have : a.getLast h ≠ '\n' := by rwa [List.getLast?_eq_some_getLast h, ne_eq, Option.some_inj] at hl
    exact List.mem_filter.mpr ⟨List.getLast_mem h, by simpa using this⟩
  exact List.length_pos_of_mem hm

theorem findingsFrom_ne_cons (h : pattern before text = none) (hb : text.head? ≠ some '\n') :
    pattern.findingsFrom before n text ≠ ⟨n, k, d⟩ :: later :=
  fun he => Nat.lt_irrefl n (lt_of_mem_findingsFrom h hb (he ▸ List.mem_cons_self))

-- Unless a line break at which nothing is found comes first, both texts begin with something that is found
-- or neither does.
theorem hits_of_findings (hb : pattern before text = none → text.head? ≠ some '\n')
    (hb' : pattern before' text' = none → text'.head? ≠ some '\n')
    (hf : pattern.findingsFrom before n text = pattern.findingsFrom before' n text') :
    pattern before text = none ∧ pattern before' text' = none ∨
      ∃ hit hit', pattern before text = some hit ∧ pattern before' text' = some hit' ∧
        hit.kept.ink.length = hit'.kept.ink.length ∧
        hit.dropped.ink.length = hit'.dropped.ink.length := by
  cases hx : pattern before text <;> cases hy : pattern before' text'
  case none.none => exact .inl ⟨rfl, rfl⟩
  case none.some =>
    obtain ⟨_, hs⟩ := findingsFrom_of_some (n := n) hy
    exact absurd (hf.trans hs) (findingsFrom_ne_cons hx (hb hx))
  case some.none =>
    obtain ⟨_, hs⟩ := findingsFrom_of_some (n := n) hx
    exact absurd (hf.symm.trans hs) (findingsFrom_ne_cons hy (hb' hy))
  case some.some hit hit' =>
    obtain ⟨_, hs⟩ := findingsFrom_of_some (n := n) hx
    obtain ⟨_, hs'⟩ := findingsFrom_of_some (n := n) hy
    have := (List.cons.inj (hs.symm.trans (hf.trans hs'))).left
    exact .inr ⟨hit, hit', rfl, rfl, by simpa using this⟩

-- What is found in the front part of a text starts before its end, and even before the last character of
-- that part unless this is a line break.
theorem findingsFrom_append (pattern : Pattern) (before : Option Char) (n : Nat) (a rest : Text) :
    ∃ inner, pattern.findingsFrom before n (a ++ rest) =
      inner ++ pattern.findingsFrom (a.getLast?.or before) (n + (ink a).length) rest ∧
    ∀ x ∈ inner, x.start ≤ n + (ink a).length ∧ (a.getLast? ≠ some '\n' → x.start < n + (ink a).length) := by
  induction a generalizing before n
  case nil => exact ⟨[], rfl, by simp⟩
  case cons c a hi =>
    have ⟨inner, he, hs⟩ := hi (some c) (n + (ink [c]).length)
    have hl : a.getLast?.or (some c) = (c :: a).getLast?.or before := by
      rw [List.getLast?_cons]
      cases a.getLast? <;> rfl
    have hn : n + (ink [c]).length + (ink a).length = n + (ink (c :: a)).length := by
      rw [ink_cons c a, List.length_append, Nat.add_assoc]
    rw [hl, hn] at he
    have hs : ∀ x ∈ inner, x.start ≤ n + (ink (c :: a)).length ∧
        ((c :: a).getLast? ≠ some '\n' → x.start < n + (ink (c :: a)).length) := by
      intro x hx
      refine ⟨hn ▸ (hs x hx).left, fun h => hn ▸ (hs x hx).right fun ha => h ?_⟩
      rw [List.getLast?_cons, ha, Option.getD_some]
    cases hp : pattern before (c :: (a ++ rest))
    case none =>
      refine ⟨inner, ?_, hs⟩
      rw [List.cons_append, findingsFrom_of_none hp, he]
    case some hit =>
      refine ⟨⟨n, hit.kept.ink.length, hit.dropped.ink.length⟩ :: inner, ?_, ?_⟩
      · rw [List.cons_append, findingsFrom, he]
        simp only [hp, List.cons_append]
      · rintro x (_ | ⟨_, hx⟩)
        · exact ⟨Nat.le_add_right .., fun h =>
            Nat.lt_add_of_pos_right (length_ink_pos (List.cons_ne_nil c a) h)⟩
        · exact hs x hx

-- A pattern of which the ink alone tells what a pass goes on with:
-- 1. whether something that is found ends in a line break can be seen without the line break
-- 2. if it does, nothing is found right behind that line break
structure Aligned (pattern : Pattern) : Prop where
  ending : ∀ {before before' text text'} {hit : Hit text} {hit' : Hit text'},
    pattern before text = some hit → pattern before' text' = some hit' →
      hit.dropped.ink = hit'.dropped.ink →
        (hit.dropped.getLast? = some '\n' ↔ hit'.dropped.getLast? = some '\n')
  clear  : ∀ {before text} {hit : Hit text}, pattern before text = some hit →
    hit.dropped.getLast? = some '\n' →
      hit.rest.head? ≠ some '\n' ∧ pattern (some '\n') hit.rest = none

end Pattern

-- Where the ink that follows an occurrence can begin to show something. At its very end there still is what
-- begins with a line break that has been taken.
def Hit.past (hit : Hit text) (n : Nat) : Nat :=
  n + hit.kept.ink.length + hit.dropped.ink.length +
    if hit.dropped.getLast? = some '\n' then 1 else 0

namespace Pattern.Aligned

variable (hp : pattern.Aligned)
include hp

-- What is found behind an occurrence is what is found in the text from there on.
theorem findingsFrom_rest {hit : Hit text} (h : pattern before text = some hit) :
    pattern.findingsFrom hit.dropped.getLast?
      (n + hit.kept.ink.length + hit.dropped.ink.length) hit.rest =
    (pattern.findingsFrom before n text).filter fun x => hit.past n ≤ x.start := by
  have hd : hit.dropped ≠ [] := by
    have ⟨_, hm, _⟩ := hit.inked
    exact List.ne_nil_of_mem hm
  have ⟨inner, he, hs⟩ :=
    pattern.findingsFrom_append before n (hit.kept ++ hit.dropped) hit.rest
  have hl : (hit.kept ++ hit.dropped).getLast? = hit.dropped.getLast? :=
    List.getLast?_append_of_ne_nil _ hd
  have ho : hit.dropped.getLast?.or before = hit.dropped.getLast? := by
    rw [List.getLast?_eq_some_getLast hd]
    rfl
  rw [List.append_assoc, hit.split, hl, ho, ink_append, List.length_append, ← Nat.add_assoc] at he
  simp only [hl, ink_append, List.length_append, ← Nat.add_assoc] at hs
  have hin : ∀ x ∈ inner, ¬hit.past n ≤ x.start := by
    intro x hx
    have ⟨hle, hlt⟩ := hs x hx
    unfold Hit.past
    split
    case isTrue => omega
    case isFalse hb => exact Nat.not_le_of_lt (hlt hb)
  have hout : ∀ x ∈ pattern.findingsFrom hit.dropped.getLast?
      (n + hit.kept.ink.length + hit.dropped.ink.length) hit.rest, hit.past n ≤ x.start := by
    intro x hx
    unfold Hit.past
    split
    case isTrue hb =>
      have ⟨hn, hc⟩ := hp.clear h hb
      exact lt_of_mem_findingsFrom (hb ▸ hc) hn hx
    case isFalse => exact le_of_mem_findingsFrom hx
  rw [he, List.filter_append, List.filter_eq_nil_iff.mpr (by simpa using hin), List.nil_append,
    List.filter_eq_self.mpr (by simpa using hout)]

-- The induction is on both texts, as either of them can have a line break more where nothing is found.
theorem ink_passFrom (hi : text.ink = text'.ink)
    (hf : pattern.findingsFrom before n text = pattern.findingsFrom before' n text') :
    ink (pattern.passFrom (filler keepLines) before text) =
      ink (pattern.passFrom (filler keepLines') before' text') := by
  induction hl : text.length + text'.length using Nat.strong_induction_on
    generalizing text text' before before' n
  case h l ih =>
  subst hl
  -- A line break at which nothing is found leaves everything as it is.
  by_cases hb : text.head? = some '\n' ∧ pattern before text = none
  case pos =>
    obtain ⟨hb, hx⟩ := hb
    obtain ⟨rest, rfl⟩ := List.head?_eq_some_iff.mp hb
    rw [passFrom_of_none hx]
    exact ih _ (by simp) hi (findingsFrom_of_none hx ▸ hf) rfl
  by_cases hb' : text'.head? = some '\n' ∧ pattern before' text' = none
  case pos =>
    obtain ⟨hb', hy⟩ := hb'
    obtain ⟨rest, rfl⟩ := List.head?_eq_some_iff.mp hb'
    rw [passFrom_of_none hy]
    exact ih _ (by simp) hi (hf.trans (findingsFrom_of_none hy)) rfl
  replace hb (hx : pattern before text = none) : text.head? ≠ some '\n' := fun h => hb ⟨h, hx⟩
  replace hb' (hy : pattern before' text' = none) : text'.head? ≠ some '\n' := fun h => hb' ⟨h, hy⟩
  rcases hits_of_findings hb hb' hf with ⟨hx, hy⟩ | ⟨hit, hit', hx, hy, hk, hd⟩
  case neg.inl =>
    cases text <;> cases text'
    case nil.nil => rw [passFrom, hx, passFrom, hy]
    case nil.cons => simp_all [ink]
    case cons.nil => simp_all [ink]
    case cons.cons c rest d rest' =>
      have hc : c ≠ '\n' := by simpa using hb hx
      have hd : d ≠ '\n' := by simpa using hb' hy
      rw [ink_cons, ink_cons d, ink_of_ne hc, ink_of_ne hd] at hi
      obtain ⟨rfl, hr⟩ : c = d ∧ ink rest = ink rest' := List.cons.inj hi
      rw [findingsFrom_of_none hx, findingsFrom_of_none hy] at hf
      rw [passFrom_of_none hx, passFrom_of_none hy, ink_cons, ink_cons c (passFrom ..),
        ih _ (by simp; omega) hr hf rfl]
  case neg.inr =>
    -- Both go on at the same place, as what has been taken ends in a line break in both or in neither.
    obtain ⟨hki, hdi, hri⟩ := Hit.ink_eq hi hk hd
    have hn : hit.past n = hit'.past n := by
      rw [Hit.past, Hit.past, hk, hd, if_congr (hp.ending hx hy hdi) rfl rfl]
    have hr := ih _ (Nat.add_lt_add hit.rest_length_lt hit'.rest_length_lt) hri
      (by rw [hp.findingsFrom_rest hx, hf, hn, hk, hd, hp.findingsFrom_rest hy]) rfl
    rw [passFrom_of_some hx, passFrom_of_some hy]
    simp only [ink_append, ink_filler, hki, hr]

-- A pass takes the same out of texts in which it finds the same, whether or not it leaves line breaks behind.
theorem ink_pass (hi : text.ink = text'.ink) (hf : pattern.findings text = pattern.findings text') :
    ink (pattern.pass (filler keepLines) text) = ink (pattern.pass (filler keepLines') text') := by
  rw [pass_eq, pass_eq]
  exact hp.ink_passFrom hi hf

end Pattern.Aligned

theorem Pattern.passFrom_of_findings (h : pattern.findingsFrom before n text = []) :
    pattern.passFrom fill before text = text := by
  induction text generalizing before n
  case nil =>
    cases hx : pattern before []
    case none => rw [passFrom, hx]
    case some hit => exact absurd rfl hit.ne_nil
  case cons c rest hi =>
    cases hx : pattern before (c :: rest)
    case none => rw [passFrom_of_none hx, hi (findingsFrom_of_none hx ▸ h)]
    case some hit =>
      obtain ⟨_, hs⟩ := findingsFrom_of_some (n := n) hx
      cases hs.symm.trans h

-- Where a pattern finds nothing there is nothing to settle.
theorem Pattern.settle_of_findings (h : pattern.findings text = []) :
    settle (pattern.pass fill) text = text := by
  have hp : pattern.pass fill text = text := by rw [pass_eq, passFrom_of_findings h]
  exact settle_of_length (by rw [hp]; exact Nat.lt_irrefl _)

-- Runs one repair after the other, each until it finds nothing more.
def settleAll (keepLines : Bool) (patterns : List Pattern) (text : Text) : Text :=
  patterns.foldl (fun text pattern => settle (pattern.pass (filler keepLines)) text) text

-- The same is found in both texts as long as anything is found in one of them. Passes leave line breaks
-- behind in the second text only.
inductive InStep : List Pattern → Text → Text → Prop
  | nil  : ∀ {plain kept}, InStep [] plain kept
  | turn : ∀ {pattern patterns plain kept}, pattern.findings plain = [] → pattern.findings kept = [] →
    InStep patterns plain kept → InStep (pattern :: patterns) plain kept
  | pass : ∀ {pattern patterns plain kept}, pattern.findings plain = pattern.findings kept →
    InStep (pattern :: patterns) (pattern.pass (filler false) plain) (pattern.pass (filler true) kept) →
    InStep (pattern :: patterns) plain kept

theorem InStep.ink_settleAll (hs : InStep patterns plain kept)
    (hp : ∀ pattern ∈ patterns, pattern.Aligned) (hi : plain.ink = kept.ink) :
    ink (settleAll false patterns plain) = ink (settleAll true patterns kept) := by
  induction hs
  case nil => exact hi
  case turn hx hy _ ih =>
    rw [settleAll, settleAll, List.foldl_cons, List.foldl_cons, Pattern.settle_of_findings hx,
      Pattern.settle_of_findings hy]
    exact ih (List.forall_mem_cons.mp hp).right hi
  case pass pattern patterns plain kept hf _ ih =>
    have := ih hp (hp pattern (.head _) |>.ink_pass hi hf)
    simpa only [settleAll, List.foldl_cons, settle_pass (pattern.pass_shorter _ _)] using this

-- What the separator drops ends in a comma.
theorem getLast?_separator {hit : Hit text} (h : separator before text = some hit) :
    hit.dropped.getLast? = some ',' := by
  rw [separator_eq, Option.bind_eq_bind, Option.bind_eq_some_iff] at h
  obtain ⟨list, _, h⟩ := h
  simp only [commaAfter] at h
  split at h
  case h_1 => contradiction
  case h_2 comma hc =>
    obtain ⟨c, hc, ht⟩ := Front.taken_of_char? hc
    cases h
    simp [ht, eq_of_beq hc]

theorem separator_aligned : separator.Aligned where
  ending h h' _ := by simp [getLast?_separator h, getLast?_separator h']
  clear h hb := by simp [getLast?_separator h] at hb

theorem getLast?_upToBreak {blanks : Text} (h : upToBreak blanks ≠ []) :
    (upToBreak blanks).getLast? = some '\n' := by
  rw [upToBreak, List.getLast?_reverse]
  rw [upToBreak, ne_eq, List.reverse_eq_nil_iff] at h
  obtain ⟨c, _, hc⟩ := List.exists_cons_of_ne_nil h
  have := List.head?_dropWhile_not (· != '\n') blanks.reverse
  simpa [hc] using this

theorem head?_pastBreak_append (blanks : Text) (h : rest.head? ≠ some '\n') :
    (pastBreak blanks ++ rest).head? ≠ some '\n' := by
  cases hb : pastBreak blanks
  case nil => exact h
  case cons c past =>
    have hm : c ∈ blanks.reverse.takeWhile (· != '\n') :=
      List.mem_reverse.mp (show c ∈ pastBreak blanks by simp [hb])
    simpa using List.mem_takeWhile_imp hm

-- A statement ends with a semicolon, or else there is none in it and it ends with the last one of several
-- line breaks.
theorem ending_statementEnd? {ending : Front text} (h : statementEnd? text = some ending) :
    ending.taken.getLast? = some ';' ∨ ';' ∉ ending.taken ∧ ending.taken.getLast? = some '\n' ∧
      ending.rest.head? ≠ some '\n' := by
  have hb : ';' ∉ text.takeWhile isBlank := by
    intro hm
    have : isBlank ';' = true := List.mem_takeWhile_imp hm
    exact absurd this (by decide)
  rw [statementEnd?_eq] at h
  simp only at h
  split at h
  case h_1 semicolon hs =>
    obtain ⟨c, hc, ht⟩ := Front.taken_of_char? hs
    cases h
    simp [ht, eq_of_beq hc]
  case h_2 =>
    simp only [breakEnd?, Option.ite_none_left_eq_some, Option.some.injEq] at h
    obtain ⟨hn, rfl⟩ := h
    refine .inr ⟨fun hm => hb ?_, getLast?_upToBreak hn, head?_pastBreak_append _ ?_⟩
    case refine_1 =>
      have := upToBreak_append (text.takeWhile isBlank)
      exact this ▸ List.mem_append_left _ hm
    case refine_2 =>
      intro hh
      have := List.head?_dropWhile_not isBlank text
      rw [show text.dropWhile isBlank = (Front.takeWhile isBlank text).rest from rfl, hh] at this
      exact absurd this (by decide)

theorem not_mem_lineStart {start : Front text} (h : start ∈ lineStarts before text) :
    ';' ∉ start.taken := by
  rw [lineStarts, List.mem_append] at h
  rcases h with h | h
  case inl =>
    split at h
    case isTrue => cases List.mem_singleton.mp h; simp [Front.nothing]
    case isFalse => contradiction
  case inr =>
    obtain ⟨c, hc, ht⟩ := Front.taken_of_char? (Option.mem_toList.mp h)
    simp [ht, eq_of_beq hc]

theorem not_mem_statementHead (text : Text) : ';' ∉ (statementHead text).taken := by
  obtain ⟨indent, exported, ht, hi, he⟩ := taken_statementHead text
  have hs {spaces : Text} (h : Spaces spaces) : ';' ∉ spaces := fun hm => absurd (h _ hm) (by decide)
  rw [ht, List.mem_append, not_or]
  refine ⟨hs hi, ?_⟩
  rcases he with rfl | ⟨spaces, hsp, rfl⟩
  case inl => simp
  case inr => simpa using hs hsp

theorem ending_emptyStatement {hit : Hit text} (h : emptyStatement before text = some hit) :
    hit.dropped.getLast? = some ';' ∨ ';' ∉ hit.dropped ∧ hit.dropped.getLast? = some '\n' ∧
      hit.rest.head? ≠ some '\n' := by
  rw [emptyStatement_eq] at h
  obtain ⟨start, hm, h⟩ := List.exists_of_findSome?_eq_some h
  cases hs : bareStatement? start.rest
  case none => cases (statementAfter_of_none start hs).symm.trans h
  case some s =>
    obtain ⟨hit', hh, _, hd, hr⟩ := statementAfter_of_some start hs
    cases h.symm.trans hh
    simp only [bareStatement?, Option.bind_eq_bind, Option.bind_eq_some_iff, Option.pure_def,
      Option.some.injEq] at hs
    obtain ⟨keyword, hk, ending, he, rfl⟩ := hs
    have hk : ';' ∉ keyword.taken := by
      have hw : ∀ word ∈ binders, ';' ∉ word := by decide
      exact hw _ (Front.taken_of_oneOf? hk)
    have hd : hit.dropped =
        start.taken ++ (statementHead start.rest).taken ++ keyword.taken ++ ending.taken := by
      rw [hd, Front.taken_append, Front.taken_append, ← List.append_assoc, ← List.append_assoc]
    have hl {c} (h : ending.taken.getLast? = some c) : hit.dropped.getLast? = some c := by
      rw [hd, List.getLast?_append, h, Option.some_or]
    refine (ending_statementEnd? he).imp hl ?_
    rintro ⟨hn, hb, hh⟩
    refine ⟨?_, hl hb, hr ▸ hh⟩
    simp only [hd, List.mem_append, not_or]
    exact ⟨⟨⟨not_mem_lineStart hm, not_mem_statementHead _⟩, hk⟩, hn⟩

theorem emptyStatement_aligned : emptyStatement.Aligned where
  ending {_ _ _ _ hit hit'} h h' hi := by
    have hs : ';' ∈ hit.dropped ↔ ';' ∈ hit'.dropped := by
      have hm := congrArg (';' ∈ ·) hi
      simpa [ink] using hm
    rcases ending_emptyStatement h with hl | ⟨hn, hl, _⟩ <;>
      rcases ending_emptyStatement h' with hl' | ⟨hn', hl', _⟩
    case inl.inl => simp [hl, hl']
    case inl.inr => exact absurd (hs.mp (List.mem_of_getLast? hl)) hn'
    case inr.inl => exact absurd (hs.mpr (List.mem_of_getLast? hl')) hn
    case inr.inr => simp [hl, hl']
  clear {_ _ hit} h hb := by
    rcases ending_emptyStatement h with hl | ⟨_, _, hr⟩
    case inl => simp [hl] at hb
    case inr => exact ⟨hr, emptyStatement_of_ne hr⟩

end Repair

end DeadCode
