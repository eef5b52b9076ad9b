import DeadCode.Text.Basic

namespace DeadCode.Text

variable {a b text : Text} {n i k : Nat}

@[simp]
theorem byteSize_nil : byteSize [] = 0 :=
  rfl

@[simp]
theorem byteSize_cons : byteSize (c :: text) = c.utf8Size + byteSize text :=
  rfl

@[simp]
theorem byteSize_append : byteSize (a ++ b) = byteSize a + byteSize b := by
  induction a
  case nil => simp
  case cons hi => simp [hi, Nat.add_assoc]

namespace charsBefore?

theorem go_nil : go [] n k = if n = 0 then some k else none := by
  cases n <;> rfl

theorem go_cons : go (c :: text) n k =
    if n = 0 then some k
    else if c.utf8Size ≤ n then go text (n - c.utf8Size) (k + 1) else none := by
  cases n <;> rfl

theorem go_append (a b : Text) (k : Nat) : go (a ++ b) (byteSize a) k = some (k + a.length) := by
  induction a generalizing k
  case nil => cases b <;> simp [go_nil, go_cons]
  case cons c a hi =>
    have hc : c.utf8Size + byteSize a ≠ 0 := by
      have := c.utf8Size_pos
      omega
    have hs : c.utf8Size + byteSize a - c.utf8Size = byteSize a := by omega
    rw [List.cons_append, byteSize_cons, go_cons, if_neg hc, if_pos (by omega), hs, hi]
    simp only [List.length_cons]
    congr 1
    omega

theorem exists_append_of_go (h : go text n k = some i) :
    ∃ a b, text = a ++ b ∧ a.byteSize = n ∧ k + a.length = i := by
  induction text generalizing n k
  case nil =>
    simp only [go_nil, Option.ite_none_right_eq_some, Option.some.injEq] at h
    exact ⟨[], [], rfl, h.left.symm, h.right⟩
  case cons c text hi =>
    rw [go_cons] at h
    split at h
    case isTrue hn => exact ⟨[], c :: text, rfl, hn.symm, Option.some.inj h⟩
    case isFalse =>
      simp only [Option.ite_none_right_eq_some] at h
      have ⟨a, b, ht, hs, hl⟩ := hi h.right
      exact ⟨c :: a, b, by rw [ht, List.cons_append], by rw [byteSize_cons]; omega,
        by rw [List.length_cons]; omega⟩

end charsBefore?

theorem charsBefore?_append (a b : Text) : (a ++ b).charsBefore? a.byteSize = some a.length := by
  rw [charsBefore?, charsBefore?.go_append, Nat.zero_add]

theorem exists_append_of_charsBefore? (h : text.charsBefore? n = some i) :
    ∃ a b, text = a ++ b ∧ a.byteSize = n ∧ a.length = i := by
  have ⟨a, b, ht, hs, hl⟩ := charsBefore?.exists_append_of_go h
  exact ⟨a, b, ht, hs, by omega⟩

-- Of two places, the one with the smaller offset comes first.
theorem exists_append_of_byteSize_le {c d : Text} (h : a ++ b = c ++ d) (hs : a.byteSize ≤ c.byteSize) :
    ∃ m, c = a ++ m ∧ b = m ++ d := by
  rcases List.append_eq_append_iff.mp h with ⟨m, hc, hb⟩ | ⟨m, ha, hd⟩
  case inl => exact ⟨m, hc, hb⟩
  case inr =>
    have hm : m = [] := by
      cases m
      case nil => rfl
      case cons c m =>
        have := c.utf8Size_pos
        simp only [ha, byteSize_append, byteSize_cons] at hs
        omega
    exact ⟨[], by simp [ha, hm], by simp [hd, hm]⟩

theorem append_inj_of_byteSize {c d : Text} (h : a ++ b = c ++ d) (hs : a.byteSize = c.byteSize) :
    a = c ∧ b = d := by
  have ha := charsBefore?_append a b
  rw [h, hs, charsBefore?_append] at ha
  exact List.append_inj h (Option.some.inj ha).symm

theorem replace?_append (a b c filler : Text) :
    (a ++ (b ++ c)).replace? a.byteSize (a ++ b).byteSize filler = some (a ++ (filler ++ c)) := by
  have hb := charsBefore?_append (a ++ b) c
  rw [List.append_assoc] at hb
  simp only [replace?, charsBefore?_append, hb, bind, Option.bind_some, List.take_left]
  simp [← List.append_assoc]

end DeadCode.Text
