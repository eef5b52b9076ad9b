import DeadCode.Proofs.FileTree.Shape
import DeadCode.Proofs.Path

namespace DeadCode.FileTree

variable {t u : FileTree} {ending : Ending} {path text root : String} {p : Place} {l m : Location}
variable {content : ByteArray}

theorem linkless_of_entries (h : ∀ x ∈ t.entries, ∀ target, x.2 ≠ .link target) : t.Linkless := by
  intro p target hg
  unfold get? at hg
  split at hg
  · cases hg
  have ⟨_, _, he, _⟩ := List.lookup_eq_some_iff.mp hg
  exact h (p, .link target) (by simp [he]) target rfl

section

variable (h : t.SameShape u) (hl : t.Linkless)
variable (hf : t.locate ending path = .ok (.found p (.file content)))
include h hl hf

theorem SameShape.locate_file (ending' : Ending) :
    (∃ content, u.get? p = some (.file content) ∧
      u.locate ending' path = .ok (.found p (.file content))) ∨
    u.get? p = none ∧ u.locate ending' path = .ok (.vacant p) := by
  have ⟨hp, hw⟩ := locate_ok_iff.mp hf
  have hw : t.Walks ending' _ _ _ _ := hw.file_of_file fun _ => hl
  have ⟨m, hm, hs⟩ := h.locate <| locate_ok_iff.mpr ⟨hp, hw⟩
  have hh := (locate_ok_iff.mp hm).right.holds
  obtain rfl : p = m.place := hs.place
  match m with
  | .found p .directory => cases hs.shape
  | .found p (.file content) => exact .inl ⟨content, hh, hm⟩
  | .found p (.link _) => cases hs.shape
  | .vacant p => exact .inr ⟨hh, hm⟩

theorem SameShape.write_file (text : String) :
    u.write path text = .ok (u.insert p (.file text.toUTF8)) := by
  rcases h.locate_file hl hf .create with ⟨content, _, hc⟩ | ⟨_, hc⟩
  case inl => rw [write, hc]; rfl
  case inr => rw [write, hc]; rfl

theorem SameShape.remove_file (hg : u.get? p = some (.file other)) (dryRun : Bool) :
    u.remove path dryRun = .ok (.removed (if dryRun then u else u.erase p)) := by
  rcases h.locate_file hl hf .keep with ⟨content, _, hc⟩ | ⟨hn, _⟩
  case inl => rw [remove, hc]
  case inr => rw [hn] at hg; cases hg

theorem SameShape.remove_vacant (hg : u.get? p = none) (dryRun : Bool) :
    u.remove path dryRun = .ok .absent := by
  rcases h.locate_file hl hf .keep with ⟨content, hs, _⟩ | ⟨_, hc⟩
  case inl => rw [hs] at hg; cases hg
  case inr => rw [remove, hc]

end

-- Where a name leads, unless there is a link.
def advance (here : Place) (name : String) : Place :=
  if name.isEmpty || name == "." then here
  else if name == ".." then here.dropLast
  else here ++ [name]

theorem foldl_advance (h : ∀ name ∈ names, name ≠ "" ∧ name ≠ "." ∧ name ≠ "..") (here : Place) :
    names.foldl advance here = here ++ names := by
  induction names generalizing here
  case nil => simp
  case cons name rest hi =>
    have ha : advance here name = here ++ [name] := by simp [advance, h name (.head _)]
    rw [List.foldl_cons, ha, hi fun x hx => h x (.tail _ hx), List.append_assoc, List.singleton_append]

theorem Walks.place_eq (h : t.Linkless) (hw : t.Walks ending n here names l) :
    l.place = names.foldl advance here := by
  have proper {name rest here} (hn : Proper ending name rest) : advance here name = here ++ [name] := by
    rw [advance, if_neg hn.notIdle, if_neg hn.notParent]
  induction hw
  case arrive => rfl
  case idle hn _ hi => rw [List.foldl_cons, advance, if_pos hn, hi]
  case parent hi => rw [List.foldl_cons, hi]; rfl
  case enter hn _ _ hi => rw [List.foldl_cons, proper hn, hi]
  case file hn _ => exact (proper hn).symm
  case vacant hn _ => exact (proper hn).symm
  case link hg _ => exact absurd hg (h _ _)
  case jump hg _ _ _ => exact absurd hg (h _ _)

theorem exists_place_join (h : t.Linkless) (root : String) : ∃ base, ∀ {name ending l},
    Path.Normal name → t.locate ending (Path.join root name) = .ok l →
      l.place = base ++ Path.names name := by
  have ⟨front, hf⟩ := Path.exists_names_join root
  refine ⟨(front.filter (!·.isEmpty)).foldl advance (start t.current root), ?_⟩
  intro name ending l hn hl
  have hs : start t.current (Path.join root name) = start t.current root := by
    rw [start, hn.isAbsolute_join, start]
  rw [(locate_ok_iff.mp hl).right.place_eq h, hn.steps (hf hn), List.foldl_append, hs, foldl_advance hn]

-- Different names lead to different places.
theorem name_unique (h : t.Linkless) (ha : Path.Normal a) (hb : Path.Normal b)
    (hl : t.locate ending (Path.join root a) = .ok l) (hm : t.locate ending (Path.join root b) = .ok m)
    (he : l.place = m.place) : a = b := by
  have ⟨base, hp⟩ := exists_place_join h root
  rw [hp ha hl, hp hb hm] at he
  exact Path.names_inj (List.append_cancel_left he)

end DeadCode.FileTree
