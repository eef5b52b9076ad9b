import DeadCode.FileTree.Resolve

namespace DeadCode.Path

variable {path name root : String}

theorem segments_eq_splitOn (path : List Char) : segments path = path.splitOn '/' := by
  induction path
  case nil => rfl
  case cons c rest hi =>
    obtain ⟨first, parts, he⟩ := List.exists_cons_of_ne_nil (List.splitOn_ne_nil '/' rest)
    by_cases hc : c = '/'
    case pos => simp [hc, segments, hi, List.splitOn_cons_eq_if_modifyHead]
    case neg => simp [hc, segments, hi, he, List.splitOn_cons_eq_if_modifyHead]

-- The names that a path consists of.
def names (path : String) : List String :=
  (segments path.toList).map String.ofList

theorem names_ne_nil (path : String) : names path ≠ [] := by
  simp [names, segments_eq_splitOn]

theorem names_inj {a b : String} (h : names a = names b) : a = b := by
  have hs : segments a.toList = segments b.toList :=
    List.map_inj_right (fun _ _ => String.ofList_inj.mp) |>.mp h
  rw [segments_eq_splitOn, segments_eq_splitOn] at hs
  have join (path : String) : ['/'].intercalate (path.toList.splitOn '/') = path.toList :=
    List.intercalate_splitOn '/'
  rw [← String.toList_inj, ← join a, hs, join b]

theorem names_append (a b : String) : names (a ++ "/" ++ b) = names a ++ names b := by
  have hs : (a ++ "/" ++ b).toList = a.toList ++ '/' :: b.toList := by simp
  rw [names, hs, segments_eq_splitOn, List.splitOn_append_cons_self, List.map_append,
    ← segments_eq_splitOn, ← segments_eq_splitOn, names, names]

-- A relative path without any detour: no name is empty, `.` or `..`.
def Normal (path : String) : Prop :=
  ∀ name ∈ names path, name ≠ "" ∧ name ≠ "." ∧ name ≠ ".."

instance : Decidable (Normal path) :=
  inferInstanceAs (Decidable (∀ name ∈ names path, _))

section

variable (h : Normal name)
include h

theorem Normal.not_isAbsolute : isAbsolute name = false := by
  cases hp : name.toList
  case nil => simp [isAbsolute, hp]
  case cons c rest =>
    by_cases hc : c = '/'
    case pos =>
      have hn : "" ∈ names name := by simp [names, hp, hc, segments]
      exact absurd rfl (h "" hn).left
    case neg => simp [isAbsolute, hp, hc]

theorem Normal.steps {front : List String} (hp : names path = front ++ names name) :
    steps path = front.filter (!·.isEmpty) ++ names name := by
  have ⟨init, last, hn⟩ : ∃ init last, names name = init ++ [last] :=
    ⟨_, _, (List.dropLast_concat_getLast (names_ne_nil name)).symm⟩
  have hf : init.filter (!·.isEmpty) = init := by
    rw [List.filter_eq_self]
    intro x hx
    simpa using (h x (by simp [hn, hx])).left
  have hs : Path.steps path =
      (names path).dropLast.filter (!·.isEmpty) ++ (names path).getLast?.toList := rfl
  rw [hs, hp, hn, ← List.append_assoc, List.dropLast_concat, List.getLast?_concat, List.filter_append, hf,
    ← List.append_assoc]
  rfl

theorem Normal.isAbsolute_join : isAbsolute (join root name) = isAbsolute root := by
  have hr := h.not_isAbsolute
  rw [join, if_neg (by simp [hr])]
  cases hp : root.toList
  case nil =>
    have he : root = "" := String.toList_eq_nil_iff.mp hp
    have ha : isAbsolute "" = false := rfl
    simpa [he, ha] using hr
  case cons c rest => split <;> simp [isAbsolute, hp]

end

-- The way to the directory comes first, and is the same for all that is seen from there.
theorem exists_names_join (root : String) :
    ∃ front, ∀ {name}, Normal name → names (join root name) = front ++ names name := by
  by_cases he : root = ""
  case pos => exact ⟨[], fun h => by simp [join, h.not_isAbsolute, he]⟩
  case neg =>
    by_cases hl : root.toList.getLast? = some '/'
    case pos =>
      obtain ⟨front, hf⟩ := List.getLast?_eq_some_iff.mp hl
      have hr : root = String.ofList front ++ "/" := by simp [← String.toList_inj, hf]
      refine ⟨names (String.ofList front), fun h => ?_⟩
      rw [← names_append, ← hr, join, if_neg (by simp [h.not_isAbsolute]), if_pos (by simp [hl])]
    case neg =>
      refine ⟨names root, fun h => ?_⟩
      rw [← names_append, join, if_neg (by simp [h.not_isAbsolute]), if_neg (by simp [he, hl])]

end DeadCode.Path
