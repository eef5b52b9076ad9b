import DeadCode.FileTree.Access
import DeadCode.Proofs.Except

namespace DeadCode

-- A path that can be followed at all.
structure Path.Usable (path : String) : Prop where
  noNul    : ¬path.toList.contains '\x00'
  notEmpty : ¬path.isEmpty
  fits     : ¬FileTree.maxPath < path.utf8ByteSize

namespace FileTree

variable {t : FileTree} {ending : Ending} {path : String}

-- A name that is looked up, and not only passed over.
structure Proper (ending : Ending) (name : String) (rest : List String) : Prop where
  notIdle   : ¬(name.isEmpty || name == ".")
  notParent : ¬name == ".."
  notSlash  : ¬(ending = .create ∧ rest = [""])
  fits      : ¬maxName < name.utf8ByteSize

theorem Proper.ne_empty (h : Proper ending name rest) : name ≠ "" := by
  rintro rfl
  exact h.notIdle rfl

-- The names lead from a directory to a location, and so many links may be followed on the way.
inductive Walks (t : FileTree) (ending : Ending) : Nat → Place → List String → Location → Prop
  | arrive : Walks t ending n here [] (.found here .directory)
  | idle   : name.isEmpty || name == "." → Walks t ending n here rest l →
    Walks t ending n here (name :: rest) l
  | parent : Walks t ending n here.dropLast rest l → Walks t ending n here (".." :: rest) l
  | enter  : Proper ending name rest → t.get? (here ++ [name]) = some .directory →
    Walks t ending n (here ++ [name]) rest l → Walks t ending n here (name :: rest) l
  | file   : Proper ending name [] → t.get? (here ++ [name]) = some (.file content) →
    Walks t ending n here [name] (.found (here ++ [name]) (.file content))
  | vacant : Proper ending name [] → t.get? (here ++ [name]) = none →
    Walks t ending n here [name] (.vacant (here ++ [name]))
  | link   : Proper ending name [] → t.get? (here ++ [name]) = some (.link target) → ending = .keep →
    Walks t ending n here [name] (.found (here ++ [name]) (.link target))
  | jump   : Proper ending name rest → t.get? (here ++ [name]) = some (.link target) →
    ¬(rest.isEmpty ∧ ending = .keep) →
    Walks t ending n (start here target) (Path.steps target ++ rest) l →
    Walks t ending (n + 1) here (name :: rest) l

theorem walks_of_walkWith {jump : Place → List String → Except FileError Location}
    (hj : ∀ {here names l}, jump here names = .ok l → ∃ k, n = k + 1 ∧ t.Walks ending k here names l)
    (h : t.walkWith ending jump here names = .ok l) : t.Walks ending n here names l := by
  fun_induction t.walkWith ending jump here names
  case case1 =>
    cases h
    exact .arrive
  case case2 hn hi => exact .idle hn (hi h)
  case case3 name _ hn hp hi =>
    obtain rfl : name = ".." := by simpa using hp
    exact .parent (hi h)
  case case6 rest hn hp hs hf hg hr =>
    obtain rfl : rest = [] := by simpa using hr
    cases h
    exact .vacant ⟨hn, hp, hs, hf⟩ hg
  case case8 hn hp hs hf hg hi => exact .enter ⟨hn, hp, hs, hf⟩ hg (hi h)
  case case9 rest hn hp hs hf _ hg hr =>
    obtain rfl : rest = [] := by simpa using hr
    cases h
    exact .file ⟨hn, hp, hs, hf⟩ hg
  case case11 rest hn hp hs hf _ hg hr =>
    obtain ⟨rfl, rfl⟩ : rest = [] ∧ ending = .keep := by simpa using hr
    cases h
    exact .link ⟨hn, hp, hs, hf⟩ hg rfl
  case case12 hn hp hs hf _ hg hr =>
    obtain ⟨k, rfl, hw⟩ := hj h
    exact .jump ⟨hn, hp, hs, hf⟩ hg hr hw
  all_goals cases h

-- What takes over at a link, as long as links may be followed.
def jump (t : FileTree) (ending : Ending) : Nat → Place → List String → Except FileError Location
  | 0     => fun _ _ => .error .tooManyLinks
  | n + 1 => t.walk ending n

theorem walk_eq (t : FileTree) (ending : Ending) (n : Nat) :
    t.walk ending n = t.walkWith ending (t.jump ending n) := by
  cases n <;> rfl

theorem walks_of_walk (h : t.walk ending n here names = .ok l) : t.Walks ending n here names l := by
  induction n generalizing here names l
  case zero => exact walks_of_walkWith (by simp) h
  case succ n hi => exact walks_of_walkWith (fun h => ⟨n, rfl, hi h⟩) h

theorem Proper.walk (h : Proper ending name rest) : t.walk ending n here (name :: rest) =
    match t.get? (here ++ [name]) with
    | none => if rest.isEmpty then .ok (.vacant (here ++ [name])) else .error .missing
    | some .directory => t.walk ending n (here ++ [name]) rest
    | some (.file content) =>
      if rest.isEmpty then .ok (.found (here ++ [name]) (.file content)) else .error .notADirectory
    | some (.link target) =>
      if rest.isEmpty ∧ ending = .keep then .ok (.found (here ++ [name]) (.link target))
      else t.jump ending n (start here target) (Path.steps target ++ rest) := by
  rewrite [walk_eq, walkWith, if_neg h.notIdle, if_neg h.notParent, if_neg h.notSlash, if_neg h.fits]
  rfl

theorem Walks.walk (h : t.Walks ending n here names l) : t.walk ending n here names = .ok l := by
  induction h
  case arrive => rw [walk_eq, walkWith]
  case idle hn _ hi => rw [walk_eq, walkWith, if_pos hn, ← walk_eq, hi]
  case parent hi => rw [walk_eq, walkWith, if_neg (by decide), if_pos (by decide), ← walk_eq, hi]
  case enter hn hg _ hi => simpa only [hn.walk, hg] using hi
  case file hn hg => simp [hn.walk, hg]
  case vacant hn hg => simp [hn.walk, hg]
  case link hn hg he =>
    rw [hn.walk, hg]
    exact if_pos ⟨rfl, he⟩
  case jump hn hg hr _ hi =>
    rw [hn.walk, hg]
    exact (if_neg hr).trans hi

-- What a location says of the tree. A link is only found where it is not to be followed.
def Location.Holds (t : FileTree) (ending : Ending) : Location → Prop
  | found _ .directory      => True
  | found p (.file content) => t.get? p = some (.file content)
  | found p (.link target)  => t.get? p = some (.link target) ∧ ending = .keep
  | vacant p                => t.get? p = none

namespace Walks

theorem holds (h : t.Walks ending n here names l) : l.Holds t ending := by
  induction h
  case arrive => trivial
  case file hg => exact hg
  case vacant hg => exact hg
  case link hg he => exact ⟨hg, he⟩
  all_goals assumption

-- A slash at the end calls for a directory.
theorem of_slash (h : t.Walks ending n here names l) (hs : names.getLast? = some "") :
    ∃ p, l = .found p .directory := by
  have tail {name rest} (hn : name ≠ "") (hs : (name :: rest).getLast? = some "") :
      rest.getLast? = some "" := by
    cases rest <;> simp_all
  induction h
  case arrive => exact ⟨_, rfl⟩
  case idle rest _ _ hw hi =>
    cases rest
    case nil =>
      cases hw
      exact ⟨_, rfl⟩
    case cons => exact hi (by simpa using hs)
  case parent hi => exact hi (tail (by decide) hs)
  case enter hn _ _ hi => exact hi (tail hn.ne_empty hs)
  case jump hn _ _ _ hi => exact hi (by simp [tail hn.ne_empty hs])
  case file hn _ => cases tail hn.ne_empty hs
  case vacant hn _ => cases tail hn.ne_empty hs
  case link hn _ _ => cases tail hn.ne_empty hs

end Walks

-- There are files and directories only.
def Linkless (t : FileTree) : Prop :=
  ∀ p target, t.get? p ≠ some (.link target)

-- What is found as a file is found as one by whoever follows links, and in a tree without links by
-- everyone.
theorem Walks.file_of_file {ending' : Ending} (hk : ending' = .keep → t.Linkless)
    (h : t.Walks ending n here names (.found p (.file content))) :
    t.Walks ending' n here names (.found p (.file content)) := by
  have proper {name rest here n} (names) (hn : Proper ending name rest)
      (hw : t.Walks ending n here (names ++ rest) (.found p (.file content))) :
      Proper ending' name rest :=
    ⟨hn.notIdle, hn.notParent, fun hs => by simpa using hw.of_slash (by simp [hs.right]), hn.fits⟩
  generalize he : Location.found p (.file content) = l at h
  induction h
  case arrive => cases he
  case idle hn _ hi => exact .idle hn (hi he)
  case parent hi => exact .parent (hi he)
  case enter hn hg hw hi => exact .enter (proper [] hn (he ▸ hw)) hg (hi he)
  case file hn hg => exact .file ⟨hn.notIdle, hn.notParent, by simp, hn.fits⟩ hg
  case vacant => cases he
  case link => cases he
  case jump hn hg _ hw hi =>
    exact .jump (proper _ hn (he ▸ hw)) hg (fun hs => hk hs.right _ _ hg) (hi he)

theorem locate_ok_iff : t.locate ending path = .ok l ↔
    Path.Usable path ∧ t.Walks ending maxLinks (start t.current path) (Path.steps path) l := by
  constructor
  case mp =>
    intro h
    unfold locate at h
    split at h
    · cases h
    split at h
    · cases h
    split at h
    · cases h
    exact ⟨⟨‹_›, ‹_›, ‹_›⟩, walks_of_walk h⟩
  case mpr =>
    intro ⟨hp, hw⟩
    rw [locate, if_neg hp.noNul, if_neg hp.notEmpty, if_neg hp.fits, hw.walk]

end FileTree

end DeadCode
