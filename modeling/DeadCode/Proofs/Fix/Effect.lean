import DeadCode.Proofs.FileTree.Linkless
import DeadCode.Proofs.Fix.Frame

namespace DeadCode

variable {t u : FileTree} {s : Settings} {x : FilePlan} {log : Log} {path : String}

-- What becomes of a planned file: its place and text, and the text that takes its place, if one does.
structure Effect where
  place  : Place
  before : Text
  after  : Option Text
  deriving DecidableEq

-- The file at a path, if it is one and holds a text.
def FileTree.text? (t : FileTree) (path : String) : Option (Place × Text) :=
  match t.locate .follow path with
  | .ok (.found p (.file content)) => (String.fromUTF8? content).map fun text => (p, text.toList)
  | _ => none

-- What an action leaves of a text, if it can be carried out.
def FileAction.result? (action : FileAction) (source : Text) (keepLines : Bool) :
    Option (Option Text) :=
  match action with
  | delete => some none
  | snip spans => (source.edited spans keepLines).toOption.map some

def FilePlan.effect? (x : FilePlan) (s : Settings) (t : FileTree) : Option Effect := do
  let (place, before) ← t.text? (Path.join s.root x.filename)
  let after ← x.action.result? before s.keepLines
  return ⟨place, before, after⟩

def Plan.effects (plan : Plan) (s : Settings) (t : FileTree) : List Effect :=
  plan.filterMap (·.effect? s t)

-- Why a planned file has no effect.
inductive FilePlan.Fails (x : FilePlan) (s : Settings) (t : FileTree) : Failure → Prop
  | unreadable : t.read (Path.join s.root x.filename) = .error e →
    Fails x s t (.io (Path.join s.root x.filename) e.message)
  | uncut      : t.read (Path.join s.root x.filename) = .ok source → x.action = .snip spans →
    Text.edited source.toList spans s.keepLines = .error e → Fails x s t e.toFailure

namespace FileTree

theorem locate_of_text? (h : t.text? path = some (p, text)) :
    ∃ content, t.locate .follow path = .ok (.found p (.file content)) := by
  unfold text? at h
  split at h
  case h_1 q content hl =>
    have ⟨_, _, he⟩ := Option.map_eq_some_iff.mp h
    cases he
    exact ⟨content, hl⟩
  case h_2 => contradiction

theorem read_of_text? (h : t.text? path = some (p, text)) : t.read path = .ok (String.ofList text) := by
  unfold text? at h
  split at h
  case h_1 q content hl =>
    have ⟨source, hs, he⟩ := Option.map_eq_some_iff.mp h
    cases he
    rw [read, hl]
    simp [bind, Except.bind, hs, pure, Except.pure]
  case h_2 => contradiction

theorem read_of_text?_none (h : t.text? path = none) : ∃ e, t.read path = .error e := by
  unfold text? at h
  cases hl : t.locate .follow path
  case error e => exact ⟨e, by rw [read, hl]; rfl⟩
  case ok l =>
    rw [read, hl]
    match l with
    | .found p (.file content) =>
      have hc : String.fromUTF8? content = none := by simpa [hl] using h
      exact ⟨.notText, by simp [bind, Except.bind, hc]; rfl⟩
    | .found p .directory => exact ⟨_, rfl⟩
    | .found p (.link target) => exact ⟨_, rfl⟩
    | .vacant p => exact ⟨_, rfl⟩

theorem erase_of_get?_none (h : t.get? p = none) : t.erase p = t := by
  have hn : p ≠ [] := by
    rintro rfl
    contradiction
  have he : t.entries.filter (·.1 != p) = t.entries := by
    rw [List.filter_eq_self]
    intro entry mem
    have hk : p != entry.1 := List.lookup_eq_none_iff.mp (by simpa [get?, hn] using h) entry mem
    exact bne_comm.trans hk
  rw [erase, he]

end FileTree

namespace Effect

variable {e : Effect}

-- What there is at the place afterwards.
def entry? (e : Effect) : Option Entry :=
  e.after.map fun text => .file (String.ofList text).toUTF8

def apply (dryRun : Bool) (t : FileTree) (e : Effect) : FileTree :=
  if dryRun then t else e.entry?.elim (t.erase e.place) (t.insert e.place)

-- The file that is to go is gone already.
def misses (e : Effect) (t : FileTree) : Bool :=
  e.after.isNone && (t.get? e.place).isNone

def linesRemoved (e : Effect) : Nat :=
  e.before.lineCount - e.after.elim 0 Text.lineCount

-- The effect as the edit of a file.
def edit (e : Effect) (x : FilePlan) (s : Settings) : FileEdit where
  filename    := x.filename
  path        := Path.join s.root x.filename
  change      := e.after.elim .delete fun text => .overwrite (String.ofList text)
  linesBefore := e.before.lineCount
  linesAfter  := e.after.elim 0 Text.lineCount

theorem misses_iff : e.misses t ↔ e.after = none ∧ t.get? e.place = none := by
  simp [misses]

theorem apply_of_misses (h : e.misses t) (dryRun : Bool) : e.apply dryRun t = t := by
  have ⟨ha, hg⟩ := misses_iff.mp h
  simp [apply, entry?, ha, FileTree.erase_of_get?_none hg]

theorem sameShape_apply (h : u.shape e.place = none) (dryRun : Bool) :
    u.SameShape (e.apply dryRun u) := by
  cases dryRun
  case true => exact .refl u
  case false =>
    cases ha : e.after
    case none => simpa [apply, entry?, ha] using .erase h
    case some text => simpa [apply, entry?, ha] using .insert h _

theorem get?_apply_of_ne (h : p ≠ e.place) (dryRun : Bool) (u : FileTree) :
    (e.apply dryRun u).get? p = u.get? p := by
  cases dryRun
  case true => rfl
  case false => cases ha : e.after <;> simp [apply, entry?, ha, u.get?_erase_of_ne h, u.get?_insert_of_ne _ h]

theorem get?_apply_self (h : e.place ≠ []) (u : FileTree) : (e.apply false u).get? e.place = e.entry? := by
  cases ha : e.after <;> simp [apply, entry?, ha, u.get?_erase_self h, u.get?_insert_self _ h]

end Effect

namespace FileAction

variable {action : FileAction} {source : Text} {keepLines : Bool}

theorem change_of_result? (h : action.result? source keepLines = some after) :
    action.change source keepLines = .ok
      (after.elim .delete fun text => .overwrite (String.ofList text), after.elim 0 Text.lineCount) := by
  cases action
  case delete =>
    cases h
    rfl
  case snip spans =>
    have ⟨out, ho, ha⟩ := Option.map_eq_some_iff.mp h
    subst ha
    cases he : source.edited spans keepLines <;> rw [he] at ho <;> cases ho
    rw [change, he]
    rfl

theorem change_of_failure (h : action.result? source keepLines = none) :
    ∃ spans e, action = .snip spans ∧ source.edited spans keepLines = .error e ∧
      action.change source keepLines = .error e.toFailure := by
  cases action
  case delete => contradiction
  case snip spans =>
    cases he : source.edited spans keepLines
    case error e => exact ⟨spans, e, rfl, he, by rw [change, he]; rfl⟩
    case ok => simp [result?, he, Except.toOption] at h

end FileAction

namespace FilePlan

theorem locate_of_effect? (h : x.effect? s t = some e) :
    ∃ content, t.locate .follow (Path.join s.root x.filename) = .ok (.found e.place (.file content)) := by
  have ⟨⟨p, text⟩, ht, h⟩ := Option.bind_eq_some_iff.mp h
  have ⟨after, _, h⟩ := Option.bind_eq_some_iff.mp h
  cases h
  exact FileTree.locate_of_text? ht

theorem get?_of_effect? (h : x.effect? s t = some e) :
    ∃ content, t.get? e.place = some (.file content) := by
  have ⟨content, hl⟩ := locate_of_effect? h
  exact ⟨content, (FileTree.locate_ok_iff.mp hl).right.holds⟩

theorem shape_of_effect? (h : x.effect? s t = some e) : t.shape e.place = none := by
  have ⟨_, hg⟩ := get?_of_effect? h
  exact FileTree.shape_of_get? hg

theorem place_ne_nil (h : x.effect? s t = some e) : e.place ≠ [] :=
  FileTree.ne_nil_of_shape (shape_of_effect? h)

theorem edit_of_text? (h : t.text? (Path.join s.root x.filename) = some (p, text)) :
    x.edit t s.root s.keepLines = x.action.change text s.keepLines >>= fun c =>
      .ok ⟨x.filename, Path.join s.root x.filename, c.1, text.lineCount, c.2⟩ := by
  have hl : t.load (Path.join s.root x.filename) = .ok (String.ofList text) :=
    mapError_ok_iff.mpr (FileTree.read_of_text? h)
  have he : x.edit t s.root s.keepLines = t.load (Path.join s.root x.filename) >>= fun source =>
      x.action.change source.toList s.keepLines >>= fun c =>
        .ok ⟨x.filename, Path.join s.root x.filename, c.1, Text.lineCount source.toList, c.2⟩ := rfl
  rw [he, hl]
  change x.action.change (String.ofList text).toList s.keepLines >>= _ = _
  rw [String.toList_ofList]

theorem edit_of_effect? (h : x.effect? s t = some e) :
    x.edit t s.root s.keepLines = .ok (e.edit x s) := by
  have ⟨⟨p, text⟩, ht, h⟩ := Option.bind_eq_some_iff.mp h
  have ⟨after, ha, h⟩ := Option.bind_eq_some_iff.mp h
  cases h
  rw [edit_of_text? ht, FileAction.change_of_result? ha]
  rfl

theorem edit_of_failure (h : x.effect? s t = none) :
    ∃ failure, x.Fails s t failure ∧ x.edit t s.root s.keepLines = .error failure := by
  cases ht : t.text? (Path.join s.root x.filename)
  case none =>
    have ⟨e, he⟩ := FileTree.read_of_text?_none ht
    exact ⟨_, .unreadable he, by rw [edit, FileTree.load, he]; rfl⟩
  case some file =>
    have ⟨p, text⟩ := file
    have ha : x.action.result? text s.keepLines = none := by
      cases ha : x.action.result? text s.keepLines
      case none => rfl
      case some => simp [effect?, ht, ha] at h
    have ⟨spans, e, hx, he, hc⟩ := FileAction.change_of_failure ha
    refine ⟨_, .uncut (FileTree.read_of_text? ht) hx (by simpa using he), ?_⟩
    rw [edit_of_text? ht, hc]
    rfl

end FilePlan

end DeadCode
