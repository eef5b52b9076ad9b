import DeadCode.Manifest.Decode
import DeadCode.Proofs.Json.Record
import Mathlib.Data.Set.List
import Mathlib.Tactic.Lift

namespace DeadCode

open Json

-- What a document says of a span.
structure Offsets where
  fullStart : Nat
  start     : Nat
  stop      : Nat

def Span.offsets (s : Span) : Offsets :=
  ⟨s.fullStart, s.start, s.stop⟩

namespace Offsets

def Valid (o : Offsets) : Prop :=
  o.fullStart ≤ o.start ∧ o.start ≤ o.stop

def check (o : Offsets) : Except SpanError Span :=
  Span.ofOffsets o.fullStart o.start o.stop

def slots (o : Offsets) : List Slot := [
  .plain "full_start" (.nat o.fullStart) (o.fullStart = o.start),
  .plain "start" (.nat o.start) False,
  .plain "end" (.nat o.stop) False]

end Offsets

namespace Manifest

namespace Unchecked

structure Declaration where
  name            : Option String
  isExport        : Bool
  offsets         : Offsets
  referenceSearch : Option Bool

structure File where
  filename        : String
  isEntrypoint    : Bool
  referenceSearch : Bool
  declarations    : List Declaration

end Unchecked

-- A manifest whose spans have not been checked.
structure Unchecked where
  files  : List Unchecked.File
  usages : List UsageEntry

def DeclarationEntry.unchecked (d : DeclarationEntry) : Unchecked.Declaration :=
  ⟨d.name, d.isExport, d.span.offsets, d.referenceSearch⟩

def FileEntry.unchecked (f : FileEntry) : Unchecked.File :=
  ⟨f.filename, f.isEntrypoint, f.referenceSearch, f.declarations.map DeclarationEntry.unchecked⟩

def unchecked (m : Manifest) : Unchecked :=
  ⟨m.files.map FileEntry.unchecked, m.usages⟩

def Target.slots (t : Target) : List Slot := [
  .plain "file" (.string t.file) False,
  .plain "declaration" (.nat t.declaration) False]

def UsageEntry.slots (u : UsageEntry) : List Slot := [
  .plain "kind" (.string u.kind.name) False,
  .plain "file" (.string u.file) False,
  .plain "location" (.nat u.location) (u.location = 0),
  .plain "containing" (.ofOption .nat u.container) (u.container = none),
  .nested "target" u.target.slots]

namespace Unchecked

def Declaration.slots (d : Declaration) : List Slot := [
  .plain "name" (.ofOption .string d.name) (d.name = none),
  .plain "export" (.bool d.isExport) (d.isExport = false),
  .nested "span" d.offsets.slots,
  .plain "reference_search" (.ofOption .bool d.referenceSearch) (d.referenceSearch = none)]

def File.slots (f : File) : List Slot := [
  .plain "filename" (.string f.filename) False,
  .plain "entrypoint" (.bool f.isEntrypoint) (f.isEntrypoint = false),
  .plain "reference_search" (.bool f.referenceSearch) (f.referenceSearch = true),
  .list "declarations" (fun d => Slot.Describes d.slots) f.declarations]

def slots (u : Unchecked) : List Slot := [
  .list "files" (fun f => Slot.Describes f.slots) u.files,
  .list "usages" (fun e => Slot.Describes e.slots) u.usages]

-- A document in which a manifest is written. Fields with their default can be left out, and in every object
-- the members can be in any order, with others between them.
abbrev Written (u : Unchecked) (fragment : Fragment) : Prop :=
  Slot.Describes u.slots fragment

-- All offsets are those of spans.
def Valid (u : Unchecked) : Prop :=
  ∀ f ∈ u.files, ∀ d ∈ f.declarations, d.offsets.Valid

def Declaration.check (d : Declaration) : Except SpanError DeclarationEntry :=
  (⟨d.name, d.isExport, ·, d.referenceSearch⟩) <$> d.offsets.check

def File.check (f : File) : Except SpanError FileEntry :=
  (⟨f.filename, f.isEntrypoint, f.referenceSearch, ·⟩) <$> f.declarations.mapM Declaration.check

-- The manifest, or the error of the first span that is none.
def check (u : Unchecked) : Except SpanError Manifest :=
  (⟨·, u.usages⟩) <$> u.files.mapM File.check

end Unchecked

end Manifest

namespace Offsets

variable {o : Offsets}

instance : CanLift Offsets Span Span.offsets Valid :=
  ⟨fun o h => ⟨⟨o.fullStart, o.start, o.stop, h.left, h.right⟩, rfl⟩⟩

theorem check_ok_iff : o.check = .ok s ↔ s.offsets = o := by
  constructor
  case mp =>
    intro h
    unfold check Span.ofOffsets at h
    split at h
    case isTrue =>
      split at h <;> cases h
      rfl
    case isFalse => contradiction
  case mpr =>
    intro h
    subst h
    simp [check, Span.ofOffsets, Span.offsets, s.fullStart_le_start, s.start_le_stop]

end Offsets

namespace Manifest.Unchecked

instance : CanLift Declaration DeclarationEntry DeclarationEntry.unchecked (·.offsets.Valid) where
  prf := by
    intro ⟨name, isExport, offsets, referenceSearch⟩ h
    lift offsets to Span using h
    exact ⟨⟨name, isExport, offsets, referenceSearch⟩, rfl⟩

instance : CanLift File FileEntry FileEntry.unchecked (∀ d ∈ ·.declarations, d.offsets.Valid) where
  prf := by
    intro ⟨filename, isEntrypoint, referenceSearch, declarations⟩ h
    lift declarations to List DeclarationEntry using h
    exact ⟨⟨filename, isEntrypoint, referenceSearch, declarations⟩, rfl⟩

instance : CanLift Unchecked Manifest Manifest.unchecked Valid where
  prf := by
    intro ⟨files, usages⟩ h
    lift files to List FileEntry using h
    exact ⟨⟨files, usages⟩, rfl⟩

theorem Declaration.check_ok_iff {d : Declaration} : d.check = .ok e ↔ e.unchecked = d := by
  simp only [check, map_ok_iff, Offsets.check_ok_iff]
  constructor
  case mp =>
    intro ⟨_, hs, he⟩
    rw [← he, DeclarationEntry.unchecked, hs]
  case mpr =>
    intro he
    exact ⟨e.span, he ▸ rfl, he ▸ rfl⟩

theorem File.check_ok_iff {f : File} : f.check = .ok e ↔ e.unchecked = f := by
  simp only [check, map_ok_iff, mapM_ok_iff Declaration.check_ok_iff]
  constructor
  case mp =>
    intro ⟨_, hd, he⟩
    rw [← he, FileEntry.unchecked, hd]
  case mpr =>
    intro he
    exact ⟨e.declarations, he ▸ rfl, he ▸ rfl⟩

theorem check_ok_iff {u : Unchecked} : u.check = .ok m ↔ m.unchecked = u := by
  simp only [check, map_ok_iff, mapM_ok_iff File.check_ok_iff]
  constructor
  case mp =>
    intro ⟨_, hf, hm⟩
    rw [← hm, Manifest.unchecked, hf]
  case mpr =>
    intro hm
    exact ⟨m.files, hm ▸ rfl, hm ▸ rfl⟩

end Manifest.Unchecked

theorem Manifest.unchecked_valid (m : Manifest) : m.unchecked.Valid := by
  intro _ hf _ hd
  have ⟨f, _, hf⟩ := List.mem_map.mp hf
  have ⟨d, _, hd⟩ := List.mem_map.mp (hf ▸ hd)
  exact hd ▸ ⟨d.span.fullStart_le_start, d.span.start_le_stop⟩

namespace Offsets

variable {o : Offsets}

def readings (o : Offsets) : List (Reading SpanDraft) := [
  .named (.plain "full_start" (.nat o.fullStart) (o.fullStart = o.start)) (.optional .nat)
    (fun v d => { d with fullStart := v }) (.ok (some o.fullStart)) (by rintro _ rfl; rfl),
  .named (.plain "start" (.nat o.start) False) .nat
    (fun v d => { d with start := some v }) (.ok o.start) (by rintro _ rfl; rfl),
  .named (.plain "end" (.nat o.stop) False) .nat
    (fun v d => { d with stop := some v }) (.ok o.stop) (by rintro _ rfl; rfl)]

theorem decode_eq (h : Slot.Describes o.slots fragment) :
    Span.decode fragment = o.check.mapError .invalidSpan := by
  have hn : (o.readings.map (·.slot.key)).Nodup := by simp [readings]
  have hc : o.readings.Pairwise Reading.Commutes := by simp [readings, Reading.Commutes, ok_bind]
  have ⟨kept, hk, hr⟩ := Reading.record_of_describes hn hc h {} fun missing d => do
    let start ← Decoder.require missing "start" d.start
    let stop ← Decoder.require missing "end" d.stop
    (Span.ofOffsets (d.fullStart.getD start) start stop).mapError .invalidSpan
  refine Eq.trans hr ?_
  have ht : ∀ r ∈ o.readings.tail, ¬r.slot.omissible := by simp [readings]
  -- Only the first field can be left out, and then it is where the code starts.
  cases hk
  case written hk =>
    rw [hk.eq_of_required ht]
    rfl
  case absent he hk =>
    rw [hk.eq_of_required ht, check, show o.fullStart = o.start from he]
    rfl

end Offsets

namespace Manifest

def Target.readings (t : Target) : List (Reading TargetDraft) := [
  .named (.plain "file" (.string t.file) False) .string
    (fun v d => { d with file := some v }) (.ok t.file) (by rintro _ rfl; rfl),
  .named (.plain "declaration" (.nat t.declaration) False) .nat
    (fun v d => { d with declaration := some v }) (.ok t.declaration) (by rintro _ rfl; rfl)]

theorem Target.decode_eq {t : Target} (h : Slot.Describes t.slots fragment) :
    Target.decode fragment = .ok t := by
  have hn : (t.readings.map (·.slot.key)).Nodup := by simp [readings]
  have hc : t.readings.Pairwise Reading.Commutes := by simp [readings, Reading.Commutes, ok_bind]
  have hd : ∀ r ∈ t.readings, r.slot.omissible → r.update {} = .ok {} := by simp [readings]
  exact Reading.record_eq hn hc hd h _

def UsageEntry.readings (u : UsageEntry) : List (Reading UsageDraft) := [
  .named (.plain "kind" (.string u.kind.name) False) UsageKind.decode
    (fun v d => { d with kind := some v }) (.ok u.kind) (by rintro _ rfl; cases u.kind <;> rfl),
  .named (.plain "file" (.string u.file) False) .string
    (fun v d => { d with file := some v }) (.ok u.file) (by rintro _ rfl; rfl),
  .named (.plain "location" (.nat u.location) (u.location = 0)) .nat
    (fun v d => { d with location := v }) (.ok u.location) (by rintro _ rfl; rfl),
  .named (.plain "containing" (.ofOption .nat u.container) (u.container = none)) (.optional .nat)
    (fun v d => { d with container := v }) (.ok u.container) (by rintro _ rfl; cases u.container <;> rfl),
  .named (.nested "target" u.target.slots) Target.decode
    (fun v d => { d with target := some v }) (.ok u.target)
    fun hw => Target.decode_eq hw]

theorem UsageEntry.decode_eq {u : UsageEntry} (h : Slot.Describes u.slots fragment) :
    UsageEntry.decode fragment = .ok u := by
  have hn : (u.readings.map (·.slot.key)).Nodup := by simp [readings]
  have hc : u.readings.Pairwise Reading.Commutes := by simp [readings, Reading.Commutes, ok_bind]
  have hd : ∀ r ∈ u.readings, r.slot.omissible → r.update {} = .ok {} := by
    simp +contextual [readings]
  exact Reading.record_eq hn hc hd h _

namespace Unchecked

variable {d : Declaration} {f : File} {u : Unchecked}

-- The span is the only field of a declaration that can be wrong.
def Declaration.readings (h : d.offsets.check.mapError DecodeError.invalidSpan = result) :
    List (Reading DeclarationDraft) := [
  .named (.plain "name" (.ofOption .string d.name) (d.name = none)) (.optional .string)
    (fun v d => { d with name := v }) (.ok d.name) (by rintro _ rfl; cases d.name <;> rfl),
  .named (.plain "export" (.bool d.isExport) (d.isExport = false)) .bool
    (fun v d => { d with isExport := v }) (.ok d.isExport) (by rintro _ rfl; rfl),
  .named (.nested "span" d.offsets.slots) Span.decode
    (fun v d => { d with span := some v }) result
    fun hw => (Offsets.decode_eq hw).trans h,
  .named (.plain "reference_search" (.ofOption .bool d.referenceSearch) (d.referenceSearch = none))
    (.optional .bool) (fun v d => { d with referenceSearch := v }) (.ok d.referenceSearch)
    (by rintro _ rfl; cases d.referenceSearch <;> rfl)]

theorem Declaration.decode_eq (h : Slot.Describes d.slots fragment) :
    DeclarationEntry.decode fragment = d.check.mapError .invalidSpan := by
  obtain ⟨result, hs⟩ : ∃ result, d.offsets.check.mapError DecodeError.invalidSpan = result := ⟨_, rfl⟩
  have hn : ((readings hs).map (·.slot.key)).Nodup := by simp [readings]
  have hc : (readings hs).Pairwise Reading.Commutes := by
    cases result <;> simp [readings, Reading.Commutes, ok_bind, error_bind]
  have hd : ∀ r ∈ readings hs, r.slot.omissible → r.update {} = .ok {} := by
    simp +contextual [readings]
  refine (Reading.record_eq hn hc hd h _).trans ?_
  rw [check, map_mapError, hs]
  cases result <;> rfl

def File.readings
    (h : (f.declarations.mapM Declaration.check).mapError DecodeError.invalidSpan = result) :
    List (Reading FileDraft) := [
  .named (.plain "filename" (.string f.filename) False) .string
    (fun v d => { d with filename := some v }) (.ok f.filename) (by rintro _ rfl; rfl),
  .named (.plain "entrypoint" (.bool f.isEntrypoint) (f.isEntrypoint = false)) .bool
    (fun v d => { d with isEntrypoint := v }) (.ok f.isEntrypoint) (by rintro _ rfl; rfl),
  .named (.plain "reference_search" (.bool f.referenceSearch) (f.referenceSearch = true)) .bool
    (fun v d => { d with referenceSearch := v }) (.ok f.referenceSearch) (by rintro _ rfl; rfl),
  .named (.list "declarations" (fun d => Slot.Describes d.slots) f.declarations)
    (.list DeclarationEntry.decode) (fun v d => { d with declarations := v }) result
    fun hw => by rw [Decoder.list_eq (fun h => Declaration.decode_eq h) hw, mapM_mapError, h]]

theorem File.decode_eq (h : Slot.Describes f.slots fragment) :
    FileEntry.decode fragment = f.check.mapError .invalidSpan := by
  obtain ⟨result, hs⟩ : ∃ result,
    (f.declarations.mapM Declaration.check).mapError DecodeError.invalidSpan = result := ⟨_, rfl⟩
  have hn : ((readings hs).map (·.slot.key)).Nodup := by simp [readings]
  have hc : (readings hs).Pairwise Reading.Commutes := by
    cases result <;> simp [readings, Reading.Commutes, ok_bind, error_bind]
  have hd : ∀ r ∈ readings hs, r.slot.omissible → r.update {} = .ok {} := by
    simp +contextual [readings, ← hs, pure, Except.pure, Except.mapError]
  refine (Reading.record_eq hn hc hd h _).trans ?_
  rw [check, map_mapError, hs]
  cases result <;> rfl

def readings (h : (u.files.mapM File.check).mapError DecodeError.invalidSpan = result) :
    List (Reading Manifest) := [
  .named (.list "files" (fun f => Slot.Describes f.slots) u.files) (.list FileEntry.decode)
    (fun v m => { m with files := v }) result
    fun hw => by rw [Decoder.list_eq (fun h => File.decode_eq h) hw, mapM_mapError, h],
  .named (.list "usages" (fun e => Slot.Describes e.slots) u.usages) (.list UsageEntry.decode)
    (fun v m => { m with usages := v }) (.ok u.usages)
    fun hw => by rw [Decoder.list_eq (fun h => UsageEntry.decode_eq h) hw, mapM_ok]]

theorem decode_eq (h : u.Written fragment) :
    Manifest.decode fragment = u.check.mapError .invalidSpan := by
  obtain ⟨result, hs⟩ : ∃ result,
    (u.files.mapM File.check).mapError DecodeError.invalidSpan = result := ⟨_, rfl⟩
  have hn : ((readings hs).map (·.slot.key)).Nodup := by simp [readings]
  have hc : (readings hs).Pairwise Reading.Commutes := by
    cases result <;> simp [readings, Reading.Commutes, ok_bind, error_bind]
  have hd : ∀ r ∈ readings hs, r.slot.omissible → r.update {} = .ok {} := by
    simp +contextual [readings, ← hs, pure, Except.pure, Except.mapError]
  refine (Reading.record_eq hn hc hd h _).trans ?_
  rw [check, map_mapError, hs]
  cases result <;> rfl

end Unchecked

end Manifest

end DeadCode
