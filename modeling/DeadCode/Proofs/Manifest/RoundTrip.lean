import DeadCode.Proofs.Json.Render
import DeadCode.Proofs.Manifest.Document

namespace DeadCode

namespace Json

-- A way to lay out documents: everything but the order of members is kept, and numbers only if they fit.
structure LaysOut (e : Json → Fragment) (fits : Nat → Prop) : Prop where
  null   : e .null = Json.null.toFragment
  bool   : ∀ value, e (.bool value) = (Json.bool value).toFragment
  nat    : ∀ {value}, fits value → e (.nat value) = (Json.nat value).toFragment
  string : ∀ value, e (.string value) = (Json.string value).toFragment
  array  : ∀ items, e (.array items) = .array (items.map e) true
  object : ∀ members, ∃ xs, e (.object members) = .object xs true ∧
    xs.Perm (members.map fun m => (some m.1, e m.2))

theorem itemFragments_eq (items : List Json) : itemFragments items = items.map toFragment := by
  induction items <;> simp_all [itemFragments]

theorem memberFragments_eq (members : List (String × Json)) :
    memberFragments members = members.map fun m => (some m.1, m.2.toFragment) := by
  induction members <;> simp_all [memberFragments]

theorem laysOut_toFragment : LaysOut toFragment fun _ => True where
  null := rfl
  bool _ := rfl
  nat _ := rfl
  string _ := rfl
  array items := by rw [toFragment, itemFragments_eq]
  object members := ⟨_, by rw [toFragment], .of_eq (memberFragments_eq members)⟩

theorem laysOut_written : LaysOut written (· < 2 ^ 64) where
  null := rfl
  bool _ := rfl
  nat h := by rw [written, if_pos h, toFragment]
  string _ := rfl
  array items := by rw [written, writtenItems_eq]
  object members := ⟨_, written_object members, (List.mergeSort_perm members _).map _⟩

namespace LaysOut

variable (h : LaysOut e fits)
include h

theorem ofOption {x : Option α} (hf : ∀ a ∈ x, e (f a) = (f a).toFragment) :
    e (.ofOption f x) = (Json.ofOption f x).toFragment := by
  cases x
  case none => exact h.null
  case some a => exact hf a rfl

theorem describes (hm : slots.Forall₂ (fun slot m => slot.key = m.1 ∧ slot.writes (e m.2)) members) :
    Slot.Describes slots (e (.object members)) := by
  have hl : Slot.Listed slots (members.map fun m => (some m.1, e m.2)) := by
    induction hm
    case nil => exact .nil
    case cons hm _ hi =>
      rw [List.map_cons, ← hm.left]
      exact .written hm.right hi
  have ⟨xs, hx, hp⟩ := h.object members
  rw [hx]
  exact .object hl (List.forall_mem_nil _) (by simpa using hp)

end LaysOut

end Json

open Json

-- The numbers that are part of a manifest.
def Span.numbers (s : Span) : List Nat :=
  [s.fullStart, s.start, s.stop]

def Manifest.UsageEntry.numbers (u : UsageEntry) : List Nat :=
  u.location :: u.target.declaration :: u.container.toList

def Manifest.numbers (m : Manifest) : List Nat :=
  m.files.flatMap (·.declarations.flatMap (·.span.numbers)) ++ m.usages.flatMap (·.numbers)

namespace Json.LaysOut

open Manifest

variable (h : LaysOut e fits)
include h

theorem span {s : Span} (hf : ∀ n ∈ s.numbers, fits n) : Slot.Describes s.offsets.slots (e s.toJson) := by
  simp only [Span.numbers, List.forall_mem_cons] at hf
  apply h.describes
  simp [Offsets.slots, Span.offsets, h.nat, hf]

theorem declaration {d : DeclarationEntry} (hf : ∀ n ∈ d.span.numbers, fits n) :
    Slot.Describes d.unchecked.slots (e d.toJson) := by
  have hn := h.ofOption fun name (_ : name ∈ d.name) => h.string name
  have hr := h.ofOption fun flag (_ : flag ∈ d.referenceSearch) => h.bool flag
  apply h.describes
  simp [Unchecked.Declaration.slots, DeclarationEntry.unchecked, h.bool, hn, h.span hf, hr]

theorem file {f : FileEntry} (hf : ∀ d ∈ f.declarations, ∀ n ∈ d.span.numbers, fits n) :
    Slot.Describes f.unchecked.slots (e f.toJson) := by
  have hd d hd := h.declaration (hf d hd)
  apply h.describes
  simpa [Unchecked.File.slots, FileEntry.unchecked, h.bool, h.string, h.array] using hd

theorem target {t : Target} (hf : fits t.declaration) : Slot.Describes t.slots (e t.toJson) := by
  apply h.describes
  simp [Target.slots, h.string, h.nat hf]

theorem usage {u : UsageEntry} (hf : ∀ n ∈ u.numbers, fits n) : Slot.Describes u.slots (e u.toJson) := by
  simp only [UsageEntry.numbers, List.forall_mem_cons, Option.mem_toList] at hf
  have ⟨hl, ht, hc⟩ := hf
  have hc := h.ofOption fun n hn => h.nat (hc n hn)
  apply h.describes
  simp [UsageEntry.slots, h.string, h.nat hl, hc, h.target ht]

theorem manifest {m : Manifest} (hf : ∀ n ∈ m.numbers, fits n) : m.unchecked.Written (e m.toJson) := by
  simp only [Manifest.numbers, List.forall_mem_append, List.forall_mem_flatMap] at hf
  have hfiles f hm := h.file (hf.left f hm)
  have husages u hm := h.usage (hf.right u hm)
  apply h.describes
  simpa [Unchecked.slots, Manifest.unchecked, h.array] using ⟨hfiles, husages⟩

end Json.LaysOut

namespace Manifest

variable {u : Unchecked}

theorem decode_ok_iff (h : u.Written fragment) : decode fragment = .ok m ↔ m.unchecked = u := by
  rw [Unchecked.decode_eq h, mapError_ok_iff, Unchecked.check_ok_iff]

theorem parse_eq (path : String) (h : Json.read text = (fragment, true)) :
    parse path text = (decode fragment).mapError (failure path) := by
  have hr : Decoder.run decode text = decode fragment := by
    simp only [Decoder.run, h]
    cases decode fragment <;> rfl
  rw [parse, hr]

theorem parse_ok_iff (path : String) (h : u.Written fragment) (hr : Json.read text = (fragment, true)) :
    parse path text = .ok m ↔ m.unchecked = u := by
  rw [parse_eq path hr, mapError_ok_iff, decode_ok_iff h]

-- A text in which a manifest is written is read as that manifest if all of its spans are spans, and as none
-- otherwise. One such text is rendered from the manifest itself, unless a number in it is too large.
theorem parse_written (path : String) :
    (∀ {u : Unchecked} {fragment text}, u.Written fragment → Json.read text = (fragment, true) →
      (u.Valid ↔ ∃ m, parse path text = .ok m) ∧ ∀ m, parse path text = .ok m ↔ m.unchecked = u) ∧
    (∀ m : Manifest, m.unchecked.Written m.toJson.toFragment ∧ decode m.toJson.toFragment = .ok m) ∧
    (∀ m : Manifest, (∀ n ∈ m.numbers, n < 2 ^ 64) → parse path m.toJson.render = .ok m) ∧
    ∀ {text m}, parse path text = .ok m → m.unchecked.Valid := by
  refine ⟨fun {u _ _} h hr => ⟨?_, fun m => parse_ok_iff path h hr⟩, fun m => ?_, fun m hn => ?_, ?_⟩
  case refine_1 =>
    simp only [parse_ok_iff path h hr]
    constructor
    case mp =>
      intro hv
      lift u to Manifest using hv
      exact ⟨u, rfl⟩
    case mpr =>
      intro ⟨m, hm⟩
      exact hm ▸ m.unchecked_valid
  case refine_2 =>
    have h := laysOut_toFragment.manifest (m := m) fun _ _ => trivial
    exact ⟨h, (decode_ok_iff h).mpr rfl⟩
  case refine_3 => exact (parse_ok_iff path (laysOut_written.manifest hn) (read_render _)).mpr rfl
  case refine_4 => exact fun {_ m} _ => m.unchecked_valid

-- A manifest in which nearly everything is as usual.
def terse : Manifest where
  files := [{ filename := "a.js", declarations := [{ span := ⟨5, 5, 9, by decide, by decide⟩ }] }]
  usages := [{ kind := .grep, file := "a.js", target := ⟨"a.js", 0⟩ }]

-- The same manifest without what goes without saying, but with an owner of the file.
def terseJson : Json := .object [
  ("files", .array [.object [
    ("declarations", .array [.object [("span", .object [("end", .nat 9), ("start", .nat 5)])]]),
    ("filename", .string "a.js"),
    ("owner", .null)]]),
  ("usages", .array [.object [
    ("file", .string "a.js"),
    ("kind", .string "grep"),
    ("target", .object [("declaration", .nat 0), ("file", .string "a.js")])]])]

theorem terse_written : terse.unchecked.Written terseJson.written := by
  have hw : terseJson.written = terseJson.toFragment := by
    simp [terseJson, written, writtenItems, writtenMembers, toFragment, memberFragments, itemFragments,
      List.mergeSort]
  have hspan : Slot.Describes (Offsets.slots ⟨5, 5, 9⟩)
      (toFragment (.object [("end", .nat 9), ("start", .nat 5)])) :=
    .object (.absent rfl (.written rfl (.written rfl .nil))) (List.forall_mem_nil _) (.swap _ _ _)
  have hdeclaration : Slot.Describes (Unchecked.Declaration.slots ⟨none, false, ⟨5, 5, 9⟩, none⟩)
      (toFragment (.object [("span", .object [("end", .nat 9), ("start", .nat 5)])])) :=
    .object (.absent rfl (.absent rfl (.written hspan (.absent rfl .nil)))) (List.forall_mem_nil _) (.refl _)
  have howner : ∀ x ∈ [(some "owner", Fragment.null)], ∃ key, x.1 = some key ∧
      key ∉ ["filename", "entrypoint", "reference_search", "declarations"] ∧ x.2.isWhole := by
    simp [Fragment.isWhole]
  have hfile : Slot.Describes
      (Unchecked.File.slots ⟨"a.js", false, true, [⟨none, false, ⟨5, 5, 9⟩, none⟩]⟩) _ :=
    .object (.written rfl (.absent rfl (.absent rfl (.written ⟨_, rfl, .cons hdeclaration .nil⟩ .nil))))
      howner (.swap _ _ _)
  have htarget : Slot.Describes (Target.slots ⟨"a.js", 0⟩)
      (toFragment (.object [("declaration", .nat 0), ("file", .string "a.js")])) :=
    .object (.written rfl (.written rfl .nil)) (List.forall_mem_nil _) (.swap _ _ _)
  have husage : Slot.Describes (UsageEntry.slots ⟨.grep, "a.js", 0, none, ⟨"a.js", 0⟩⟩) _ :=
    .object (.written rfl (.written rfl (.absent rfl (.absent rfl (.written htarget .nil)))))
      (List.forall_mem_nil _) (.swap _ _ _)
  rw [hw]
  exact .object (.written ⟨_, rfl, .cons hfile .nil⟩ (.written ⟨_, rfl, .cons husage .nil⟩ .nil))
    (List.forall_mem_nil _) (.refl _)

theorem parse_written_terse :
    terse.unchecked.Written terseJson.written ∧ Json.read terseJson.render = (terseJson.written, true) ∧
      parse "manifest.json" terseJson.render = .ok terse ∧
      (∀ n ∈ terse.numbers, n < 2 ^ 64) ∧ parse "manifest.json" terse.toJson.render = .ok terse :=
  have hn : ∀ n ∈ terse.numbers, n < 2 ^ 64 := by decide
  have ⟨hparse, _, hrender, _⟩ := parse_written "manifest.json"
  ⟨terse_written, read_render terseJson, ((hparse terse_written (read_render terseJson)).right terse).mpr rfl,
    hn, hrender terse hn⟩

end Manifest

end DeadCode
