import DeadCode.Json.Decode
import DeadCode.Proofs.Except
import Mathlib.Data.List.Nodup
import Mathlib.Data.List.Pairwise
import Mathlib.Tactic.Simps.Basic

namespace DeadCode.Json

-- A field as it stands in a document: its key, what may be written for it, and whether it may be left out.
structure Slot where
  key        : String
  writes     : Fragment → Prop
  omissible  : Prop

namespace Slot

-- The members for some fields in their order.
inductive Listed : List Slot → List (Option String × Fragment) → Prop
  | nil     : Listed [] []
  | written : slot.writes value → Listed slots members →
    Listed (slot :: slots) ((some slot.key, value) :: members)
  | absent  : slot.omissible → Listed slots members → Listed (slot :: slots) members

-- An object with the given fields. Members that are no fields can hold anything that can be read.
inductive Describes (slots : List Slot) : Fragment → Prop
  | object : Listed slots fields →
    (∀ x ∈ others, ∃ key, x.1 = some key ∧ key ∉ slots.map Slot.key ∧ x.2.isWhole) →
    members.Perm (fields ++ others) → Describes slots (.object members true)

-- A field with a plain value.
@[simps]
def plain (key : String) (value : Json) (omissible : Prop) : Slot where
  key := key
  writes fragment := fragment = value.toFragment
  omissible := omissible

-- A field with a list, which may be left out if there is nothing in it.
@[simps]
def list (key : String) (writes : α → Fragment → Prop) (items : List α) : Slot where
  key := key
  writes fragment := ∃ fragments, fragment = .array fragments true ∧ items.Forall₂ writes fragments
  omissible := items = []

-- A field that is a record itself.
@[simps]
def nested (key : String) (slots : List Slot) : Slot where
  key := key
  writes := Describes slots
  omissible := False

end Slot

-- How a field is read: what is written for it always does the same to the record that is being put
-- together.
structure Reading (σ : Type) where
  slot   : Slot
  field  : Decoder.Field σ
  update : σ → Except DecodeError σ
  name   : field.name = slot.key
  decode : ∀ {value draft}, slot.writes value → field.decode value draft = update draft

namespace Reading

-- Fields that are read if some are left out.
inductive Kept {σ : Type} : List (Reading σ) → List (Reading σ) → Prop
  | nil     : Kept [] []
  | written : Kept rs kept → Kept (r :: rs) (r :: kept)
  | absent  : r.slot.omissible → Kept rs kept → Kept (r :: rs) kept

variable {σ : Type} {r : Reading σ} {rs all kept : List (Reading σ)} {draft : σ}
  {members fields : List (Option String × Fragment)}

-- What is read first does not matter.
def Commutes (r r' : Reading σ) : Prop :=
  ∀ draft, (r.update draft >>= r'.update) = (r'.update draft >>= r.update)

instance : Std.Symm (Commutes (σ := σ)) :=
  ⟨fun _ _ h draft => (h draft).symm⟩

def updates (rs : List (Reading σ)) (draft : σ) : Except DecodeError σ :=
  rs.foldlM (fun draft r => r.update draft) draft

theorem Kept.sublist (h : Kept rs kept) : kept.Sublist rs := by
  induction h
  case nil => exact .slnil
  case written hi => exact hi.cons_cons _
  case absent hi => exact hi.cons _

theorem Kept.eq_of_required (h : Kept rs kept) (hr : ∀ r ∈ rs, ¬r.slot.omissible) : kept = rs := by
  induction h
  case nil => rfl
  case written hi => rw [hi fun r hm => hr r (.tail _ hm)]
  case absent ho _ _ => exact absurd ho (hr _ (.head _))

-- What is left out stays without effect, whatever else has been read before.
theorem Kept.updates_eq (h : Kept rs kept) (hc : rs.Pairwise Commutes)
    (hd : ∀ r ∈ rs, r.slot.omissible → r.update draft = .ok draft) :
    updates kept draft = updates rs draft := by
  induction h generalizing draft
  case nil => rfl
  case written rs kept r _ hi =>
    have ⟨hr, hc⟩ := List.pairwise_cons.mp hc
    simp only [updates, List.foldlM_cons] at hi ⊢
    cases hu : r.update draft
    case error => rfl
    case ok next =>
      refine hi hc fun r' hm ho => ?_
      have h := hr r' hm draft
      rw [hu, hd r' (.tail _ hm) ho] at h
      exact h.trans hu
  case absent rs kept r ho _ hi =>
    have hu := hd r (.head _) ho
    rw [hi hc.tail fun r' hm => hd r' (.tail _ hm)]
    simp only [updates, List.foldlM_cons, hu]
    rfl

-- The field that a member belongs to.
def pick (rs : List (Reading σ)) (x : Option String × Fragment) : Option (Reading σ) :=
  rs.find? (some ·.slot.key == x.1)

-- A member that can be read: as a field, or because it need not be.
def Sound (rs : List (Reading σ)) (x : Option String × Fragment) : Prop :=
  (∃ r, pick rs x = some r ∧ r.slot.writes x.2) ∨ pick rs x = none ∧ x.1.isSome ∧ x.2.isWhole

theorem pick_self (hk : (rs.map (·.slot.key)).Nodup) (hr : r ∈ rs) (value : Fragment) :
    pick rs (some r.slot.key, value) = some r := by
  have hs : (pick rs (some r.slot.key, value)).isSome := List.find?_isSome.mpr ⟨r, hr, by simp⟩
  have ⟨r', h⟩ := Option.isSome_iff_exists.mp hs
  have he : r'.slot.key = r.slot.key := by simpa [pick] using List.find?_some h
  rw [h, List.inj_on_of_nodup_map hk (List.mem_of_find?_eq_some h) hr he]

theorem pick_of_not_mem (hk : key ∉ rs.map (·.slot.key)) (value : Fragment) :
    pick rs (some key, value) = none := by
  refine List.find?_eq_none.mpr fun r hr => ?_
  have : r.slot.key ≠ key := fun he => hk (he ▸ List.mem_map_of_mem hr)
  simpa using this

theorem find?_fields (rs : List (Reading σ)) (key : String) (value : Fragment) :
    (rs.map field).find? (·.name == key) = (pick rs (some key, value)).map field := by
  simp only [pick, List.find?_map]
  congr 2
  funext r
  simp [r.name]

theorem members_eq (hs : ∀ x ∈ members, Sound rs x)
    (hn : (seen ++ (members.filterMap (pick rs)).map (·.slot.key)).Nodup) :
    Decoder.members (rs.map field) seen draft members =
      updates (members.filterMap (pick rs)) draft := by
  induction members generalizing seen draft
  case nil => rfl
  case cons x members hi =>
    obtain ⟨key, value⟩ := x
    rw [List.forall_mem_cons] at hs
    obtain ⟨⟨r, hr, hw⟩ | ⟨hr, hk, hw⟩, hs⟩ := hs
    case inl =>
      have hk : some r.slot.key = key := by simpa using List.find?_some hr
      subst hk
      rw [List.filterMap_cons_some hr] at hn ⊢
      have hn : (r.slot.key :: seen ++ (members.filterMap (pick rs)).map (·.slot.key)).Nodup :=
        List.nodup_middle.mp hn
      have hm : seen.contains r.slot.key = false := by
        simpa using fun h => hn.notMem (List.mem_append_left _ h)
      simp only [Decoder.members, find?_fields rs _ value, hr, Option.map_some, hm, r.decode hw,
        hi hs hn, Bool.false_eq_true, if_false]
      rfl
    case inr =>
      obtain ⟨key, rfl⟩ := Option.isSome_iff_exists.mp hk
      rw [List.filterMap_cons_none hr] at hn ⊢
      simp only [Decoder.members, find?_fields rs key value, hr, Option.map_none, hw, if_true]
      exact hi hs hn

-- The members for some fields are read as these fields.
theorem exists_kept (hk : (all.map (·.slot.key)).Nodup) (hr : ∀ r ∈ rs, r ∈ all)
    (h : Slot.Listed (rs.map slot) fields) :
    ∃ kept, Kept rs kept ∧ fields.filterMap (pick all) = kept ∧ ∀ x ∈ fields, Sound all x := by
  induction rs generalizing fields
  case nil =>
    cases h
    exact ⟨[], .nil, rfl, by simp⟩
  case cons r rs hi =>
    have ⟨hm, hr⟩ := List.forall_mem_cons.mp hr
    cases h
    case written fields value hw h =>
      have ⟨kept, hkept, hf, hs⟩ := hi hr h
      have hp := pick_self hk hm value
      refine ⟨r :: kept, .written hkept, ?_, List.forall_mem_cons.mpr ⟨.inl ⟨r, hp, hw⟩, hs⟩⟩
      rw [List.filterMap_cons_some hp, hf]
    case absent ho h =>
      have ⟨kept, hkept, hf⟩ := hi hr h
      exact ⟨kept, .absent ho hkept, hf⟩

theorem record_of_describes (hk : (rs.map (·.slot.key)).Nodup) (hc : rs.Pairwise Commutes)
    (h : Slot.Describes (rs.map slot) fragment) (draft : σ)
    (finish : (String → DecodeError) → σ → Except DecodeError α) : ∃ kept, Kept rs kept ∧
      Decoder.record (rs.map field) draft finish fragment =
        updates kept draft >>= finish .missingField := by
  obtain ⟨hf, ho, hp⟩ := h
  rename_i fields others members
  have ⟨kept, hkept, hfields, hs⟩ := exists_kept hk (fun _ h => h) hf
  have hothers : ∀ x ∈ others, pick rs x = none ∧ Sound rs x := by
    intro x hx
    obtain ⟨key, value⟩ := x
    obtain ⟨key, rfl, hn, hw⟩ := ho _ hx
    have hn : pick rs (some key, value) = none := pick_of_not_mem (by simpa using hn) value
    exact ⟨hn, .inr ⟨hn, rfl, hw⟩⟩
  have hpick : (members.filterMap (pick rs)).Perm kept := by
    refine (hp.filterMap _).trans ?_
    rw [List.filterMap_append, hfields, List.filterMap_eq_nil_iff.mpr fun x hx => (hothers x hx).left,
      List.append_nil]
  have hsound : ∀ x ∈ members, Sound rs x := by
    intro x hx
    rcases List.mem_append.mp (hp.mem_iff.mp hx) with hx | hx
    case inl => exact hs x hx
    case inr => exact (hothers x hx).right
  have hn : (([] : List String) ++ (members.filterMap (pick rs)).map (·.slot.key)).Nodup :=
    (hpick.map _).nodup_iff.mpr (hk.sublist (hkept.sublist.map _))
  refine ⟨kept, hkept, ?_⟩
  have hu : updates (members.filterMap (pick rs)) draft = updates kept draft := by
    have hc : ∀ r ∈ rs, ∀ r' ∈ rs, r.Commutes r' := hc.forall_of_forall fun r _ _ => rfl
    have hm {r} (h : r ∈ members.filterMap (pick rs)) : r ∈ rs :=
      hkept.sublist.subset (hpick.mem_iff.mp h)
    exact foldlM_perm hpick (fun r hr r' hr' => hc r (hm hr) r' (hm hr')) draft
  simp only [Decoder.record, members_eq hsound hn, hu]
  rfl

theorem record_eq (hk : (rs.map (·.slot.key)).Nodup) (hc : rs.Pairwise Commutes)
    (hd : ∀ r ∈ rs, r.slot.omissible → r.update draft = .ok draft)
    (h : Slot.Describes (rs.map slot) fragment)
    (finish : (String → DecodeError) → σ → Except DecodeError α) :
    Decoder.record (rs.map field) draft finish fragment =
      updates rs draft >>= finish .missingField := by
  have ⟨_, hkept, hr⟩ := record_of_describes hk hc h draft finish
  rw [hr, hkept.updates_eq hc hd]

-- A named field, of which all that may be written is decoded alike.
@[simps]
def named (slot : Slot) (decode : Decoder α) (set : α → σ → σ) (value : Except DecodeError α)
    (h : ∀ {fragment}, slot.writes fragment → decode fragment = value) : Reading σ where
  slot := slot
  field := .named slot.key decode set
  update draft := (set · draft) <$> value
  name := rfl
  decode hw := by simp only [Decoder.Field.named, h hw]

end Reading

theorem Decoder.list_eq {decode : Decoder α} {f : β → Except DecodeError α} {writes : β → Fragment → Prop}
    (hd : ∀ {x fragment}, writes x fragment → decode fragment = f x)
    (h : (Slot.list key writes xs).writes fragment) : Decoder.list decode fragment = xs.mapM f := by
  obtain ⟨fragments, rfl, h⟩ := h
  have hm : fragments.mapM decode = xs.mapM f := by
    induction h
    case nil => rfl
    case cons hw _ hi => simp only [List.mapM_cons, hd hw, hi]
  simp [list, hm]

end DeadCode.Json
