import Mathlib.Order.Defs.Unbundled
import LiveRecords.Evaluation.Read

/-! # Spaces that hold the same

While cells are under evaluation a space records their number and the failures put off, and
assignments are noted as changes. None of this is seen by what looks up, reads or writes out
what the space holds.
-/

namespace LiveRecords

namespace Space

/-- Both spaces hold the same containers, cells and fields under the same names, and will mint
the same key next. -/
structure Agree (s t : Space) : Prop where
  containers : t.containers = s.containers
  derived : t.derived = s.derived
  nextKey : t.nextKey = s.nextKey
  alive : ∀ id, t.alive id = s.alive id
  name : ∀ id, (t.record id).name = (s.record id).name
  fields : ∀ id, (t.record id).fields = (s.record id).fields

namespace Agree

variable {s t u : Space}

theorem refl (s : Space) : Agree s s :=
  ⟨rfl, rfl, rfl, fun _ => rfl, fun _ => rfl, fun _ => rfl⟩

theorem trans (h : Agree s t) (h' : Agree t u) : Agree s u :=
  ⟨h'.containers.trans h.containers, h'.derived.trans h.derived, h'.nextKey.trans h.nextKey,
    fun id => (h'.alive id).trans (h.alive id), fun id => (h'.name id).trans (h.name id),
    fun id => (h'.fields id).trans (h.fields id)⟩

theorem setRecord {id : RecordId} {r : Record} (ha : s.alive id = true)
    (hn : r.name = (s.record id).name) (hf : r.fields = (s.record id).fields) :
    Agree s (s.setRecord id r) where
  containers := rfl
  derived := rfl
  nextKey := rfl
  alive j := by
    rw [alive_setRecord]
    by_cases hj : j = id
    · simp [hj, ha]
    · simp [hj]
  name j := by
    rw [record_setRecord]
    split
    · rename_i hj
      rw [hj, hn]
    · rfl
  fields j := by
    rw [record_setRecord]
    split
    · rename_i hj
      rw [hj, hf]
    · rfl

/-- A change to what a holder has leads from spaces that agree to spaces that agree. -/
theorem setContents (h : Agree s t) (g : Holder) (c : Container) :
    Agree (s.setContents g c) (t.setContents g c) := by
  cases g with
  | shared id =>
    refine ⟨?_, h.derived, h.nextKey, h.alive, h.name, h.fields⟩
    simp only [Space.setContents, setContainer, h.containers]
  | record id =>
    refine ⟨h.containers, h.derived, h.nextKey, fun j => ?_, fun j => ?_, fun j => ?_⟩ <;>
      simp only [Space.setContents]
    · rw [alive_setRecord, alive_setRecord, h.alive]
    · rw [record_setRecord, record_setRecord]
      split
      · exact h.name id
      · exact h.name j
    · rw [record_setRecord, record_setRecord]
      split
      · rfl
      · exact h.fields j

variable (h : Agree s t)
include h

theorem container (id : ContainerId) : t.container id = s.container id := by
  rw [Space.container, h.containers, Space.container]

theorem contents (g : Holder) : t.contents g = s.contents g := by
  cases g with
  | shared id => exact h.container id
  | record id => exact h.fields id

theorem slot? (id : RecordId) (p : Place) : t.slot? id p = s.slot? id p := by
  rw [Space.slot?, h.fields, Space.slot?]

theorem derivation (id : DerivedId) : t.derivation id = s.derivation id := by
  rw [Space.derivation, h.derived, Space.derivation]

theorem nestingBound : t.nestingBound = s.nestingBound := by
  rw [Space.nestingBound, h.containers, Space.nestingBound]

theorem locateWithin (k : Key) (d : Nat) (c : Container) :
    t.locateWithin k d c = s.locateWithin k d c := by
  induction d generalizing c with
  | zero => rfl
  | succ d ih => simp only [Space.locateWithin, h.container, ih]

theorem locate (c : Container) (k : Key) : t.locate c k = s.locate c k := by
  rw [Space.locate, h.nestingBound, h.locateWithin, Space.locate]

theorem field? (c : Container) (k : Key) : t.field? c k = s.field? c k := by
  have ha : t.along c = s.along c := by
    funext path
    rw [Space.along, funext h.container, Space.along]
  rw [Space.field?, h.locate, ha, Space.field?]

theorem field (c : Container) (k : Key) : t.field c k = s.field c k := by
  rw [Space.field, h.field?, Space.field]

theorem value (c : Container) (p : Place) : t.value c p = s.value c p := by
  cases p with
  | key k => rw [Space.value, h.field, Space.value]
  | label l => rfl

theorem reachesWithin (goals : List ContainerId) (d : Nat) (id : ContainerId) :
    t.reachesWithin goals d id = s.reachesWithin goals d id := by
  induction d generalizing id with
  | zero => rfl
  | succ d ih => simp only [Space.reachesWithin, h.container, funext ih]

theorem nests (opened : List ContainerId) (v : Value) : t.nests opened v = s.nests opened v := by
  cases v with
  | tree id =>
    simp only [Space.nests, Space.reaches]
    rw [h.nestingBound, h.reachesWithin]
  | _ => rfl

theorem displayName (id : RecordId) : t.displayName id = s.displayName id := by
  simp only [Space.displayName, h.name, h.fields]

theorem listing_upTo (d : Nat) : Listing.upTo t d = Listing.upTo s d := by
  induction d with
  | zero => rfl
  | succ d ih =>
    funext g
    cases g with
    | tree i => simp only [Listing.upTo, ih, h.container]
    | cell c =>
      cases c with
      | derived i => simp only [Listing.upTo, ih, h.derived]
      | reference target l => simp only [Listing.upTo, h.alive, h.displayName]

theorem listing_ofSpace : Listing.ofSpace t = Listing.ofSpace s := by
  rw [Listing.ofSpace, h.containers, h.derived, h.listing_upTo, Listing.ofSpace]

theorem plainText : t.plainText = s.plainText := by
  funext v
  cases v with
  | text x => rfl
  | _ => simp only [Space.plainText, Space.valueText?, h.listing_ofSpace]

end Agree

end Space

end LiveRecords
