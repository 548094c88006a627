import LiveRecords.Proofs.Container.WellKept
import LiveRecords.Proofs.Evaluation.Reading
import LiveRecords.Proofs.Evaluation.Writing

/-! # Assignments taken back

The fields of every container are kept in the order of their keys. So a space in which a field is
given another value and then its old one is the very space there was before, and so is one in which
a cell has been evaluated.
-/

namespace LiveRecords

namespace Space

/-- Records and the fields of every holder are in the order of their keys. -/
structure Sorted (s : Space) : Prop where
  records : s.records.Ascending
  fields : ∀ h, (s.contents h).fields.Ascending

variable {s t : Space}

theorem Sorted.empty : ({} : Space).Sorted where
  records := Table.ascending_empty
  fields h := by cases h <;> exact Table.ascending_empty

theorem Sorted.congr (hs : s.Sorted) (hc : ∀ h, t.contents h = s.contents h)
    (ha : t.records.Ascending) : t.Sorted where
  records := ha
  fields h := hc h ▸ hs.fields h

theorem Sorted.setRecord (hs : s.Sorted) (id : RecordId) {r : Record}
    (hr : r.fields.fields.Ascending) : (s.setRecord id r).Sorted where
  records := hs.records.put id r
  fields h := by
    rw [contents_setRecord]
    split
    · exact hr
    · exact hs.fields h

theorem Sorted.setRecord_of_fields (hs : s.Sorted) {id : RecordId} {r : Record}
    (hr : r.fields = (s.record id).fields) : (s.setRecord id r).Sorted :=
  hs.setRecord id (hr ▸ hs.fields (.record id))

theorem Sorted.setContents (hs : s.Sorted) (h : Holder) {c : Container}
    (hc : c.fields.Ascending) : (s.setContents h c).Sorted := by
  cases h with
  | record id => exact hs.setRecord id hc
  | shared id =>
    refine ⟨hs.records, fun g => ?_⟩
    rw [contents_setContents]
    split
    · exact hc
    · exact hs.fields g

theorem Sorted.insert (hs : s.Sorted) (h : Holder) (l : Label) (v : Value)
    (arrange : Key → List Key → List Key) : (final (h.insert l v arrange) s).Sorted := by
  rcases h.final_insert l v s arrange with he | ⟨-, -, he⟩ <;> rw [he]
  · exact hs
  · have ht : { s with nextKey := s.nextKey + 1 }.Sorted :=
      hs.congr (s.contents_setNextKey _) hs.records
    exact ht.setContents h ((hs.fields h).put _ _)

theorem holderClosed_sorted : Holder.Closed (Keeps Sorted) where
  add h l v s hs := hs.insert h l v _
  addBefore h next l v s hs := by
    rcases h.final_addBefore l v s next with he | ⟨-, he⟩ <;> rw [he]
    · exact hs
    · exact hs.insert h l v _
  replaceWithin opened h k v _ s hs := by
    rcases h.final_replaceWithin k v s opened with he | ⟨f, -, -, he⟩ <;> rw [he]
    · exact hs
    · exact hs.setContents h ((hs.fields h).put k _)
  remove h k s hs := by
    rcases h.final_remove k s with he | ⟨f, -, he⟩ <;> rw [he]
    · exact hs
    · exact hs.setContents h ((hs.fields h).erase k)
  relabel h k l s hs := by
    rcases h.final_relabel k l s with he | ⟨f, -, -, he⟩ <;> rw [he]
    · exact hs
    · exact hs.setContents h ((hs.fields h).put k _)

theorem Sorted.retain (hs : s.Sorted) (held : RecordId → Bool) : (s.retain held).Sorted := by
  refine ⟨hs.records.filter _, fun h => ?_⟩
  rcases contents_retain hs.records held h with he | he <;> rw [he]
  · exact hs.fields h
  · exact Table.ascending_empty

theorem evalClosed_sorted : Eval.Closed (OnSpace (Keeps Sorted)) :=
  Eval.closed_of_marks fun _ _ _ _ hs => hs.setRecord_of_fields rfl

theorem closed_sorted : Edit.Closed (Keeps Sorted) where
  toClosed := holderClosed_sorted
  mintKey s hs := hs.congr (s.contents_setNextKey _) hs.records
  newContainer s hs := by
    have ht := hs.setContents (.shared ⟨s.nextContainer⟩) (c := {}) Table.ascending_empty
    exact ht.congr (fun g => by cases g <;> rfl) ht.records
  newDerived _ _ hs := hs.congr (fun g => by cases g <;> rfl) hs.records
  newRecord name maxDepth s hs := by
    have ht := hs.setRecord ⟨s.nextRecord⟩ (r := { name, maxDepth }) Table.ascending_empty
    exact ht.congr (fun g => by cases g <;> rfl) ht.records
  retain _ held hs := hs.retain held
  setChanges _ _ _ hs := hs.setRecord_of_fields rfl
  read id p := id.read_moves evalClosed_sorted p
  evaluate id f := id.evaluate_moves evalClosed_sorted f
  write id p v := id.write_moves
    (evalClosed_sorted.forWrites holderClosed_sorted.add holderClosed_sorted.replaceWithin
      fun _ _ _ hs => hs.setRecord_of_fields rfl) p v

end Space

theorem Reachable.sorted {s : Space} (h : Reachable s) : s.Sorted :=
  h.of_closed Space.closed_sorted .empty

theorem Session.over_self {σ : Session} (hs : σ.space.Sorted) (hc : σ.space.Clear) :
    σ.Over σ.space :=
  ⟨.refl _, hs.records, hc⟩

section Back

variable {s : Space} {id : RecordId} {k : Key} {f : Field} {v : Value}

theorem Container.assign_back {c : Container} (hc : c.fields.Ascending)
    (hk : c.field? k = some f) (hv : v.tree? = none) (hf : f.value.tree? = none) :
    (c.assign k f v).assign k { f with value := v } f.value = c := by
  have adopted : ∀ {w : Value} nested, w.tree? = none → adopt w nested = nested := by
    intro w nested hw
    cases w with
    | tree id => cases hw
    | _ => rfl
  have disowned : ∀ {w : Value} nested, w.tree? = none → disown w nested = nested := by
    intro w nested hw
    cases w with
    | tree id => cases hw
    | _ => rfl
  have hput : c.fields.put k f = c.fields := hc.put_of_get? hk
  simp only [assign, Table.put_put, adopted _ hv, adopted _ hf, disowned _ hv, disowned _ hf, hput]

theorem Space.assigned_back (hs : s.Sorted)
    (hk : (s.record id).fields.field? k = some f) (hv : v.tree? = none)
    (hf : f.value.tree? = none) :
    (s.assigned id k f v).assigned id k { f with value := v } f.value = s := by
  have hr : s.records.get? id = some (s.record id) := by
    cases h : s.records.get? id with
    | some r => simp [record, h]
    | none =>
      rw [record, h] at hk
      cases hk
  have hback : ((s.record id).fields.assign k f v).assign k { f with value := v } f.value =
      (s.record id).fields :=
    Container.assign_back (hs.fields (.record id)) hk hv hf
  simp only [assigned, setContents, record_setRecord_self, setRecord_setRecord]
  rw [hback]
  exact setRecord_of_get? hs.records hr

end Back

end LiveRecords
