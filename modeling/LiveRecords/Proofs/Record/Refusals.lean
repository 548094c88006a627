import LiveRecords.Proofs.Container.Refusals
import LiveRecords.Proofs.Packets.Explained

/-! # Refused operations on records

An operation on one field of a record assigns first and notes what it has assigned afterwards. Once
it has assigned it can note, so that a fault leaves fields, containers, keys and changes alike.
-/

namespace LiveRecords

namespace Space

variable {s t : Space} {id : RecordId} {k : Key} {l : Label} {v : Value}

/-- What has been assigned is there to be noted. -/
theorem Places.atomic {m : Edit Key} (h : s.Places id v (m s)) (ht : (final m s).Layered) :
    s.Atomic (id.noting m v) := by
  generalize hr : m s = r at h
  cases h with
  | fault =>
    intro e t he
    rw [RecordId.noting, bind_of_error hr] at he
    cases he
    rfl
  | @set t d k l hl _ hset =>
    rw [final_of_ok hr] at ht
    have hf : (t.contents d).field? k = some ⟨l, v⟩ := by rw [hset.field?, if_pos ⟨rfl, rfl⟩]
    intro e u he
    rw [RecordId.noting, bind_of_ok hr, bind_of_ok (ht.field_run hl hf)] at he
    cases he

theorem atomic_entering {m : Edit Key} (hm : s.Atomic m) (id : RecordId) (l : Label)
    (v : Value) : s.Atomic (id.entering m l v) :=
  hm.andThen fun k t _ => ⟨k, t.noted id k l v, rfl⟩

theorem atomic_relabelling (id : RecordId) (k : Key) (l : Label) :
    s.Atomic (id.relabel k l) := by
  refine (atomic_relabel (.record id) k l).andThen fun _ t ht => ?_
  obtain ⟨f, hf⟩ := exists_field?_of_relabel ht
  exact ⟨(), t.noted id k l f.value, bind_of_ok (RecordId.raw_run hf)⟩

theorem Layered.atomic_recordOp (hs : s.Layered) {op : RecordOp} (ho : op.IsSingle s id) :
    s.Atomic (op.run id) := by
  cases op with
  | write p v =>
    have ht := holderClosed_layered.assign (.record id) p v s hs
    exact (((assign_places hs id p v).atomic ht).congr (RecordId.write_run ho)).discard
  | add l v => exact (atomic_entering (atomic_insert (.record id) l v _) id l v).discard
  | addBefore next l v =>
    exact (atomic_entering (atomic_addBefore (.record id) next l v) id l v).discard
  | clear p =>
    have ht := holderClosed_layered.clear (.record id) p s hs
    exact ((clear_places hs p).atomic ht).discard
  | remove k =>
    refine ((atomic_remove (.record id) k).andThen fun f t _ => ?_).discard
    exact ⟨f, t.noted id k f.label .empty, rfl⟩
  | relabel k l => exact atomic_relabelling id k l
  | _ => exact ho.elim

end Space

/-- In every reachable space, an operation on one field of a container or a record, past all cells,
leaves everything as it was if it faults: every field of every holder, the changes of every record
and the keys and identities still to be given out. -/
theorem Reachable.faults_leave_all {s t : Space} (h : Reachable s) {e : Fault} :
    (∀ (g : Holder) (op : ContainerOp), op.IsSingle → op.run g s = .error e t → t = s) ∧
      ∀ (id : RecordId) (op : RecordOp), op.IsSingle s id → op.run id s = .error e t → t = s :=
  ⟨fun g _ ho he => Space.atomic_containerOp g ho e t he,
    fun _ _ ho he => h.layered.atomic_recordOp ho e t he⟩

/-- A record holds the first container, this the second one, and that a field under the first
key. -/
def heldDeep : List Operation :=
  [.newContainer, .newContainer, .container ⟨2⟩ (.add (.name "x") .empty),
    .container ⟨1⟩ (.add .empty (.tree ⟨2⟩)), .newRecord none 4,
    .record ⟨1⟩ (.add (.name "c") (.tree ⟨1⟩))]

/-- Under the first key, the first container would be stored in the second one. -/
theorem faults_leave_all_heldDeep :
    fault ((ContainerOp.assign (.key ⟨1⟩) (.tree ⟨1⟩)).run (.shared ⟨1⟩)) (Space.after heldDeep) =
        some (.refused .selfNesting) ∧
      final ((ContainerOp.assign (.key ⟨1⟩) (.tree ⟨1⟩)).run (.shared ⟨1⟩)) (Space.after heldDeep) =
        Space.after heldDeep ∧
      fault ((RecordOp.write (.key ⟨1⟩) (.tree ⟨1⟩)).run ⟨1⟩) (Space.after heldDeep) =
        some (.refused .selfNesting) ∧
      final ((RecordOp.write (.key ⟨1⟩) (.tree ⟨1⟩)).run ⟨1⟩) (Space.after heldDeep) =
        Space.after heldDeep := by
  have hcontainer : fault ((ContainerOp.assign (.key ⟨1⟩) (.tree ⟨1⟩)).run (.shared ⟨1⟩))
      (Space.after heldDeep) = some (.refused .selfNesting) := rfl
  have hrecord : fault ((RecordOp.write (.key ⟨1⟩) (.tree ⟨1⟩)).run ⟨1⟩) (Space.after heldDeep) =
      some (.refused .selfNesting) := rfl
  have hslot : (Space.after heldDeep).slot? ⟨1⟩ (.key ⟨1⟩) = none := rfl
  have hsingle : (RecordOp.write (.key ⟨1⟩) (.tree ⟨1⟩)).IsSingle (Space.after heldDeep) ⟨1⟩ := by
    intro k l c hs
    rw [hslot] at hs
    cases hs
  refine ⟨hcontainer, ?_, hrecord, ?_⟩
  · obtain ⟨t, ht⟩ := fault_eq_some_iff.mp hcontainer
    rw [final_of_error ht]
    exact (Reachable.after heldDeep).faults_leave_all.1 _ (.assign _ _) trivial ht
  · obtain ⟨t, ht⟩ := fault_eq_some_iff.mp hrecord
    rw [final_of_error ht]
    exact (Reachable.after heldDeep).faults_leave_all.2 _ (.write _ _) hsingle ht

end LiveRecords
