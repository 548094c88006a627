import LiveRecords.Packet
import LiveRecords.Proofs.Operations

/-! # Names, packets and sensors

Names, packets and sensors change a space only through operations on records: they write to them
and take their changes. So they keep to whatever these operations keep to, and a commit leads from
reachable spaces to reachable ones.
-/

namespace LiveRecords

variable {τ : Type}

section Moving

variable {R : Space → Space → Prop} [IsPreorder Space R]

theorem Packet.record_moves (p : Packet τ) (name : String) : Moves R (p.record name) := by
  unfold Packet.record
  split
  · exact moves_pure _
  · exact moves_throw _

section Writes

variable (hw : ∀ (id : RecordId) p v, Moves R (id.write p v))
include hw

theorem FieldName.write_moves (n : FieldName) (v : Value) : Moves R (n.write v) :=
  (moves_of_final (Edit.final_resolve n.record)).bind fun id => (hw id _ v).discard

theorem Packet.write_moves (p : Packet τ) (n : FieldName) (v : Value) : Moves R (p.write n v) :=
  (p.record_moves _).bind fun id => (hw id _ v).discard

end Writes

section Notifications

theorem Sensor.writeOut_moves {output : RecordId}
    (hw : ∀ p v, v.IsPlain → Moves R (output.write p v)) (n : Notification) :
    Moves R (Sensor.writeOut output n) :=
  (hw _ _ ⟨rfl, rfl⟩).discard.bind fun _ => (hw _ _ ⟨rfl, rfl⟩).discard.bind fun _ =>
    (hw _ _ ⟨rfl, rfl⟩).discard

theorem Sensor.emit_moves {s : Sensor τ}
    (hw : ∀ id, s.output = some id → ∀ p v, v.IsPlain → Moves R (id.write p v))
    (n : Notification) (space : Space) : R space (s.emit n space).2 := by
  unfold Sensor.emit
  split
  · exact refl_of R space
  · rename_i output ho
    have h := Sensor.writeOut_moves (hw output ho) n space
    split <;> rename_i heq
    · rwa [final_of_ok heq] at h
    · rwa [final_of_error heq] at h

theorem Sensor.notify_moves {s : Sensor τ}
    (hw : ∀ id, s.output = some id → ∀ p v, v.IsPlain → Moves R (id.write p v))
    (cs : Changeset) (space : Space) : R space (s.notify cs space).2.2 := by
  unfold Sensor.notify
  split
  · exact refl_of R space
  · exact Sensor.emit_moves hw _ space

theorem Packet.consult_moves {sensors : List (Nat × Sensor τ)}
    (hw : ∀ e ∈ sensors, ∀ id, e.2.output = some id → ∀ p v, v.IsPlain → Moves R (id.write p v))
    (cs : Changeset) (space : Space) : R space (consult cs space sensors).2.2 := by
  induction sensors generalizing space with
  | nil => exact refl_of R space
  | cons e rest ih =>
    rw [List.forall_mem_cons] at hw
    exact trans_of R (Sensor.notify_moves hw.1 cs space) (ih hw.2 _)

end Notifications

section Changes

variable (ht : ∀ id : RecordId, Moves R id.takeChanges)
include ht

theorem Packet.drain_moves (space : Space) (records : List (String × RecordId))
    (cs : Changeset) : R space (drain space records cs).2 := by
  induction records generalizing space cs with
  | nil => exact refl_of R space
  | cons e rest ih =>
    obtain ⟨name, id⟩ := e
    rw [Packet.drain]
    split
    · exact ih space cs
    · exact trans_of R (ht id space) (ih _ _)

end Changes

/-- A commit takes changes, and after that it only writes, and only plain values. -/
theorem Packet.commit_moves (hw : ∀ (id : RecordId) p v, v.IsPlain → Moves R (id.write p v))
    (ht : ∀ id : RecordId, Moves R id.takeChanges) (p : Packet τ) (space : Space) :
    R space (p.commit space).space := by
  have hd := Packet.drain_moves ht space p.records.entries ∅
  unfold Packet.commit
  dsimp only
  split
  · exact hd
  · exact trans_of R hd (Packet.consult_moves (fun _ _ id _ => hw id) _ _)

end Moving

section Reachable

theorem keeps_reachable (op : Operation) : Moves (Keeps Reachable) op.run := fun _ h => h.next op

theorem RecordId.write_reachable (id : RecordId) (p : Place) (v : Value) :
    Moves (Keeps Reachable) (id.write p v) :=
  Moves.of_discard (keeps_reachable (.record id (.write p v)))

theorem RecordId.takeChanges_reachable (id : RecordId) :
    Moves (Keeps Reachable) id.takeChanges :=
  Moves.of_discard (keeps_reachable (.record id .takeChanges))

theorem Reachable.commit {s : Space} (h : Reachable s) (p : Packet τ) :
    Reachable (p.commit s).space :=
  p.commit_moves (fun id place v _ => id.write_reachable place v)
    RecordId.takeChanges_reachable s h

end Reachable

end LiveRecords
