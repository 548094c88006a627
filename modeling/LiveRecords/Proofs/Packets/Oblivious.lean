import LiveRecords.Proofs.Packets.Lookup
import LiveRecords.Proofs.Record.Oblivious

/-! # Packets and sensors do not look at changes but to take them

What a packet and its sensors write does not depend on the changes that are there already. A drain
tells every buffer of a registered record that is not empty, and empties it.
-/

namespace LiveRecords

variable {τ α : Type}

section Steps

/-- A step that cannot fault, as a program. -/
def Edit.total (step : Space → α × Space) : Edit α := fun s => .ok (step s).1 (step s).2

theorem Sensor.writeOut_oblivious (output : RecordId) (n : Notification) :
    Oblivious (Sensor.writeOut output n) :=
  (output.write_oblivious _ _).discard.bind fun _ => (output.write_oblivious _ _).discard.bind
    fun _ => (output.write_oblivious _ _).discard

theorem Sensor.emit_oblivious (sensor : Sensor τ) (n : Notification) :
    Oblivious (Edit.total (sensor.emit n)) := by
  cases ho : sensor.output with
  | none =>
    have hemit : Edit.total (sensor.emit n) = pure sensor := by
      funext s
      simp only [Edit.total, emit, ho]
      rfl
    rw [hemit]
    exact oblivious_pure _
  | some output =>
    intro s
    obtain ⟨notes, hs⟩ := writeOut_oblivious output n s
    refine ⟨notes, fun t ht => ?_⟩
    have h := hs t ht
    simp only [Edit.total, emit, ho]
    generalize writeOut output n s = r at h
    generalize writeOut output n t = q at h
    cases h with
    | ok ha hg => exact .ok ha hg
    | error ha hg => exact .ok ha hg

/-- Showing a changeset to one sensor, as a program. -/
def Sensor.notifying (sensor : Sensor τ) (cs : Changeset) :
    Edit (Option (List (τ × Notification)) × Sensor τ) :=
  Edit.total fun s =>
    let (fired, sensor, s) := sensor.notify cs s
    ((fired, sensor), s)

theorem Sensor.notifying_oblivious (sensor : Sensor τ) (cs : Changeset) :
    Oblivious (sensor.notifying cs) := by
  cases he : sensor.evaluate cs with
  | none =>
    have hnotify : sensor.notifying cs = pure (none, sensor) := by
      funext s
      simp only [notifying, Edit.total, notify, he]
      rfl
    rw [hnotify]
    exact oblivious_pure _
  | some found =>
    have hnotify : sensor.notifying cs =
        Edit.total (sensor.emit ⟨sensor.name, sensor.log.length + 1, found⟩) >>= fun fired =>
          pure (some (fired.audience.notify ⟨sensor.name, sensor.log.length + 1, found⟩),
            { fired with log := fired.log ++ [⟨sensor.name, sensor.log.length + 1, found⟩] }) := by
      funext s
      simp only [notifying, Edit.total, notify, he]
      rfl
    rw [hnotify]
    exact (sensor.emit_oblivious _).bind fun _ => oblivious_pure _

/-- Showing a changeset to sensors one after the other, as a program. -/
def Packet.consulting (cs : Changeset) (sensors : List (Nat × Sensor τ)) :
    Edit (List (τ × Notification) × List (Nat × Sensor τ)) :=
  Edit.total fun s =>
    let (delivered, sensors, s) := consult cs s sensors
    ((delivered, sensors), s)

theorem Packet.consulting_oblivious (cs : Changeset) (sensors : List (Nat × Sensor τ)) :
    Oblivious (consulting cs sensors) := by
  induction sensors with
  | nil => exact oblivious_pure ([], [])
  | cons e rest ih =>
    obtain ⟨id, sensor⟩ := e
    have hcons : consulting cs ((id, sensor) :: rest) =
        sensor.notifying cs >>= fun fired => consulting cs rest >>= fun more =>
          pure (fired.1.getD [] ++ more.1, (id, fired.2) :: more.2) := rfl
    rw [hcons]
    exact (sensor.notifying_oblivious cs).bind fun _ => ih.bind fun _ => oblivious_pure _

end Steps

namespace Packet

theorem write_oblivious (p : Packet τ) (n : FieldName) (v : Value) :
    Oblivious (p.write n v) := by
  have hrecord : Oblivious (p.record n.record.text) := by
    unfold Packet.record
    split
    · exact oblivious_pure _
    · exact oblivious_throw _
  exact hrecord.bind fun id => (id.write_oblivious _ v).discard

section Drain

variable {s : Space} {es : List (String × RecordId)} {cs : Changeset}

theorem drain_alike : s.Alike (drain s es cs).2 := by
  induction es generalizing s cs with
  | nil => exact .refl s
  | cons e es ih =>
    obtain ⟨name, id⟩ := e
    rw [drain]
    split
    · exact ih
    · rename_i he
      rw [Bool.not_eq_true] at he
      exact (Space.alike_setChanges (Space.alive_of_changes he) ∅).trans ih

theorem drain_keepsNames : s.KeepsNames (drain s es cs).2 := by
  have halike : s.Alike (drain s es cs).2 := drain_alike
  have hname := halike.name
  refine ⟨Nat.le_of_eq drain_nextRecord.symm, fun id _ => hname id, fun h id hid => ?_⟩
  rw [hname]
  rw [drain_nextRecord] at hid
  exact h id hid

theorem drain_changesOf (id : RecordId) :
    (drain s es cs).2.changesOf id = if id ∈ es.map (·.2) then ∅ else s.changesOf id := by
  rw [Space.changesOf, drain_nextRecord, drain_record, Space.changesOf]
  by_cases hid : id ∈ es.map (·.2)
  · rw [if_pos hid, if_pos hid]
    exact ite_self _
  · rw [if_neg hid, if_neg hid]

theorem drain_of_isEmpty (h : ∀ e ∈ es, (s.record e.2).changes.isEmpty = true) :
    drain s es cs = (cs, s) := by
  induction es with
  | nil => rfl
  | cons e es ih =>
    obtain ⟨name, id⟩ := e
    rw [List.forall_mem_cons] at h
    rw [drain, if_pos h.1, ih h.2]

/-- Every buffer that is not empty is told under the name of its record, where no record is drained
under two names. -/
theorem drain_get? (hes : es.Pairwise fun e f => compare e.1 f.1 = .lt ∧ e.2 ≠ f.2)
    (hcs : ∀ e ∈ es, cs.get? e.1 = none) (name : String) :
    (drain s es cs).1.get? name =
      match Table.lookup name es with
      | some id =>
        if (s.record id).changes.isEmpty then none else some (Table.merge ∅ (s.record id).changes)
      | none => cs.get? name := by
  induction es generalizing s cs with
  | nil => rfl
  | cons e es ih =>
    obtain ⟨n, id⟩ := e
    obtain ⟨hid, hes⟩ := List.pairwise_cons.mp hes
    rw [List.forall_mem_cons] at hcs
    obtain ⟨t, hdrain, -, ht⟩ := drain_cons s n id es cs
    have hinsert : ∀ m, (cs.insert n (s.record id).changes).get? m =
        if m = n ∧ (s.record id).changes.isEmpty = false then
          some (Table.merge ∅ (s.record id).changes)
        else cs.get? m := by
      intro m
      cases he : (s.record id).changes.isEmpty with
      | true => simp [Changeset.insert, he]
      | false => simp [Changeset.insert, he, Table.get?_put_if, hcs.1]
    have hrest : ∀ e ∈ es, (cs.insert n (s.record id).changes).get? e.1 = none := by
      intro e he
      rw [hinsert, if_neg]
      · exact hcs.2 e he
      · rintro ⟨rfl, -⟩
        simpa using (hid e he).1
    rw [hdrain, ih hes hrest, Table.lookup]
    simp only [Std.LawfulEqCmp.compare_eq_iff_eq]
    by_cases hn : name = n
    · subst hn
      rw [Table.lookup_eq_none fun e he => (hid e he).1, if_pos rfl, hinsert]
      cases he : (s.record id).changes.isEmpty <;> simp [he, hcs.1]
    · rw [if_neg hn]
      cases hl : Table.lookup name es with
      | none =>
        dsimp only
        rw [hinsert, if_neg fun h => hn h.1]
      | some j =>
        have hj : j ≠ id := fun hj => (hid _ (Table.mem_of_lookup hl)).2 hj.symm
        dsimp only
        rw [ht, if_neg hj]

end Drain

theorem commit_changes (p : Packet τ) (s : Space) :
    (p.commit s).changes = (drain s p.records.entries ∅).1 := by
  unfold commit
  dsimp only
  split <;> rfl

theorem ordered_commit (p : Packet τ) (s : Space) : (p.commit s).changes.Ordered := by
  rw [commit_changes]
  exact drain_ordered Changeset.ordered_empty

theorem commit_current (p : Packet τ) (s : Space) (site : Site) :
    (p.commit s).packet.index.current.get? site =
      ((p.commit s).changes.change? site.name site.key).elim (p.index.current.get? site)
        Field.entry? := by
  rw [commit_index, ← commit_changes]
  exact Index.apply_current (p.ordered_commit s) site

theorem commit_of_isEmpty {p : Packet τ} {s : Space}
    (h : ∀ e ∈ p.records.entries, (s.record e.2).changes.isEmpty = true) :
    p.commit s = ⟨∅, [], p, s⟩ := by
  rw [commit, drain_of_isEmpty h]
  rfl

theorem commit_consults (p : Packet τ) (s : Space) :
    ((p.commit s).delivered, (p.commit s).packet.sensors, (p.commit s).space) =
      if (drain s p.records.entries ∅).1.isEmpty then
        ([], p.sensors, (drain s p.records.entries ∅).2)
      else
        consult (drain s p.records.entries ∅).1 (drain s p.records.entries ∅).2 p.sensors := by
  unfold commit
  dsimp only
  split <;> rfl

theorem commit_space (p : Packet τ) (s : Space) :
    (p.commit s).space =
      if (drain s p.records.entries ∅).1.isEmpty then (drain s p.records.entries ∅).2
      else (consult (drain s p.records.entries ∅).1 (drain s p.records.entries ∅).2
        p.sensors).2.2 := by
  have h := congrArg (·.2.2) (p.commit_consults s)
  dsimp only at h
  rw [h]
  split <;> rfl

theorem commit_gains (p : Packet τ) (s : Space) :
    ∃ notes, (drain s p.records.entries ∅).2.Gains notes (p.commit s).space := by
  rw [commit_space]
  split
  · exact ⟨[], .refl _⟩
  · obtain ⟨notes, -, hg, -⟩ := (consulting_oblivious (drain s p.records.entries ∅).1
      p.sensors).ends (Space.Alike.refl (drain s p.records.entries ∅).2)
    exact ⟨notes, hg⟩

/-- Only a sensor with an output that fires changes the space. -/
theorem consult_space {cs : Changeset} {sensors : List (Nat × Sensor τ)}
    (h : ∀ e ∈ sensors, e.2.output.isSome → e.2.evaluate cs = none) (s : Space) :
    (consult cs s sensors).2.2 = s := by
  induction sensors generalizing s with
  | nil => rfl
  | cons e rest ih =>
    obtain ⟨id, sensor⟩ := e
    rw [List.forall_mem_cons] at h
    have hnotify : (sensor.notify cs s).2.2 = s := by
      cases he : sensor.evaluate cs with
      | none => simp only [Sensor.notify, he]
      | some found =>
        have ho : sensor.output = none := by
          rw [← Option.not_isSome_iff_eq_none]
          intro ho
          rw [h.1 ho] at he
          cases he
        simp only [Sensor.notify, he, Sensor.emit, ho]
    change (consult cs (sensor.notify cs s).2.2 rest).2.2 = s
    rw [hnotify]
    exact ih h.2 s

theorem commit_space_of_silent (p : Packet τ) (s : Space) (h : ∀ e ∈ p.sensors,
    e.2.output.isSome → e.2.evaluate (p.commit s).changes = none) :
    (p.commit s).space = (drain s p.records.entries ∅).2 := by
  rw [commit_changes] at h
  rw [commit_space]
  split
  · rfl
  · exact consult_space h _

end Packet

end LiveRecords
