import LiveRecords.Proofs.Index.History
import LiveRecords.Proofs.Packets.Oblivious

/-! # What an act does to the changes of a record

In the runs considered here anything is done to containers, cells and records, and to the packet.
The changes of a record are, after every act, what the act noted of it, and below that what was
noted before, if the act did not take it.
-/

namespace LiveRecords

variable {τ : Type}

open Packet (Course)

/-- What is done with a packet and in its space. -/
inductive PacketAct (τ : Type) where
  | operation (op : Operation)
  | create (name : String)
  | add (id : RecordId)
  | remove (name : String)
  | write (n : FieldName) (v : Value)
  | addSensor (s : Sensor τ)
  | setSensor (id : Nat) (s : Sensor τ)
  | removeSensor (id : Nat)
  | commit

theorem Space.changesOf_retain {s : Space} (hs : s.records.Ascending) (kept : RecordId → Bool)
    (id : RecordId) : (s.retain kept).changesOf id = if kept id then s.changesOf id else ∅ := by
  rw [changesOf, record_retain_if hs]
  cases kept id with
  | true => rfl
  | false => exact ite_self _

namespace PacketAct

def run : PacketAct τ → Course τ → Course τ
  | operation op, σ => { σ with space := final op.run σ.space }
  | create name, σ => (PacketOp.create name).run σ
  | add id, σ => (PacketOp.add id).run σ
  | remove name, σ => (PacketOp.remove name).run σ
  | write n v, σ => (PacketOp.write n v).run σ
  | addSensor s, σ => (PacketOp.addSensor s).run σ
  | setSensor id s, σ => (PacketOp.setSensor id s).run σ
  | removeSensor id, σ => (PacketOp.removeSensor id).run σ
  | commit, σ => PacketOp.commit.run σ

/-- What the packet holds is not let go. -/
def Allowed (σ : Course τ) : PacketAct τ → Prop
  | operation (.retain kept) => ∀ id ∈ σ.packet.held, kept id = true
  | _ => True

/-- The changes of a record are taken, or it is let go. -/
def Takes (σ : Course τ) : PacketAct τ → RecordId → Prop
  | operation (.retain kept), id => kept id = false
  | operation (.record j .takeChanges), id => j = id
  | remove name, id => σ.packet.records.get? name = some id
  | commit, id => ∃ name, σ.packet.records.get? name = some id
  | _, _ => False

/-- What an act writes to the changes of a record: what these are after it, had nothing been noted
before. In a commit it is the sensors that write, after the changes are taken. -/
def noted (σ : Course τ) : PacketAct τ → RecordId → Changes
  | commit, id =>
    let (cs, space) := Packet.drain σ.space σ.packet.records.entries ∅
    if cs.isEmpty then ∅
    else (Packet.consult cs space.unnoted σ.packet.sensors).2.2.changesOf id
  | act, id => (act.run { σ with space := σ.space.unnoted }).space.changesOf id

end PacketAct

namespace Packet.Course

/-- The packet and its space after some acts. -/
def acted (σ : Course τ) (acts : List (PacketAct τ)) : Course τ :=
  acts.foldl (fun σ act => act.run σ) σ

/-- Every act is allowed where it comes. -/
def Permits (σ : Course τ) : List (PacketAct τ) → Prop
  | [] => True
  | act :: acts => act.Allowed σ ∧ (act.run σ).Permits acts

/-- The changes of a record are not taken, and nothing is noted of one of its keys. -/
def Leaves (id : RecordId) (k : Key) (σ : Course τ) : List (PacketAct τ) → Prop
  | [] => True
  | act :: acts =>
    ¬ act.Takes σ id ∧ (act.noted σ id).get? k = none ∧ Leaves id k (act.run σ) acts

/-- Records are registered under their own names, and what is kept of them is in order. -/
structure Orderly (σ : Course τ) : Prop where
  reachable : Reachable σ.space
  nameless : σ.space.Nameless
  changes : ∀ id, (σ.space.changesOf id).Ascending
  records : σ.packet.records.Ascending
  named : ∀ name id, σ.packet.records.get? name = some id → (σ.space.record id).name = some name
  index : σ.packet.index.WellKept
  pruned : σ.packet.index.Pruned

theorem orderly_start (maxDepth : Nat) : (start maxDepth : Course τ).Orderly where
  reachable := .empty
  nameless _ _ := rfl
  changes id := by
    rw [Space.changesOf]
    split <;> exact Table.ascending_empty
  records := Table.ascending_empty
  named _ _ h := by cases h
  index := Index.wellKept_empty
  pruned := ⟨Table.ascending_empty, Postings.pruned_empty⟩

namespace Orderly

variable {σ : Course τ} (h : σ.Orderly)
include h

theorem made {name : String} {id : RecordId} (hn : σ.packet.records.get? name = some id) :
    id.number < σ.space.nextRecord := by
  refine Nat.lt_of_not_le fun hid => ?_
  have := h.named _ _ hn
  rw [h.nameless id hid] at this
  cases this

theorem changesOf {name : String} {id : RecordId} (hn : σ.packet.records.get? name = some id) :
    σ.space.changesOf id = (σ.space.record id).changes :=
  if_pos (h.made hn)

theorem name_unique {name other : String} {id : RecordId}
    (hn : σ.packet.records.get? name = some id) (ho : σ.packet.records.get? other = some id) :
    other = name :=
  Option.some.inj ((h.named _ _ ho).symm.trans (h.named _ _ hn))

theorem entries_pairwise :
    σ.packet.records.entries.Pairwise fun e f => compare e.1 f.1 = .lt ∧ e.2 ≠ f.2 :=
  h.records.pairwise_of_injective h.name_unique

theorem mem_values_iff {id : RecordId} :
    id ∈ σ.packet.records.entries.map (·.2) ↔ ∃ name, σ.packet.records.get? name = some id := by
  constructor
  · intro hid
    obtain ⟨⟨name, _⟩, he, rfl⟩ := List.mem_map.mp hid
    exact ⟨name, h.records.mem_entries_iff.mp he⟩
  · rintro ⟨name, hn⟩
    exact Table.mem_values_of_get? hn

/-- Records stay as they are but for their changes, and of those registered some may go. -/
theorem move {p : Packet τ} {t : Space} {drained : List RecordId} (hk : σ.space.KeepsNames t)
    (hr : Reachable t) (hc : ∀ id, (t.changesOf id).Ascending) (hrecords : p.records.Ascending)
    (hstay : ∀ name id, p.records.get? name = some id → σ.packet.records.get? name = some id)
    (hindex : p.index.WellKept) (hpruned : p.index.Pruned) : Orderly ⟨p, t, drained⟩ where
  reachable := hr
  nameless := hk.nameless h.nameless
  changes := hc
  records := hrecords
  named name id hn :=
    (hk.name id (h.made (hstay name id hn))).trans (h.named name id (hstay name id hn))
  index := hindex
  pruned := hpruned

theorem gain {p : Packet τ} {t : Space} {notes : List Note} (hg : σ.space.Gains notes t)
    (hr : Reachable t) (hrecords : p.records = σ.packet.records)
    (hindex : p.index = σ.packet.index) : Orderly { σ with packet := p, space := t } := by
  refine h.move hg.toKeepsNames hr (fun id => ?_) (hrecords ▸ h.records)
    (fun name id hn => hrecords ▸ hn) (hindex ▸ h.index) (hindex ▸ h.pruned)
  rw [hg.changes]
  exact Note.ascending_replay (h.changes id)

theorem operation (op : Operation) (ho : op.Notes) :
    Orderly { σ with space := final op.run σ.space } := by
  obtain ⟨notes, -, hg, -⟩ := (Operation.oblivious ho).ends (Space.Alike.refl σ.space)
  exact h.gain hg (h.reachable.next op) rfl rfl

theorem retain {kept : RecordId → Bool} (hkept : ∀ id ∈ σ.packet.held, kept id = true) :
    Orderly { σ with space := σ.space.retain kept } where
  reachable := h.reachable.next (.retain kept)
  nameless id hid := by
    dsimp only
    rcases Space.record_retain h.reachable.wellKept.ascending kept id with he | he <;> rw [he]
    exact h.nameless id hid
  changes id := by
    rw [Space.changesOf_retain h.reachable.wellKept.ascending]
    split
    · exact h.changes id
    · exact Table.ascending_empty
  records := h.records
  named name id hn := by
    dsimp only at hn ⊢
    rw [Space.record_retain_if h.reachable.wellKept.ascending,
      if_pos (hkept id (σ.packet.mem_held hn))]
    exact h.named name id hn
  index := h.index
  pruned := h.pruned

theorem register {id : RecordId} {name : String} (hname : (σ.space.record id).name = some name) :
    Orderly { σ with packet := { σ.packet with records := σ.packet.records.put name id } } where
  reachable := h.reachable
  nameless := h.nameless
  changes := h.changes
  records := h.records.put _ _
  named m j hm := by
    dsimp only at hm
    rw [Table.get?_put_if] at hm
    split at hm
    · rename_i hmn
      cases hm
      rw [hmn]
      exact hname
    · exact h.named m j hm
  index := h.index
  pruned := h.pruned

theorem take (id : RecordId) :
    Orderly { σ with space := σ.space.setRecord id { σ.space.record id with changes := ∅ } } := by
  refine h.move (Space.keepsNames_setRecord rfl) (h.reachable.next (.record id .takeChanges))
    (fun j => ?_) h.records (fun _ _ hn => hn) h.index h.pruned
  rw [Space.changesOf_setChanges]
  split
  · exact Table.ascending_empty
  · exact h.changes j

theorem remove (name : String) (id : RecordId) {drained : List RecordId} :
    Orderly ⟨{ σ.packet with
        records := σ.packet.records.erase name, index := σ.packet.index.forget name },
      σ.space.setRecord id { σ.space.record id with changes := ∅ }, drained⟩ := by
  have ht := h.take id
  refine h.move (Space.keepsNames_setRecord rfl) ht.reachable ht.changes (h.records.erase name)
    (fun m j hm => ?_) (h.index.forget name) (h.pruned.forget name)
  dsimp only at hm
  rw [Table.get?_erase_if] at hm
  split at hm
  · cases hm
  · exact hm

theorem commit : (PacketAct.commit.run σ).Orderly := by
  have hdrained : Orderly ⟨{ σ.packet with
        index := σ.packet.index.apply (drain σ.space σ.packet.records.entries ∅).1 },
      (drain σ.space σ.packet.records.entries ∅).2, σ.drains σ.packet.records.values⟩ := by
    refine h.move drain_keepsNames ?_ (fun id => ?_) h.records (fun _ _ hn => hn)
      (h.index.apply _) (h.pruned.apply _)
    · exact Packet.drain_moves RecordId.takeChanges_reachable _ _ _ h.reachable
    · rw [drain_changesOf]
      split
      · exact Table.ascending_empty
      · exact h.changes id
  obtain ⟨notes, hg⟩ := σ.packet.commit_gains σ.space
  exact hdrained.gain hg (h.reachable.commit σ.packet) (σ.packet.commit_records σ.space)
    (σ.packet.commit_index σ.space)

theorem step {act : PacketAct τ} (ha : act.Allowed σ) : (act.run σ).Orderly := by
  cases act with
  | operation op =>
    rcases op.notes_or with ho | ⟨kept, rfl⟩ | ⟨id, rfl⟩
    · exact h.operation op ho
    · exact h.retain ha
    · exact h.take id
  | create name =>
    have hnew : Orderly { σ with space := σ.space.withNew (some name) σ.packet.maxDepth } :=
      h.operation (.newRecord (some name) σ.packet.maxDepth) trivial
    rw [PacketAct.run, PacketOp.run, σ.packet.create_run]
    cases σ.packet.records.get? name with
    | none =>
      refine hnew.register ?_
      exact (congrArg Record.name (Space.record_withNew ..)).trans (by rw [if_pos rfl])
    | some id => exact hnew
  | add id =>
    rw [PacketAct.run, PacketOp.run]
    cases hname : (σ.space.record id).name with
    | none =>
      rw [σ.packet.add_run_unnamed _ _ hname]
      exact h
    | some name =>
      rw [σ.packet.add_run _ _ hname]
      cases σ.packet.records.get? name with
      | none => exact h.register hname
      | some _ => exact h
  | remove name =>
    rw [PacketAct.run, PacketOp.run, σ.packet.remove_run]
    cases σ.packet.records.get? name with
    | none => exact h
    | some id => exact h.remove name id
  | write n v =>
    obtain ⟨notes, -, hg, -⟩ := (σ.packet.write_oblivious n v).ends (Space.Alike.refl σ.space)
    exact h.gain hg (σ.packet.write_moves RecordId.write_reachable n v _ h.reachable) rfl rfl
  | addSensor s => exact h.gain (.refl σ.space) h.reachable rfl rfl
  | setSensor id s => exact h.gain (.refl σ.space) h.reachable rfl rfl
  | removeSensor id => exact h.gain (.refl σ.space) h.reachable rfl rfl
  | commit => exact h.commit

theorem acted {acts : List (PacketAct τ)} (ha : σ.Permits acts) : (σ.acted acts).Orderly := by
  induction acts generalizing σ with
  | nil => exact h
  | cons act acts ih => exact ih (h.step ha.1) ha.2

end Orderly

end Packet.Course

namespace PacketAct

theorem not_takes_of_notes {op : Operation} (ho : op.Notes) (σ : Course τ) (id : RecordId) :
    ¬ (operation op).Takes σ id := by
  intro ht
  rcases op with _ | _ | _ | _ | _ | _ | _ | _ | ⟨_, op⟩
  case record => cases op <;> first | exact ho | exact ht
  case retain => exact ho
  all_goals exact ht

/-- The changes of a record after an act: what was noted, and below it, if the act does not take
them, the changes before. -/
structure Steps (act : PacketAct τ) (σ : Course τ) (id : RecordId) : Prop where
  taken : act.Takes σ id → ∀ k,
    ((act.run σ).space.changesOf id).get? k = (act.noted σ id).get? k
  left : ¬ act.Takes σ id → ∀ k,
    ((act.run σ).space.changesOf id).get? k =
      ((act.noted σ id).get? k).or ((σ.space.changesOf id).get? k)

/-- In the space the act runs this program, and that is all. -/
structure Runs (act : PacketAct τ) (σ : Course τ) (m : Edit Unit) : Prop where
  oblivious : Oblivious m
  takes : ∀ id, ¬ act.Takes σ id
  run : ∀ s, (act.run { σ with space := s }).space = final m s
  noted : ∀ id, act.noted σ id = (final m σ.space.unnoted).changesOf id

theorem Runs.steps {act : PacketAct τ} {σ : Course τ} {m : Edit Unit} (h : act.Runs σ m)
    (id : RecordId) : act.Steps σ id where
  taken ht := absurd ht (h.takes id)
  left _ k := by
    have hrun : (act.run σ).space = final m σ.space := h.run σ.space
    rw [h.noted, hrun]
    exact h.oblivious.get?_changesOf σ.space id k

section Runs

variable (σ : Course τ)

theorem runs_operation {op : Operation} (ho : op.Notes) : (operation op).Runs σ op.run :=
  ⟨Operation.oblivious ho, not_takes_of_notes ho σ, fun _ => rfl, fun _ => rfl⟩

theorem runs_create (name : String) :
    (create name).Runs σ (discard (Edit.newRecord (some name) σ.packet.maxDepth)) := by
  have hrun : ∀ s, ((create name).run { σ with space := s }).space =
      final (discard (Edit.newRecord (some name) σ.packet.maxDepth)) s := by
    intro s
    rw [PacketAct.run, PacketOp.run, σ.packet.create_run]
    cases σ.packet.records.get? name <;> rfl
  exact ⟨(Edit.newRecord_oblivious _ _).discard, fun _ ht => ht, hrun,
    fun id => congrArg (Space.changesOf · id) (hrun _)⟩

theorem runs_add (j : RecordId) : (add j).Runs σ (pure ()) := by
  have hrun : ∀ s, ((add j).run { σ with space := s }).space = s := by
    intro s
    rw [PacketAct.run, PacketOp.run]
    dsimp only
    cases hname : (s.record j).name with
    | none => rw [σ.packet.add_run_unnamed _ _ hname]
    | some name =>
      rw [σ.packet.add_run _ _ hname]
      cases σ.packet.records.get? name <;> rfl
  exact ⟨oblivious_pure (), fun _ ht => ht, hrun,
    fun id => congrArg (Space.changesOf · id) (hrun _)⟩

theorem runs_write (n : FieldName) (v : Value) : (write n v).Runs σ (σ.packet.write n v) :=
  ⟨σ.packet.write_oblivious n v, fun _ ht => ht, fun _ => rfl, fun _ => rfl⟩

theorem runs_addSensor (s : Sensor τ) : (addSensor s).Runs σ (pure ()) :=
  ⟨oblivious_pure (), fun _ ht => ht, fun _ => rfl, fun _ => rfl⟩

theorem runs_setSensor (i : Nat) (s : Sensor τ) : (setSensor i s).Runs σ (pure ()) :=
  ⟨oblivious_pure (), fun _ ht => ht, fun _ => rfl, fun _ => rfl⟩

theorem runs_removeSensor (i : Nat) : (removeSensor i : PacketAct τ).Runs σ (pure ()) :=
  ⟨oblivious_pure (), fun _ ht => ht, fun _ => rfl, fun _ => rfl⟩

theorem remove_space (name : String) (s : Space) :
    ((remove name).run { σ with space := s }).space =
      (σ.packet.records.get? name).elim s fun j =>
        s.setRecord j { s.record j with changes := ∅ } := by
  rw [PacketAct.run, PacketOp.run, σ.packet.remove_run]
  cases σ.packet.records.get? name <;> rfl

theorem noted_remove (name : String) (id : RecordId) : (remove name).noted σ id = ∅ := by
  change ((remove name).run { σ with space := σ.space.unnoted }).space.changesOf id = ∅
  rw [remove_space]
  cases σ.packet.records.get? name with
  | none => exact Space.changesOf_unnoted ..
  | some j =>
    rw [Option.elim_some, Space.changesOf_setChanges, Space.changesOf_unnoted]
    exact ite_self _

end Runs

/-- An act that notes nothing does no more than to take changes. -/
theorem steps_of_taking {act : PacketAct τ} {σ : Course τ} {id : RecordId}
    (hn : act.noted σ id = ∅) (ht : act.Takes σ id → (act.run σ).space.changesOf id = ∅)
    (hl : ¬ act.Takes σ id → (act.run σ).space.changesOf id = σ.space.changesOf id) :
    act.Steps σ id where
  taken h k := by rw [hn, ht h]
  left h k := by
    rw [hn, hl h]
    rfl

end PacketAct

namespace Packet.Course.Orderly

variable {σ : Course τ} (h : σ.Orderly)
include h

theorem noted_retain (kept : RecordId → Bool) (id : RecordId) :
    (PacketAct.operation (.retain kept)).noted σ id = ∅ := by
  have hu : σ.space.unnoted.records.Ascending :=
    Space.ascending_unnoted h.reachable.wellKept.ascending
  change (σ.space.unnoted.retain kept).changesOf id = ∅
  rw [Space.changesOf_retain hu, Space.changesOf_unnoted]
  exact ite_self _

theorem steps_retain {kept : RecordId → Bool} (id : RecordId) :
    (PacketAct.operation (.retain kept)).Steps σ id := by
  have htakes : (PacketAct.operation (.retain kept)).Takes σ id ↔ kept id = false := Iff.rfl
  refine PacketAct.steps_of_taking (h.noted_retain kept id) (fun ht => ?_) fun hl => ?_
  · change (σ.space.retain kept).changesOf id = ∅
    rw [Space.changesOf_retain h.reachable.wellKept.ascending, htakes.mp ht]
    rfl
  · change (σ.space.retain kept).changesOf id = _
    rw [htakes, Bool.not_eq_false] at hl
    rw [Space.changesOf_retain h.reachable.wellKept.ascending, if_pos hl]

omit h in
theorem steps_take (j id : RecordId) :
    (PacketAct.operation (.record j .takeChanges)).Steps σ id := by
  have hrun : ∀ s : Space,
      ((PacketAct.operation (.record j .takeChanges)).run { σ with space := s }).space =
        s.setRecord j { s.record j with changes := ∅ } := fun _ => rfl
  refine PacketAct.steps_of_taking ?_ (fun ht => ?_) fun hl => ?_
  · change Space.changesOf _ id = ∅
    rw [hrun, Space.changesOf_setChanges, Space.changesOf_unnoted]
    exact ite_self _
  · have hid : j = id := ht
    rw [hrun, Space.changesOf_setChanges, if_pos hid.symm]
  · have hid : ¬ j = id := hl
    rw [hrun, Space.changesOf_setChanges, if_neg (Ne.symm hid)]

omit h in
theorem steps_remove (name : String) (id : RecordId) :
    (PacketAct.remove name).Steps σ id := by
  have hrun : ((PacketAct.remove name).run σ).space =
      (σ.packet.records.get? name).elim σ.space fun j =>
        σ.space.setRecord j { σ.space.record j with changes := ∅ } :=
    PacketAct.remove_space σ name σ.space
  refine PacketAct.steps_of_taking (PacketAct.noted_remove σ name id) (fun ht => ?_) fun hl => ?_
  · have hn : σ.packet.records.get? name = some id := ht
    rw [hrun, hn, Option.elim_some, Space.changesOf_setChanges, if_pos rfl]
  · rw [hrun]
    cases hj : σ.packet.records.get? name with
    | none => rfl
    | some j =>
      rw [Option.elim_some, Space.changesOf_setChanges, if_neg]
      rintro rfl
      exact hl hj

theorem steps_commit (id : RecordId) : (PacketAct.commit : PacketAct τ).Steps σ id := by
  have hafter : ∀ k, ((PacketAct.commit.run σ).space.changesOf id).get? k =
      ((PacketAct.commit.noted σ id).get? k).or
        (((drain σ.space σ.packet.records.entries ∅).2.changesOf id).get? k) := by
    intro k
    change ((σ.packet.commit σ.space).space.changesOf id).get? k = _
    rw [commit_space, PacketAct.noted]
    dsimp only
    split
    · rfl
    · exact (consulting_oblivious _ σ.packet.sensors).get?_changesOf _ id k
  constructor
  · intro ht k
    rw [hafter, drain_changesOf, if_pos (h.mem_values_iff.mpr ht)]
    exact Option.or_none
  · intro hl k
    rw [hafter, drain_changesOf, if_neg fun hid => hl (h.mem_values_iff.mp hid)]

theorem steps {act : PacketAct τ} (ha : act.Allowed σ) (id : RecordId) : act.Steps σ id := by
  cases act with
  | operation op =>
    rcases op.notes_or with ho | ⟨kept, rfl⟩ | ⟨j, rfl⟩
    · exact (PacketAct.runs_operation σ ho).steps id
    · exact h.steps_retain id
    · exact steps_take j id
  | create name => exact (PacketAct.runs_create σ name).steps id
  | add j => exact (PacketAct.runs_add σ j).steps id
  | remove name => exact steps_remove name id
  | write n v => exact (PacketAct.runs_write σ n v).steps id
  | addSensor s => exact (PacketAct.runs_addSensor σ s).steps id
  | setSensor i s => exact (PacketAct.runs_setSensor σ i s).steps id
  | removeSensor i => exact (PacketAct.runs_removeSensor σ i).steps id
  | commit => exact h.steps_commit id

end Packet.Course.Orderly

end LiveRecords
