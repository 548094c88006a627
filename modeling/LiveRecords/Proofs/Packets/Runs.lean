import LiveRecords.Proofs.Index
import LiveRecords.Proofs.Packets
import LiveRecords.Proofs.Record.Changes

/-! # Runs of a packet

Around a packet records are made, written and let go, and nothing but the packet takes their
changes. At any time, then, the changes of a registered record tell what it has become since it
was entered in the index as it was, and those of a record from which none were taken yet tell
all that it holds.
-/

namespace LiveRecords

open Relation (ReflTransGen)

variable {τ : Type}

/-- An operation that writes nothing. -/
def RecordOp.Reads : RecordOp → Prop
  | read _ => True
  | fields => True
  | render => True
  | evaluate _ => True
  | _ => False

/-- What can be done with a packet and the records around it. -/
inductive PacketOp (τ : Type) where
  | newRecord (name : Option String) (maxDepth : Nat)
  | derive (id : RecordId) (name : Option String)
  | letGo (held : RecordId → Bool)
  | record (id : RecordId) (op : RecordOp)
  | create (name : String)
  | add (id : RecordId)
  | remove (name : String)
  | write (n : FieldName) (v : Value)
  | addSensor (s : Sensor τ)
  | setSensor (id : Nat) (s : Sensor τ)
  | removeSensor (id : Nat)
  | commit

/-- A packet in the course of a run, with the space of its records and those among them from
which changes have been taken. -/
structure Packet.Course (τ : Type) where
  packet : Packet τ
  space : Space := {}
  drained : List RecordId := []

namespace Packet.Course

/-- An empty packet in an empty space. -/
def start (maxDepth : Nat) : Course τ := { packet := { maxDepth } }

/-- The drained records, once the changes of these records are taken as well. -/
def drains (σ : Course τ) (ids : List RecordId) : List RecordId :=
  σ.drained ++ ids.filter fun id => !(σ.space.record id).changes.isEmpty

end Packet.Course

open Packet (Course)

def PacketOp.run : PacketOp τ → Course τ → Course τ
  | newRecord name maxDepth, σ => { σ with space := final (RecordId.fresh name maxDepth) σ.space }
  | derive id name, σ => { σ with space := final (id.derive name) σ.space }
  | letGo held, σ => { σ with space := σ.space.retain held }
  | record id op, σ => { σ with space := final (op.run id) σ.space }
  | create name, σ =>
    match σ.packet.create name σ.space with
    | .ok (_, _, packet) space => { σ with packet, space }
    | .error _ space => { σ with space }
  | add id, σ =>
    match σ.packet.add id σ.space with
    | .ok (_, packet) space => { σ with packet, space }
    | .error _ space => { σ with space }
  | remove name, σ =>
    match σ.packet.remove name σ.space with
    | .ok (id, packet) space => ⟨packet, space, σ.drains [id]⟩
    | .error _ space => { σ with space }
  | write n v, σ => { σ with space := final (σ.packet.write n v) σ.space }
  | addSensor s, σ => { σ with packet := (σ.packet.addSensor s).2 }
  | setSensor id s, σ => { σ with packet := σ.packet.setSensor id s }
  | removeSensor id, σ => { σ with packet := σ.packet.removeSensor id }
  | commit, σ =>
    let c := σ.packet.commit σ.space
    ⟨c.packet, c.space, σ.drains σ.packet.records.values⟩

/-- Records are written plain values and give their changes to the packet alone, one that is added
has given none yet, and what the packet holds is not let go. -/
def PacketOp.Allowed (σ : Course τ) : PacketOp τ → Prop
  | letGo held => ∀ id ∈ σ.packet.held, held id = true
  | record _ op => op.Writes Value.IsPlain ∨ op.Reads
  | add id => id ∉ σ.drained
  | write _ v => v.IsPlain
  | _ => True

namespace Packet.Course

def run (σ : Course τ) (ops : List (PacketOp τ)) : Course τ := ops.foldl (fun σ op => op.run σ) σ

/-- Every operation of the run is allowed where it comes. -/
def Admits (σ : Course τ) : List (PacketOp τ) → Prop
  | [] => True
  | op :: ops => op.Allowed σ ∧ (op.run σ).Admits ops

end Packet.Course

section Told

/-- Plain values are all that `q` holds, and its changes tell what it has become since `r`. -/
structure Record.Told (r q : Record) : Prop where
  tracked : r.Tracked q
  emptied : q.Emptied
  plain : q.Holds Value.IsPlain

variable {r q q' : Record}

theorem Record.Told.taken (h : r.Told q) :
    Record.Told { q with changes := ∅ } { q with changes := ∅ } where
  tracked := tracked_self rfl
  emptied := emptied_self rfl
  plain := h.plain

theorem Record.told_self (hp : q.Holds Value.IsPlain) (hc : q.changes = ∅) : q.Told q :=
  ⟨tracked_self hc, emptied_self hc, hp⟩

theorem Record.Told.congr (h : r.Told q) (hf : q'.fields = q.fields)
    (hc : q'.changes = q.changes) : r.Told q' := by
  obtain ⟨ht, he, hp⟩ := h
  refine ⟨⟨hc ▸ ht.ascending, ?_, ?_⟩, ?_, ?_⟩
  · rw [hf, hc]
    exact ht.current
  · rw [hf, hc]
    exact ht.untouched
  · unfold Record.Emptied
    rw [hf, hc]
    exact he
  · unfold Record.Holds
    rw [hf]
    exact hp

theorem Record.Told.of_noted (h : r.Told q) (hn : ReflTransGen (Record.Noted Value.IsPlain) q q') :
    r.Told q' where
  tracked := tracked_of_noted hn h.tracked
  emptied := emptied_of_noted (fun _ hv => hv.2) hn h.plain h.emptied
  plain := holds_of_noted hn h.plain

theorem Record.name_of_noted {P : Value → Prop} (hn : ReflTransGen (Record.Noted P) q q') :
    q'.name = q.name := by
  induction hn with
  | refl => rfl
  | tail _ hn ih =>
    cases hn with
    | put => exact ih
    | drop => exact ih
    | deeper => exact ih

end Told

namespace Space

variable {s t u : Space}

/-- With one more record. -/
def withNew (s : Space) (name : Option String) (maxDepth : Nat) : Space :=
  { s.setRecord ⟨s.nextRecord⟩ { name, maxDepth } with nextRecord := s.nextRecord + 1 }

theorem record_withNew (name : Option String) (maxDepth : Nat) (id : RecordId) :
    (s.withNew name maxDepth).record id =
      if id = ⟨s.nextRecord⟩ then { name, maxDepth } else s.record id :=
  record_setRecord ..

/-- The changes of every record tell what it has become since some time. -/
structure Traced (s : Space) : Prop where
  wellKept : s.WellKept
  told : ∀ id, ∃ r, Record.Told r (s.record id)

/-- Records are only read and written. What their changes told they go on to tell. -/
def Advances (s t : Space) : Prop :=
  s.Traced → t.WellKept ∧ t.nextRecord = s.nextRecord ∧ ∀ id,
    (t.record id).name = (s.record id).name ∧
      ∀ r, Record.Told r (s.record id) → Record.Told r (t.record id)

instance : IsPreorder Space Advances where
  refl s hs := ⟨hs.wellKept, rfl, fun _ => ⟨rfl, fun _ h => h⟩⟩
  trans s t u h h' hs := by
    obtain ⟨ht, hn, hr⟩ := h hs
    have htraced : t.Traced := ⟨ht, fun id => (hs.told id).imp (hr id).2⟩
    obtain ⟨hu, hn', hr'⟩ := h' htraced
    exact ⟨hu, hn'.trans hn, fun id => ⟨(hr' id).1.trans (hr id).1,
      fun r h => (hr' id).2 r ((hr id).2 r h)⟩⟩

theorem Logs.advances {id : RecordId} (h : s.Logs Value.IsPlain id t) : s.Advances t := by
  intro hs
  obtain ⟨r, hr⟩ := hs.told id
  obtain ⟨ht, hn⟩ := h hs.wellKept hr.plain
  refine ⟨ht, hn.nextRecord, fun j => ?_⟩
  by_cases hj : j = id
  · subst hj
    exact ⟨Record.name_of_noted hn.noted, fun r hr => hr.of_noted hn.noted⟩
  · rw [hn.others j hj]
    exact ⟨rfl, fun _ h => h⟩

theorem evalClosed_advances : Eval.Closed (OnSpace Advances) := by
  refine Eval.closed_of_marks fun s id depth pending hs => ?_
  refine ⟨hs.wellKept.setRecord_of_fields rfl, rfl, fun j => ?_⟩
  rw [record_setRecord]
  split
  · rename_i hj
    subst hj
    exact ⟨rfl, fun r hr => hr.congr rfl rfl⟩
  · exact ⟨rfl, fun _ h => h⟩

end Space

section Advancing

open Space (Advances)

theorem RecordOp.advances_of_writes (op : RecordOp) (ho : op.Writes Value.IsPlain)
    (id : RecordId) : Moves Advances (op.run id) := fun s =>
  (RecordOp.logs Value.isPlain_empty (fun _ hw => hw.1) ho s).advances

theorem RecordId.write_advances (id : RecordId) (p : Place) {v : Value} (hv : v.IsPlain) :
    Moves Advances (id.write p v) :=
  Moves.of_discard (RecordOp.advances_of_writes (.write p v) hv id)

section Reads

variable {R : Space → Space → Prop} [IsPreorder Space R] (h : Eval.Closed (OnSpace R))
include h

theorem RecordId.fields_moves (id : RecordId) : Moves R id.fields := by
  refine (moves_of_final fun _ => rfl).bind fun c => moves_mapM _ fun e _ => ?_
  exact (id.read_moves h _).bind fun _ => moves_pure _

theorem RecordOp.moves_of_reads (op : RecordOp) (ho : op.Reads) (id : RecordId) :
    Moves R (op.run id) := by
  cases op with
  | read p => exact (id.read_moves h p).discard
  | fields => exact (id.fields_moves h).discard
  | render =>
    exact ((id.fields_moves h).bind fun _ => moves_get.bind fun _ => moves_pure _).discard
  | evaluate f => exact (id.evaluate_moves h f).discard
  | _ => exact ho.elim

end Reads

theorem RecordId.copyValue_of_isPlain {v : Value} (hv : v.IsPlain) :
    RecordId.copyValue v = pure v := by
  obtain ⟨hc, ht⟩ := hv
  cases v with
  | tree => cases ht
  | cell => cases hc
  | _ => rfl

/-- Add copies of fields to a record. -/
def RecordId.addCopies (copy : RecordId) (entries : List (Key × Field)) : Edit Unit :=
  entries.forM fun (_, f) => do
    let v ← copyValue f.value
    discard (copy.add f.label v)

theorem RecordId.addCopies_advances (copy : RecordId) {entries : List (Key × Field)}
    (hp : ∀ e ∈ entries, e.2.value.IsPlain) : Moves Advances (copy.addCopies entries) := by
  refine moves_forM _ fun e he => ?_
  dsimp only
  rw [RecordId.copyValue_of_isPlain (hp e he)]
  exact RecordOp.advances_of_writes (.add e.2.label e.2.value) (hp e he) copy

theorem RecordId.final_derive (id : RecordId) (name : Option String) (s : Space) :
    final (id.derive name) s =
      final ((⟨s.nextRecord⟩ : RecordId).addCopies
          ((s.withNew name (s.record id).maxDepth).record id).fields.entries)
        (s.withNew name (s.record id).maxDepth) :=
  final_bind_pure _ (fun _ => (⟨s.nextRecord⟩ : RecordId)) _

/-- Deriving a record is to make a new one and write to it what the other one holds. -/
theorem RecordId.derive_advances (id : RecordId) (name : Option String) (s : Space) :
    (s.withNew name (s.record id).maxDepth).Advances (final (id.derive name) s) := by
  intro ht
  obtain ⟨r, hr⟩ := ht.told id
  rw [RecordId.final_derive]
  refine RecordId.addCopies_advances _ (fun e he => ?_) _ ht
  obtain ⟨k, -, hk⟩ := List.mem_filterMap.mp he
  obtain ⟨f, hf, rfl⟩ := Option.map_eq_some_iff.mp hk
  exact hr.plain k f hf

end Advancing

namespace Packet

variable (p : Packet τ) (s : Space)

theorem add_run (id : RecordId) {name : String} (hname : (s.record id).name = some name) :
    p.add id s =
      match p.records.get? name with
      | some _ => .error (.refused (.nameTaken name)) s
      | none => .ok (⟨name, id⟩, { p with records := p.records.put name id }) s := by
  rw [add, bind_of_ok (Edit.get_run s), hname]
  cases hn : p.records.get? name <;> simp only [Table.contains, hn] <;> rfl

theorem add_run_unnamed (id : RecordId) (hname : (s.record id).name = none) :
    p.add id s = .error (.refused .unnamed) s := by
  rw [add, bind_of_ok (Edit.get_run s), hname]
  rfl

theorem create_run (name : String) :
    p.create name s =
      match p.records.get? name with
      | some _ => .error (.refused (.nameTaken name)) (s.withNew (some name) p.maxDepth)
      | none =>
        .ok (⟨s.nextRecord⟩, ⟨name, ⟨s.nextRecord⟩⟩,
          { p with records := p.records.put name ⟨s.nextRecord⟩ })
          (s.withNew (some name) p.maxDepth) := by
  have hfresh : RecordId.fresh (some name) p.maxDepth s =
      .ok ⟨s.nextRecord⟩ (s.withNew (some name) p.maxDepth) := rfl
  have hname : ((s.withNew (some name) p.maxDepth).record ⟨s.nextRecord⟩).name = some name := by
    rw [Space.record_withNew, if_pos rfl]
  have hadd := p.add_run (s.withNew (some name) p.maxDepth) ⟨s.nextRecord⟩ hname
  rw [create, bind_of_ok hfresh]
  cases hn : p.records.get? name with
  | some _ =>
    rw [hn] at hadd
    exact bind_of_error hadd
  | none =>
    rw [hn] at hadd
    exact bind_of_ok hadd

theorem remove_run (name : String) :
    p.remove name s =
      match p.records.get? name with
      | some id =>
        .ok (id, { p with records := p.records.erase name, index := p.index.forget name })
          (s.setRecord id { s.record id with changes := ∅ })
      | none => .error (.notFound (.record name)) s := by
  unfold remove Packet.record
  cases p.records.get? name <;> rfl

theorem mem_held {name : String} {id : RecordId} (h : p.records.get? name = some id) :
    id ∈ p.held :=
  List.mem_append_left _ (Table.mem_values_of_get? h)

end Packet

namespace Packet.Course

/-- Since the record `id` was `r`, its changes tell what it has become. As long as none were taken
`r` is empty, and while the record is registered it is entered as `r`. -/
structure Since (σ : Course τ) (id : RecordId) (r : Record) : Prop where
  told : r.Told (σ.space.record id)
  fresh : id ∉ σ.drained → ∀ k, r.fields.field? k = none
  entered : ∀ name, σ.packet.records.get? name = some id → ∀ k,
    σ.packet.index.current.get? ⟨name, k⟩ = (r.fields.field? k).bind Field.entry?

/-- Records are registered under their own names, the index is about them alone, and of each the
changes tell what it has become. -/
structure Sound (σ : Course τ) : Prop where
  wellKept : σ.space.WellKept
  index : σ.packet.index.WellKept
  ascending : σ.packet.records.Ascending
  nameless : ∀ id, σ.space.nextRecord ≤ id.number → (σ.space.record id).name = none
  named : ∀ name id, σ.packet.records.get? name = some id → (σ.space.record id).name = some name
  registered : ∀ site e, σ.packet.index.current.get? site = some e →
    ∃ id, σ.packet.records.get? site.name = some id
  since : ∀ id, ∃ r, σ.Since id r

theorem sound_start (maxDepth : Nat) : (start maxDepth : Course τ).Sound where
  wellKept := .empty
  index := Index.wellKept_empty
  ascending := Table.ascending_empty
  nameless _ _ := rfl
  named _ _ h := by cases h
  registered _ _ h := by cases h
  since id :=
    ⟨{}, Record.told_self (fun _ _ h => by cases h) rfl, fun _ _ => rfl, fun _ h => by cases h⟩

namespace Sound

variable {σ : Course τ} (h : σ.Sound)
include h

theorem traced : σ.space.Traced := ⟨h.wellKept, fun id => (h.since id).imp fun _ hr => hr.told⟩

theorem name_unique {name other : String} {id : RecordId}
    (hn : σ.packet.records.get? name = some id) (ho : σ.packet.records.get? other = some id) :
    other = name := by
  have := (h.named _ _ ho).symm.trans (h.named _ _ hn)
  exact Option.some.inj this

theorem current_eq_none {name : String} (hn : σ.packet.records.get? name = none) (k : Key) :
    σ.packet.index.current.get? ⟨name, k⟩ = none := by
  rw [Option.eq_none_iff_forall_ne_some]
  intro e he
  obtain ⟨id, hid⟩ := h.registered _ _ he
  rw [hn] at hid
  cases hid

theorem ne_new {name : String} {id : RecordId} (hn : σ.packet.records.get? name = some id) :
    id ≠ ⟨σ.space.nextRecord⟩ := by
  rintro rfl
  have := h.named _ _ hn
  rw [h.nameless _ (Nat.le_refl _)] at this
  cases this

theorem advance {p : Packet τ} {t : Space} (hr : p.records = σ.packet.records)
    (hi : p.index = σ.packet.index) (ht : σ.space.Advances t) :
    Sound { σ with packet := p, space := t } := by
  obtain ⟨hwell, hnext, hid⟩ := ht h.traced
  refine ⟨hwell, hi ▸ h.index, hr ▸ h.ascending, fun id hn => ?_, fun name id hn => ?_, ?_,
    fun id => ?_⟩
  · dsimp only at hn ⊢
    rw [hnext] at hn
    exact (hid id).1.trans (h.nameless id hn)
  · dsimp only at hn ⊢
    rw [hr] at hn
    exact (hid id).1.trans (h.named name id hn)
  · dsimp only
    rw [hr, hi]
    exact h.registered
  · obtain ⟨r, hs⟩ := h.since id
    refine ⟨r, (hid id).2 r hs.told, hs.fresh, ?_⟩
    dsimp only
    rw [hr, hi]
    exact hs.entered

section Made

variable (name : Option String) (maxDepth : Nat)

theorem since_new :
    Since { σ with space := σ.space.withNew name maxDepth } ⟨σ.space.nextRecord⟩
      { name, maxDepth } := by
  refine ⟨?_, fun _ _ => rfl, fun n hn => absurd rfl (h.ne_new hn)⟩
  rw [Space.record_withNew, if_pos rfl]
  exact Record.told_self (fun _ _ hf => by cases hf) rfl

theorem newRecord : Sound { σ with space := σ.space.withNew name maxDepth } := by
  refine ⟨?_, h.index, h.ascending, fun id hn => ?_, fun n id hn => ?_, h.registered, fun id => ?_⟩
  · exact Space.keeps_newRecord name maxDepth σ.space h.wellKept
  · have hlt : σ.space.nextRecord < id.number := hn
    rw [Space.record_withNew, if_neg, h.nameless id (Nat.le_of_lt hlt)]
    rintro rfl
    exact Nat.lt_irrefl _ hlt
  · rw [Space.record_withNew, if_neg (h.ne_new hn)]
    exact h.named n id hn
  · by_cases hid : id = ⟨σ.space.nextRecord⟩
    · exact ⟨_, hid ▸ h.since_new name maxDepth⟩
    · obtain ⟨r, hs⟩ := h.since id
      refine ⟨r, ?_, hs.fresh, hs.entered⟩
      rw [Space.record_withNew, if_neg hid]
      exact hs.told

theorem derive (id : RecordId) : Sound { σ with space := final (id.derive name) σ.space } := by
  have hnew := h.newRecord name (σ.space.record id).maxDepth
  exact hnew.advance rfl rfl (id.derive_advances name σ.space)

end Made

theorem letGo {held : RecordId → Bool} (hheld : ∀ id ∈ σ.packet.held, held id = true) :
    Sound { σ with space := σ.space.retain held } := by
  have hrecord := Space.record_retain_if h.wellKept.ascending held
  have hkept : ∀ {name id}, σ.packet.records.get? name = some id → held id = true :=
    fun hn => hheld _ (σ.packet.mem_held hn)
  refine ⟨h.wellKept.retain held, h.index, h.ascending, fun id hn => ?_, fun name id hn => ?_,
    h.registered, fun id => ?_⟩
  · dsimp only
    rw [hrecord]
    split
    · exact h.nameless id hn
    · rfl
  · dsimp only
    rw [hrecord, if_pos (hkept hn)]
    exact h.named name id hn
  · cases hid : held id with
    | true =>
      obtain ⟨r, hs⟩ := h.since id
      refine ⟨r, ?_, hs.fresh, hs.entered⟩
      dsimp only
      rw [hrecord, if_pos hid]
      exact hs.told
    | false =>
      refine ⟨{}, ?_, fun _ _ => rfl, fun name hn => ?_⟩
      · dsimp only
        rw [hrecord, hid]
        exact Record.told_self (fun _ _ hf => by cases hf) rfl
      · rw [hkept hn] at hid
        cases hid

theorem add {id : RecordId} {r : Record} (hs : σ.Since id r)
    (hr : ∀ k, r.fields.field? k = none) {name : String}
    (hname : (σ.space.record id).name = some name) (hn : σ.packet.records.get? name = none) :
    Sound { σ with packet := { σ.packet with records := σ.packet.records.put name id } } := by
  refine ⟨h.wellKept, h.index, h.ascending.put _ _, h.nameless, fun m j hm => ?_,
    fun site e he => ?_, fun j => ?_⟩
  · dsimp only at hm
    rw [Table.get?_put_if] at hm
    split at hm
    · rename_i hmn
      cases hm
      rw [hmn]
      exact hname
    · exact h.named m j hm
  · dsimp only
    rw [Table.get?_put_if]
    split
    · exact ⟨id, rfl⟩
    · exact h.registered site e he
  · have hentered : ∀ {q : Record}, σ.Since j q → (j = id → ∀ k, q.fields.field? k = none) →
        ∀ m, (σ.packet.records.put name id).get? m = some j → ∀ k,
          σ.packet.index.current.get? ⟨m, k⟩ = (q.fields.field? k).bind Field.entry? := by
      intro q hq hempty m hm k
      rw [Table.get?_put_if] at hm
      split at hm
      · rename_i hmn
        rw [hmn, hempty (Option.some.inj hm).symm k]
        exact h.current_eq_none hn k
      · exact hq.entered m hm k
    by_cases hj : j = id
    · subst hj
      exact ⟨r, hs.told, hs.fresh, hentered hs fun _ => hr⟩
    · obtain ⟨q, hq⟩ := h.since j
      exact ⟨q, hq.told, hq.fresh, hentered hq fun hji => absurd hji hj⟩

theorem field?_of_not_drained {id : RecordId} {ids : List RecordId} (hid : id ∈ ids)
    (hd : id ∉ σ.drains ids) (k : Key) : (σ.space.record id).fields.field? k = none := by
  obtain ⟨r, hs⟩ := h.since id
  rw [drains, List.mem_append, List.mem_filter, not_or] at hd
  have hempty : (σ.space.record id).changes.isEmpty = true := by
    simpa [hid] using hd.2
  rw [hs.told.tracked.untouched k (Changeset.get?_of_isEmpty hempty k)]
  exact hs.fresh hd.1 k

/-- The changes of some records are taken, and what these hold then is entered for those of them
that stay registered. -/
theorem take {p : Packet τ} {t : Space} {ids : List RecordId} (hindex : p.index.WellKept)
    (hasc : p.records.Ascending)
    (hstay : ∀ {name id}, p.records.get? name = some id → σ.packet.records.get? name = some id)
    (hreg : ∀ site e, p.index.current.get? site = some e →
      ∃ id, p.records.get? site.name = some id)
    (hcurrent : ∀ name id, p.records.get? name = some id → ∀ k,
      p.index.current.get? ⟨name, k⟩ =
        if id ∈ ids then ((σ.space.record id).fields.field? k).bind Field.entry?
        else σ.packet.index.current.get? ⟨name, k⟩)
    (ht : t.WellKept) (hnext : t.nextRecord = σ.space.nextRecord)
    (hrecord : ∀ id, t.record id =
      if id ∈ ids then { σ.space.record id with changes := ∅ } else σ.space.record id) :
    Sound ⟨p, t, σ.drains ids⟩ := by
  have hname : ∀ id, (t.record id).name = (σ.space.record id).name := by
    intro id
    rw [hrecord]
    split <;> rfl
  refine ⟨ht, hindex, hasc, fun id hid => ?_,
    fun name id hn => (hname id).trans (h.named name id (hstay hn)), hreg, fun id => ?_⟩
  · exact (hname id).trans (h.nameless id (hnext ▸ hid))
  · obtain ⟨r, hs⟩ := h.since id
    by_cases hid : id ∈ ids
    · refine ⟨{ σ.space.record id with changes := ∅ }, ?_, h.field?_of_not_drained hid,
        fun name hn k => ?_⟩
      · dsimp only
        rw [hrecord, if_pos hid]
        exact hs.told.taken
      · rw [hcurrent name id hn, if_pos hid]
    · refine ⟨r, ?_, fun hd => hs.fresh fun hmem => hd (List.mem_append_left _ hmem),
        fun name hn k => ?_⟩
      · dsimp only
        rw [hrecord, if_neg hid]
        exact hs.told
      · rw [hcurrent name id hn, if_neg hid]
        exact hs.entered name (hstay hn) k

theorem remove {name : String} {id : RecordId} (hn : σ.packet.records.get? name = some id) :
    Sound ⟨{ σ.packet with
        records := σ.packet.records.erase name, index := σ.packet.index.forget name },
      σ.space.setRecord id { σ.space.record id with changes := ∅ }, σ.drains [id]⟩ := by
  have hother : ∀ {m j}, (σ.packet.records.erase name).get? m = some j →
      m ≠ name ∧ σ.packet.records.get? m = some j := by
    intro m j hm
    rw [Table.get?_erase_if] at hm
    split at hm
    · cases hm
    · exact ⟨‹_›, hm⟩
  refine h.take (h.index.forget name) (h.ascending.erase name) (fun hm => (hother hm).2)
    (fun site e he => ?_) (fun m j hm k => ?_)
    (Space.closed_wellKept.setChanges _ _ _ h.wellKept) rfl fun j => ?_
  · dsimp only at he ⊢
    rw [Index.forget_current] at he
    split at he
    · cases he
    · rename_i hne
      rw [Table.get?_erase_if, if_neg hne]
      exact h.registered site e he
  · obtain ⟨hne, hmj⟩ := hother hm
    have hj : j ∉ [id] := by
      rw [List.mem_singleton]
      rintro rfl
      exact hne (h.name_unique hn hmj)
    dsimp only
    rw [Index.forget_current, if_neg hne, if_neg hj]
  · rw [Space.record_setRecord]
    by_cases hj : j = id
    · subst hj
      simp
    · simp [hj]

end Sound

end Packet.Course

end LiveRecords
