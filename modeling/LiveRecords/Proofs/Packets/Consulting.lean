import LiveRecords.Proofs.Packets.Entries
import LiveRecords.Proofs.Sensor.Firing

/-! # Sensors do not hear of each other

A commit shows the same changeset to one sensor after the other, and they write to records in
between. But what they write is noted for the next commit only, and so what a sensor emits has
nothing to do with the sensors beside it.
-/

namespace LiveRecords

variable {τ : Type}

open Packet (Course)

namespace Sensor

variable {s t : Sensor τ} {cs : Changeset}

/-- The notification that a changeset brings about, if the sensor fires. -/
def emission (s : Sensor τ) (cs : Changeset) : Option Notification :=
  (s.evaluate cs).map fun found => { sensor := s.name, sequence := s.log.length + 1, found }

/-- A sensor after it was shown a changeset: what it emits is in its log, and besides only the fault
of its output is another one. -/
structure Shown (s : Sensor τ) (cs : Changeset) (t : Sensor τ) : Prop where
  log : t.log = s.log ++ (s.emission cs).toList
  same : { t with log := s.log, outputFault := s.outputFault } = s

/-- Two sensors with the same patterns, the same policy and as many notifications. -/
structure Like (s t : Sensor τ) : Prop where
  patterns : s.patterns = t.patterns
  policy : s.policy = t.policy
  emitted : s.log.length = t.log.length

/-- What a sensor has emitted since it was `s`, but for its name. -/
def news (s t : Sensor τ) : List (Nat × Matches) :=
  (t.log.drop s.log.length).map fun n => (n.sequence, n.found)

theorem Like.evaluate (h : s.Like t) (cs : Changeset) : s.evaluate cs = t.evaluate cs := by
  obtain ⟨hp, hpolicy, -⟩ := h
  cases s
  cases t
  cases hp
  cases hpolicy
  rfl

theorem Shown.news {s' : Sensor τ} (h : s.Shown cs s') :
    s.news s' = ((s.evaluate cs).map fun found => (s.log.length + 1, found)).toList := by
  rw [Sensor.news, h.log, List.drop_left, emission]
  cases s.evaluate cs <;> rfl

/-- What two sensors emit that are shown the same, only what they are like decides. -/
theorem Like.news (h : s.Like t) {s' t' : Sensor τ} (hs : s.Shown cs s') (ht : t.Shown cs t') :
    s.news s' = t.news t' := by
  rw [hs.news, ht.news, h.evaluate, h.emitted]

theorem exists_emit (s : Sensor τ) (n : Notification) (space : Space) :
    ∃ fault space', s.emit n space = ({ s with outputFault := fault }, space') := by
  unfold emit
  split
  · exact ⟨_, _, rfl⟩
  · split <;> exact ⟨_, _, rfl⟩

/-- Whatever becomes of its output, a sensor logs what it emits and hands it to its listeners. -/
theorem notify_shown (s : Sensor τ) (cs : Changeset) (space : Space) :
    s.Shown cs (s.notify cs space).2.1 ∧
      (s.notify cs space).1.getD [] = (s.emission cs).toList.flatMap s.audience.notify := by
  cases he : s.evaluate cs with
  | none =>
    have hemission : s.emission cs = none := by rw [emission, he, Option.map_none]
    simp only [notify, he, hemission]
    exact ⟨⟨by simp [hemission], rfl⟩, rfl⟩
  | some found =>
    have hemission : s.emission cs = some ⟨s.name, s.log.length + 1, found⟩ := by
      rw [emission, he, Option.map_some]
    obtain ⟨fault, space', hemit⟩ := s.exists_emit ⟨s.name, s.log.length + 1, found⟩ space
    simp only [notify, he, hemission, hemit]
    exact ⟨⟨by simp [hemission], rfl⟩, (List.append_nil _).symm⟩

end Sensor

namespace Packet

/-- The space after each of the sensors was shown the changeset, in order. -/
def shownTo (cs : Changeset) (sensors : List (Nat × Sensor τ)) (space : Space) : Space :=
  sensors.foldl (fun space e => (e.2.notify cs space).2.2) space

theorem consult_shown (cs : Changeset) (space : Space) (sensors : List (Nat × Sensor τ)) :
    List.Forall₂ (fun e e' => e'.1 = e.1 ∧ e.2.Shown cs e'.2) sensors
        (consult cs space sensors).2.1 ∧
      (consult cs space sensors).1 =
        sensors.flatMap (fun e => (e.2.emission cs).toList.flatMap e.2.audience.notify) ∧
      (consult cs space sensors).2.2 = shownTo cs sensors space := by
  induction sensors generalizing space with
  | nil => exact ⟨.nil, rfl, rfl⟩
  | cons e rest ih =>
    obtain ⟨id, s⟩ := e
    obtain ⟨hshown, hdelivered⟩ := s.notify_shown cs space
    obtain ⟨hrest, hmore, hspace⟩ := ih (s.notify cs space).2.2
    refine ⟨.cons ⟨rfl, hshown⟩ hrest, ?_, hspace⟩
    rw [List.flatMap_cons, ← hmore, ← hdelivered]
    rfl

/-- What a commit does with the sensors: each is shown the changeset, in the order in which they
stand, and what it emits its listeners are handed. -/
structure Consulted (cs : Changeset) (taken : Space) (sensors : List (Nat × Sensor τ))
    (c : Commit τ) : Prop where
  shown : List.Forall₂ (fun e e' => e'.1 = e.1 ∧ e.2.Shown cs e'.2) sensors c.packet.sensors
  delivered : c.delivered =
    sensors.flatMap fun e => (e.2.emission cs).toList.flatMap e.2.audience.notify
  space : c.space = shownTo cs sensors taken

theorem commit_consulted (p : Packet τ) (s : Space) (hne : (p.commit s).changes.isEmpty = false) :
    Consulted (p.commit s).changes (drain s p.records.entries ∅).2 p.sensors (p.commit s) := by
  have hconsults := p.commit_consults s
  rw [commit_changes] at hne ⊢
  rw [hne, if_neg Bool.false_ne_true] at hconsults
  obtain ⟨hshown, hdelivered, hspace⟩ := consult_shown (drain s p.records.entries ∅).1
    (drain s p.records.entries ∅).2 p.sensors
  rw [← hconsults] at hshown hdelivered hspace
  exact ⟨hshown, hdelivered, hspace⟩

theorem Consulted.shown_of_mem {cs : Changeset} {taken : Space} {sensors : List (Nat × Sensor τ)}
    {c : Commit τ} (h : Consulted cs taken sensors c) {e : (Nat × Sensor τ) × Nat × Sensor τ}
    (he : e ∈ sensors.zip c.packet.sensors) : e.1.2.Shown cs e.2.2 :=
  ((List.forall₂_iff_zip.mp h.shown).2 he).2

end Packet

namespace Packet.Course

variable {σ : Course τ} {act : PacketAct τ} {acts : List (PacketAct τ)} {name : String} {l : Label}
  {v : Value}

theorem Orderly.mem_lookup_run (h : σ.Orderly) (hl : σ.Listed) (ha : act.Allowed σ)
    (hc : act ≠ .commit) :
    name ∈ (act.run σ).packet.lookup l v ↔ name ∈ σ.packet.lookup l v ∧ act ≠ .remove name := by
  have hafter : name ∈ (act.run σ).packet.lookup l v ↔
      ∃ k form, v.indexForm = some form ∧ (act.run σ).entered? name k = some (l, form) :=
    (h.step ha).index.mem_lookup_iff
  have hbefore : name ∈ σ.packet.lookup l v ↔
      ∃ k form, v.indexForm = some form ∧ σ.entered? name k = some (l, form) :=
    h.index.mem_lookup_iff
  rw [hafter, hbefore]
  by_cases hr : act = .remove name
  · subst hr
    simp [hl.entered?_run_remove]
  · simp only [entered?_run hr hc, ne_eq, hr, not_false_eq_true, and_true]

theorem Orderly.mem_lookup_acted (h : σ.Orderly) (hl : σ.Listed) (ha : σ.Permits acts)
    (hc : .commit ∉ acts) :
    name ∈ (σ.acted acts).packet.lookup l v ↔
      name ∈ σ.packet.lookup l v ∧ .remove name ∉ acts := by
  induction acts generalizing σ with
  | nil => exact (and_iff_left List.not_mem_nil).symm
  | cons act acts ih =>
    rw [List.mem_cons, not_or] at hc
    change name ∈ ((act.run σ).acted acts).packet.lookup l v ↔ _
    rw [ih (h.step ha.1) (hl.step h act) ha.2 hc.2, h.mem_lookup_run hl ha.1 (Ne.symm hc.1),
      List.mem_cons, not_or, and_assoc, ne_comm]

end Packet.Course

/-- In a run of an empty packet, let a commit have something to tell. It shows the changeset to each
sensor once, in the order in which they stand, and hands out what they emit, whatever becomes of
their outputs. Whatever the packet and its space, a sensor with the same patterns, the same policy
and as long a log emits the same if it is shown the same changeset, patterns being taken to look at
nothing but changes. With other sensors the changeset would be the same, and so would every lookup,
which until the next commit loses the names of removed records and stays as it is besides. -/
theorem Packet.sensors_apart {maxDepth : Nat} {acts : List (PacketAct τ)}
    (h : (Course.start maxDepth).Permits acts) :
    let σ := (Course.start maxDepth).acted acts
    let c := σ.packet.commit σ.space
    c.changes.isEmpty = false →
    (∃ taken : Space,
      (∀ name id, σ.packet.records.get? name = some id → (taken.record id).changes = ∅) ∧
      Consulted c.changes taken σ.packet.sensors c) ∧
    (∀ (q : Packet τ) (s : Space), (q.commit s).changes = c.changes →
      ∀ e ∈ σ.packet.sensors.zip c.packet.sensors,
        ∀ f ∈ q.sensors.zip (q.commit s).packet.sensors,
          e.1.2.Like f.1.2 → e.1.2.news e.2.2 = f.1.2.news f.2.2) ∧
    (∀ sensors : List (Nat × Sensor τ),
      let d := { σ.packet with sensors }.commit σ.space
      d.changes = c.changes ∧ ∀ l v, d.packet.lookup l v = c.packet.lookup l v) ∧
    ∀ later, (PacketAct.commit.run σ).Permits later → .commit ∉ later → ∀ name l v,
      name ∈ ((PacketAct.commit.run σ).acted later).packet.lookup l v ↔
        name ∈ c.packet.lookup l v ∧ .remove name ∉ later := by
  intro σ c hne
  have hstart : (Course.start maxDepth : Course τ).Orderly := Course.orderly_start maxDepth
  have hσ : σ.Orderly := hstart.acted h
  have hconsulted : Consulted c.changes _ σ.packet.sensors c := commit_consulted _ _ hne
  refine ⟨⟨_, fun name id hn => ?_, hconsulted⟩, fun q s hq e he f hf hlike => ?_,
    fun sensors => ⟨?_, fun l v => ?_⟩, fun later ha hc name l v => ?_⟩
  · rw [drain_record, if_pos (hσ.mem_values_iff.mpr ⟨name, hn⟩)]
  · have hother := commit_consulted q s (hq ▸ hne)
    rw [hq] at hother
    exact hlike.news (hconsulted.shown_of_mem he) (hother.shown_of_mem hf)
  · exact (commit_changes _ _).trans (commit_changes σ.packet σ.space).symm
  · exact congrArg (Index.lookup · l v)
      ((commit_index _ _).trans (commit_index σ.packet σ.space).symm)
  · have hlisted := (Course.listed_start maxDepth).acted hstart h
    exact hσ.commit.mem_lookup_acted (hlisted.step hσ .commit) ha hc

/-- Three sensors watch for anything. The first one writes to a record with a reference that leads
nowhere, and the others write to the same registered record. -/
def alarmed : List (PacketAct Unit) :=
  [.create "alice", .create "alerts", .operation (.newRecord (some "broken") 4),
    .operation (.newRecord none 4),
    .operation (.record ⟨3⟩ (.add (.name "count") (.cell (.reference ⟨4⟩ (.name "x"))))),
    .operation (.retain (· ≠ ⟨4⟩)),
    .addSensor { name := "first", patterns := [.always true], output := some ⟨3⟩ },
    .addSensor { name := "second", patterns := [.always true], output := some ⟨2⟩ },
    .addSensor { name := "third", patterns := [.always true], output := some ⟨2⟩ },
    .write ⟨⟨"alice", ⟨1⟩⟩, .name "city"⟩ (.text "Paris")]

theorem permits_alarmed : (Course.start 4).Permits alarmed := by
  refine ⟨trivial, trivial, trivial, trivial, trivial, ?_, trivial, trivial, trivial, trivial,
    trivial⟩
  change ∀ id ∈ [⟨2⟩, ⟨1⟩], decide (id ≠ (⟨4⟩ : RecordId)) = true
  decide

theorem sensors_apart_alarmed :
    let σ := (Course.start 4).acted alarmed
    let c := σ.packet.commit σ.space
    c.changes.keys = ["alice"] ∧
      c.packet.sensors.map (fun e => (e.2.log.length, e.2.outputFault.isSome)) =
        [(1, true), (1, false), (1, false)] ∧
      (({ σ.packet with sensors := [] } : Packet Unit).commit σ.space).changes.keys = ["alice"] ∧
      (c.space.record ⟨2⟩).changes.labels = [.name "sensor", .name "objects", .name "count"] ∧
      "alerts" ∉ ((PacketAct.commit.run σ).acted [.removeSensor 1]).packet.lookup (.name "sensor")
        (.text "third") := by
  intro σ c
  have hkeys : c.changes.keys = ["alice"] := by decide +kernel
  obtain ⟨-, -, hother, hlookup⟩ := Packet.sensors_apart permits_alarmed (by decide +kernel)
  refine ⟨hkeys, by decide +kernel, ?_, by decide +kernel, fun hmem => ?_⟩
  · rw [(hother []).1]
    exact hkeys
  · have hbefore := ((hlookup [.removeSensor 1] ⟨trivial, trivial⟩ (by simp) _ _ _).mp hmem).1
    revert hbefore
    decide +kernel

end LiveRecords
