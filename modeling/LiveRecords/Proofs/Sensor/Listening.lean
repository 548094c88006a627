import Mathlib.Data.List.Induction
import LiveRecords.Proofs.Evaluation.Confined
import LiveRecords.Proofs.Evaluation.Relays
import LiveRecords.Proofs.Evaluation.Shifts
import LiveRecords.Proofs.Packets.Consulting

/-! # Who hears what

Listeners come and go while a sensor fires. A notification is handed to those who have subscribed
and not unsubscribed since, and this only the history tells. The output record counts the
notifications, where the sensor can write to it.
-/

namespace LiveRecords

variable {τ : Type}

/-- What is done with a sensor, and in between in the space that it writes to. -/
inductive SensorAct (τ : Type) where
  | subscribe (listener : τ)
  | unsubscribe (id : Nat)
  | notify (cs : Changeset)
  | operation (op : Operation)

/-- A sensor in the course of a run, with the space that it writes to. -/
structure Sensor.Course (τ : Type) where
  sensor : Sensor τ
  space : Space

open Sensor (Course)

namespace SensorAct

def run : SensorAct τ → Course τ → Course τ
  | subscribe listener, σ => { σ with sensor := (σ.sensor.subscribe listener).2 }
  | unsubscribe id, σ => { σ with sensor := (σ.sensor.unsubscribe id).2 }
  | notify cs, σ => ⟨(σ.sensor.notify cs σ.space).2.1, (σ.sensor.notify cs σ.space).2.2⟩
  | operation op, σ => { σ with space := final op.run σ.space }

/-- The sensor itself is called. -/
def isCall : SensorAct τ → Bool
  | operation _ => false
  | _ => true

end SensorAct

namespace Sensor

/-- The labels under which a sensor writes to its output. -/
def outputLabels : List Label := [.name "sensor", .name "objects", .name "count"]

namespace Course

/-- The sensor and its space after some acts. -/
def acted (σ : Course τ) (acts : List (SensorAct τ)) : Course τ :=
  acts.foldl (fun σ act => act.run σ) σ

/-- Nobody has subscribed yet, and nothing has been emitted. -/
structure Fresh (σ : Course τ) : Prop where
  log : σ.sensor.log = []
  audience : σ.sensor.audience = {}
  reachable : Reachable σ.space

/-- One of the acts subscribed the listener and was answered with this number, and none after it
unsubscribed the number. -/
def Subscribed (σ : Course τ) (acts : List (SensorAct τ)) (id : Nat) (listener : τ) : Prop :=
  ∃ before after, acts = before ++ .subscribe listener :: after ∧
    ((σ.acted before).sensor.subscribe listener).1 = id ∧ .unsubscribe id ∉ after

/-- Notifications are numbered from one, and listeners stand in the order of their numbers, all of
which are behind the next one. -/
structure Orderly (σ : Course τ) : Prop where
  reachable : Reachable σ.space
  numbered : σ.sensor.log.map (·.sequence) = List.range' 1 σ.sensor.log.length
  ascending : σ.sensor.audience.members.Pairwise (·.1 < ·.1)
  bounded : ∀ e ∈ σ.sensor.audience.members, e.1 < σ.sensor.audience.next

end Course

/-- A sensor has emitted `n` and handed it to exactly those who are subscribed, in the order of
their numbers. It is the last one in the log, numbered by how many there are. Writing it out
succeeds if the fields of the output hold no cells, and once it is written out, the count is that
number as well, unless there is a cell in its place. -/
structure Emitted (s : Sensor τ) (space : Space) (subscribed : Nat → τ → Prop) (n : Notification)
    (delivered : List (τ × Notification)) (t : Sensor τ) (after : Space) : Prop where
  logged : t.log = s.log ++ [n]
  numbered : n.sequence = t.log.length
  heard : ∃ members : List (Nat × τ), members.Pairwise (·.1 < ·.1) ∧
    (∀ e, e ∈ members ↔ subscribed e.1 e.2) ∧ delivered = members.map fun e => (e.2, n)
  written : ∀ output, s.output = some output → (∀ l ∈ outputLabels, space.PlainAt output l) →
    writeOut output n space = .ok () after ∧ after.PlainAt output (.name "count")
  counted : ∀ output, s.output = some output → writeOut output n space = .ok () after →
    after.PlainAt output (.name "count") → ∃ count : Int64,
      output.read (.label (.name "count")) after = .ok (.int count) after ∧
        count.toInt = t.log.length

end Sensor

section Writing

variable {s t : Space} {id : RecordId} {l : Label} {v : Value} {k : Key}

theorem Space.Carries.plainAt (h : s.Carries id l v) (hs : s.WellKept) (hv : v.isCell = false) :
    s.PlainAt id l := by
  obtain ⟨k, hk⟩ := h
  have hf := ((Container.slot?_eq_some ..).mp hk).2
  intro hl j w hj
  obtain rfl : j = k := (hs.contents (.record id)).label_unique hf hj hl rfl
  cases hj.symm.trans hf
  exact hv

theorem RecordId.write_label (hs : s.WellKept) (hp : s.PlainAt id l) (hl : l ≠ .empty)
    (hv : v.isCell = false) :
    ∃ k t, id.write (.label l) v s = .ok k t ∧ t.WellKept ∧ t.Carries id l v ∧
      ∀ m, s.PlainAt id m → t.PlainAt id m := by
  obtain ⟨k, u, ha, hu⟩ := Holder.assign_label hs id hl v
  have hrun : id.write (.label l) v s = .ok k (u.noted id k l v) := by
    rw [RecordId.write_run fun _ _ _ hk => by cases hp.isCell_eq_false hs hk]
    exact RecordId.noting_run ha ((Container.slot?_eq_some ..).mp hu).2
  have hconfined : ∀ m ≠ l, Space.Confined id [m] s (u.noted id k l v) := by
    intro m hm
    have hfinal : final (id.write (.label l) v) s = final (Eval.run
        (writeWithin (s.record id).maxDepth (s.record id).maxDepth id (.label l) v)) s := rfl
    rw [← final_of_ok hrun, hfinal, final_run]
    exact writeLabel_confined (σ := { space := s }) hs hp (List.mem_singleton.not.mpr hm.symm)
  have hwell : (u.noted id k l v).WellKept := (hconfined .empty hl.symm).wellKept hs
  have hcarries : (u.noted id k l v).Carries id l v := ⟨k, (Space.slot?_noted ..).trans hu⟩
  refine ⟨k, _, hrun, hwell, hcarries, fun m hm => ?_⟩
  by_cases he : m = l
  · exact he ▸ hcarries.plainAt hwell hv
  · exact (hconfined m he).plain hs m (List.mem_singleton_self m) hm

theorem RecordId.carries_of_write (hs : s.WellKept) (hl : l ≠ .empty) (hv : v.isCell = false)
    (h : id.write (.label l) v s = .ok k t) (ht : t.PlainAt id l) : t.Carries id l v := by
  have hp : s.PlainAt id l := by
    intro _ j w hj
    cases w with
    | cell c =>
      obtain ⟨d, hd, -⟩ := RecordId.write_keepsCells hs id (.label l) v id j l c hj
      rw [final_of_ok h] at hd
      cases ht hl j _ hd
    | _ => rfl
  obtain ⟨j, u, hu, -, hcarries, -⟩ := RecordId.write_label hs hp hl hv
  cases h.symm.trans hu
  exact hcarries

theorem Sensor.writeOut_run {output : RecordId} (hs : s.WellKept)
    (hp : ∀ l ∈ outputLabels, s.PlainAt output l) (n : Notification) :
    ∃ t, writeOut output n s = .ok () t ∧ t.PlainAt output (.name "count") := by
  have hsensor : s.PlainAt output (.name "sensor") := hp _ (by decide)
  have hobjects : s.PlainAt output (.name "objects") := hp _ (by decide)
  have hcount : s.PlainAt output (.name "count") := hp _ (by decide)
  obtain ⟨_, r, hr, hrs, -, hrp⟩ := RecordId.write_label hs hsensor nofun
    (v := .text n.sensor) rfl
  obtain ⟨_, u, hu, hus, -, hup⟩ := RecordId.write_label hrs (hrp _ hobjects) nofun
    (v := .list (n.records.map .text)) rfl
  obtain ⟨_, t, ht, -, -, htp⟩ := RecordId.write_label hus (hup _ (hrp _ hcount)) nofun
    (v := .int (.ofNat n.sequence)) rfl
  refine ⟨t, ?_, htp _ (hup _ (hrp _ hcount))⟩
  rw [writeOut, bind_of_ok (discard_of_ok hr), bind_of_ok (discard_of_ok hu), discard_of_ok ht]

theorem Sensor.carries_of_writeOut {output : RecordId} {n : Notification}
    (h : Reachable s) (hw : writeOut output n s = .ok () t)
    (ht : t.PlainAt output (.name "count")) :
    t.Carries output (.name "count") (.int (.ofNat n.sequence)) := by
  have hkeeps : ∀ {p v r u}, Reachable r → discard (output.write p v) r = .ok () u →
      Reachable u := fun {p v r u} hr hu => by
    have hwrite := output.write_reachable p v r hr
    rwa [← final_discard, final_of_ok hu] at hwrite
  rw [writeOut, bind_eq_ok_iff] at hw
  obtain ⟨_, r, hr, hw⟩ := hw
  rw [bind_eq_ok_iff] at hw
  obtain ⟨_, u, hu, hw⟩ := hw
  obtain ⟨k, hk⟩ := discard_eq_ok_iff.mp hw
  exact RecordId.carries_of_write (hkeeps (hkeeps h hr) hu).wellKept nofun rfl hk ht

end Writing

namespace Sensor

theorem Shown.audience {s t : Sensor τ} {cs : Changeset} (h : s.Shown cs t) :
    t.audience = s.audience := by
  have hsame := congrArg Sensor.audience h.same
  exact hsame

theorem unsubscribe_eq_true_iff {s : Sensor τ} {id : Nat} :
    (s.unsubscribe id).1 = true ↔ ∃ listener, (id, listener) ∈ s.audience.members := by
  simp [Sensor.unsubscribe, Audience.unsubscribe]

/-- Whatever it is shown, a sensor keeps its audience and its log grows by what it emits. -/
theorem notify_kept (s : Sensor τ) (cs : Changeset) (space : Space) :
    (s.notify cs space).2.1.audience = s.audience ∧
      (s.notify cs space).2.1.log = s.log ++ (s.emission cs).toList :=
  ⟨(s.notify_shown cs space).1.audience, (s.notify_shown cs space).1.log⟩

theorem numbered_emission {s : Sensor τ}
    (h : s.log.map (·.sequence) = List.range' 1 s.log.length) (cs : Changeset) :
    (s.log ++ (s.emission cs).toList).map (·.sequence) =
      List.range' 1 (s.log ++ (s.emission cs).toList).length := by
  cases he : s.evaluate cs with
  | none => simpa [emission, he] using h
  | some found => simp [emission, he, h, List.range'_concat, Nat.add_comm]

namespace Course

variable {σ : Course τ} {acts : List (SensorAct τ)} {act : SensorAct τ} {id : Nat} {listener : τ}

theorem acted_concat (σ : Course τ) (acts : List (SensorAct τ)) (act : SensorAct τ) :
    σ.acted (acts ++ [act]) = act.run (σ.acted acts) :=
  List.foldl_concat ..

theorem acted_append (σ : Course τ) (before after : List (SensorAct τ)) :
    σ.acted (before ++ after) = (σ.acted before).acted after :=
  List.foldl_append

theorem Fresh.orderly (h : σ.Fresh) : σ.Orderly where
  reachable := h.reachable
  numbered := by
    rw [h.log]
    rfl
  ascending := by
    rw [h.audience]
    exact .nil
  bounded := by
    rw [h.audience]
    exact nofun

theorem Orderly.step (h : σ.Orderly) (act : SensorAct τ) : (act.run σ).Orderly := by
  cases act with
  | subscribe listener =>
    refine ⟨h.reachable, h.numbered, ?_, fun e he => ?_⟩
    · exact List.pairwise_append.mpr ⟨h.ascending, List.pairwise_singleton _ _, fun e he f hf =>
        List.mem_singleton.mp hf ▸ h.bounded e he⟩
    · rcases List.mem_append.mp he with he | he
      · exact Nat.lt_succ_of_lt (h.bounded e he)
      · obtain rfl := List.mem_singleton.mp he
        exact Nat.lt_succ_self _
  | unsubscribe id =>
    exact ⟨h.reachable, h.numbered, h.ascending.filter _, fun e he =>
      h.bounded e (List.mem_filter.mp he).1⟩
  | notify cs =>
    obtain ⟨haudience, hlog⟩ := σ.sensor.notify_kept cs σ.space
    refine ⟨?_, ?_, ?_, ?_⟩
    · exact notify_moves (R := Keeps Reachable) (fun id _ p v _ => id.write_reachable p v) cs
        σ.space h.reachable
    · rw [SensorAct.run, hlog]
      exact numbered_emission h.numbered cs
    · rw [SensorAct.run, haudience]
      exact h.ascending
    · rw [SensorAct.run, haudience]
      exact h.bounded
  | operation op => exact ⟨h.reachable.next op, h.numbered, h.ascending, h.bounded⟩

theorem Orderly.acted (h : σ.Orderly) (acts : List (SensorAct τ)) : (σ.acted acts).Orderly :=
  List.foldlRecOn acts _ h fun _ h act _ => h.step act

section Numbers

theorem next_run (act : SensorAct τ) (σ : Course τ) :
    σ.sensor.audience.next ≤ (act.run σ).sensor.audience.next := by
  cases act with
  | subscribe listener => exact Nat.le_succ _
  | unsubscribe id => exact Nat.le_refl _
  | notify cs => exact (congrArg Audience.next (σ.sensor.notify_kept cs σ.space).1).ge
  | operation op => exact Nat.le_refl _

theorem next_acted (σ : Course τ) (acts : List (SensorAct τ)) :
    σ.sensor.audience.next ≤ (σ.acted acts).sensor.audience.next := by
  induction acts using List.reverseRecOn with
  | nil => exact Nat.le_refl _
  | append_singleton acts act ih =>
    rw [acted_concat]
    exact ih.trans (next_run act _)

theorem next_lt_next (σ : Course τ) (before after : List (SensorAct τ)) (listener : τ) :
    (σ.acted before).sensor.audience.next <
      (σ.acted (before ++ .subscribe listener :: after)).sensor.audience.next := by
  rw [acted_append]
  exact next_acted (SensorAct.run (.subscribe listener) (σ.acted before)) after

theorem length_log_acted (σ : Course τ) (acts : List (SensorAct τ)) :
    (σ.acted acts).sensor.log.length ≤
      σ.sensor.log.length + acts.countP SensorAct.isCall := by
  induction acts using List.reverseRecOn with
  | nil => exact Nat.le_refl _
  | append_singleton acts act ih =>
    rw [acted_concat, List.countP_append, List.countP_singleton]
    cases act with
    | subscribe listener => exact ih.trans (by omega)
    | unsubscribe id => exact ih.trans (by omega)
    | notify cs =>
      have hone : ((σ.acted acts).sensor.emission cs).toList.length ≤ 1 := by
        cases (σ.acted acts).sensor.emission cs <;> simp
      have hcall : (SensorAct.notify cs : SensorAct τ).isCall = true := rfl
      rw [SensorAct.run, (notify_kept _ cs _).2, List.length_append, if_pos hcall]
      omega
    | operation op => exact ih

end Numbers

section Listeners

theorem subscribed_concat :
    σ.Subscribed (acts ++ [act]) id listener ↔
      (σ.Subscribed acts id listener ∧ act ≠ .unsubscribe id) ∨
        act = .subscribe listener ∧ ((σ.acted acts).sensor.subscribe listener).1 = id := by
  constructor
  · rintro ⟨before, after, h, hid, hafter⟩
    rcases after.eq_nil_or_concat with rfl | ⟨rest, last, rfl⟩
    · obtain ⟨rfl, hact⟩ := List.append_inj' h rfl
      exact .inr ⟨List.singleton_inj.mp hact, hid⟩
    · rw [List.concat_eq_append] at h hafter
      rw [← List.cons_append, ← List.append_assoc] at h
      obtain ⟨rfl, hact⟩ := List.append_inj' h rfl
      obtain rfl := List.singleton_inj.mp hact
      rw [List.mem_append, not_or, List.mem_singleton] at hafter
      exact .inl ⟨⟨before, rest, rfl, hid, hafter.1⟩, Ne.symm hafter.2⟩
  · rintro (⟨⟨before, after, rfl, hid, hafter⟩, hact⟩ | ⟨rfl, hid⟩)
    · refine ⟨before, after ++ [act], by simp, hid, ?_⟩
      rw [List.mem_append, not_or, List.mem_singleton]
      exact ⟨hafter, Ne.symm hact⟩
    · exact ⟨acts, [], rfl, hid, List.not_mem_nil⟩

/-- The audience consists of those who have subscribed and not unsubscribed since. -/
theorem Fresh.mem_members_iff (h : σ.Fresh) :
    (id, listener) ∈ (σ.acted acts).sensor.audience.members ↔ σ.Subscribed acts id listener := by
  induction acts using List.reverseRecOn with
  | nil =>
    rw [Course.acted, List.foldl_nil, h.audience]
    exact ⟨nofun, fun ⟨_, _, hnil, _⟩ => by simp at hnil⟩
  | append_singleton acts act ih =>
    rw [acted_concat, subscribed_concat, ← ih]
    cases act with
    | subscribe other =>
      simp only [SensorAct.run, Sensor.subscribe, Audience.subscribe, List.mem_append,
        List.mem_singleton, Prod.mk.injEq, ne_eq, reduceCtorEq, not_false_eq_true, and_true,
        SensorAct.subscribe.injEq]
      rw [and_comm (a := id = _), eq_comm (a := listener), eq_comm (a := id)]
    | unsubscribe other =>
      simp only [SensorAct.run, Sensor.unsubscribe, Audience.unsubscribe, List.mem_filter,
        decide_eq_true_eq, ne_eq, SensorAct.unsubscribe.injEq, reduceCtorEq, false_and, or_false]
      rw [eq_comm (a := id)]
    | notify cs =>
      rw [SensorAct.run, (notify_kept _ cs _).1]
      simp
    | operation op => simp [SensorAct.run]

/-- A number that was given out and is in use no more is not in use again. -/
theorem gone_run (act : SensorAct τ) (h : id < σ.sensor.audience.next)
    (hn : ∀ listener, (id, listener) ∉ σ.sensor.audience.members) (listener : τ) :
    (id, listener) ∉ (act.run σ).sensor.audience.members := by
  cases act with
  | subscribe other =>
    intro hmem
    rcases List.mem_append.mp hmem with hmem | hmem
    · exact hn listener hmem
    · cases List.mem_singleton.mp hmem
      exact Nat.lt_irrefl _ h
  | unsubscribe other => exact fun hmem => hn listener (List.mem_filter.mp hmem).1
  | notify cs =>
    rw [SensorAct.run, (notify_kept _ cs _).1]
    exact hn listener
  | operation op => exact hn listener

theorem gone_acted (h : id < σ.sensor.audience.next)
    (hn : ∀ listener, (id, listener) ∉ σ.sensor.audience.members) (acts : List (SensorAct τ))
    (listener : τ) : (id, listener) ∉ (σ.acted acts).sensor.audience.members := by
  induction acts using List.reverseRecOn generalizing listener with
  | nil => exact hn listener
  | append_singleton acts act ih =>
    rw [acted_concat]
    exact gone_run act (h.trans_le (next_acted σ acts)) ih listener

theorem Orderly.unsubscribe_once (h : σ.Orderly) (hid : (σ.sensor.unsubscribe id).1 = true)
    (later : List (SensorAct τ)) :
    ((σ.acted (.unsubscribe id :: later)).sensor.unsubscribe id).1 = false := by
  obtain ⟨listener, hmem⟩ := unsubscribe_eq_true_iff.mp hid
  rw [← Bool.not_eq_true, unsubscribe_eq_true_iff, not_exists]
  refine gone_acted (σ := SensorAct.run (.unsubscribe id) σ) (h.bounded _ hmem)
    (fun other hother => ?_) later
  exact of_decide_eq_true (List.mem_filter.mp hother).2 rfl

end Listeners

/-- What matches is emitted and handed to those who are subscribed, whatever becomes of the
output. -/
theorem Fresh.emitted (h : σ.Fresh) (hfew : acts.countP SensorAct.isCall + 1 < 2 ^ 63)
    {cs : Changeset} {found : Matches} :
    let ρ := σ.acted acts
    ρ.sensor.evaluate cs = some found → ∃ n delivered t after,
      ρ.sensor.notify cs ρ.space = (some delivered, t, after) ∧ n.found = found ∧
        ρ.sensor.Emitted ρ.space (σ.Subscribed acts) n delivered t after := by
  intro ρ hfound
  have horderly : ρ.Orderly := h.orderly.acted acts
  let n : Notification := ⟨ρ.sensor.name, ρ.sensor.log.length + 1, found⟩
  have hlast : n.sequence = (ρ.sensor.log ++ [n]).length := by rw [List.length_append]; rfl
  have hlength : n.sequence < 2 ^ 63 := by
    have hlog := length_log_acted σ acts
    rw [h.log, List.length_nil, Nat.zero_add] at hlog
    exact (Nat.succ_le_succ hlog).trans_lt hfew
  obtain ⟨fault, after, hemit⟩ := ρ.sensor.exists_emit n ρ.space
  have hnotify : ρ.sensor.notify cs ρ.space = (some (ρ.sensor.audience.notify n),
      { ρ.sensor with outputFault := fault, log := ρ.sensor.log ++ [n] }, after) := by
    simp only [notify, hfound]
    rw [hemit]
  refine ⟨n, _, _, after, hnotify, rfl, rfl, hlast,
    ⟨ρ.sensor.audience.members, horderly.ascending, fun e => h.mem_members_iff, rfl⟩,
    fun output ho hplain => ?_, fun output _ hwritten hplain => ?_⟩
  · obtain ⟨u, hu, hplain'⟩ := writeOut_run horderly.reachable.wellKept hplain n
    obtain rfl : u = after := by
      have hwritten : ρ.sensor.emit n ρ.space = (ρ.sensor, u) := by simp only [emit, ho, hu]
      exact congrArg Prod.snd (hwritten.symm.trans hemit)
    exact ⟨hu, hplain'⟩
  · obtain ⟨k, hk⟩ := carries_of_writeOut horderly.reachable hwritten hplain
    exact ⟨_, RecordId.read_plain hk rfl,
      (Int64.toInt_ofNat_of_lt hlength).trans (congrArg _ hlast)⟩

end Course

end Sensor

/-- In a run with a new sensor, in which anything is done in its space as well, the log numbers the
notifications from one. Numbers of listeners go up, so that none is given out again, and to
unsubscribe one succeeds just if it was given out and not unsubscribed since, and then not again. A
changeset that does not match changes nothing. One that does is handed, as one notification, to all
who have subscribed and not unsubscribed since and to no one else, in the order in which they have,
and an output whose fields hold no cells counts it. -/
theorem Sensor.Course.Fresh.listening {σ : Course τ} (h : σ.Fresh) {acts : List (SensorAct τ)}
    (hfew : acts.countP SensorAct.isCall + 1 < 2 ^ 63) :
    let ρ := σ.acted acts
    ρ.sensor.log.map (·.sequence) = List.range' 1 ρ.sensor.log.length ∧
    (∀ before listener after, acts = before ++ .subscribe listener :: after → ∀ other,
      ((σ.acted before).sensor.subscribe listener).1 < (ρ.sensor.subscribe other).1) ∧
    (∀ id, ((ρ.sensor.unsubscribe id).1 = true ↔ ∃ listener, σ.Subscribed acts id listener) ∧
      ((ρ.sensor.unsubscribe id).1 = true → ∀ later,
        ((σ.acted (acts ++ .unsubscribe id :: later)).sensor.unsubscribe id).1 = false)) ∧
    (∀ cs, ρ.sensor.evaluate cs = none →
      ρ.sensor.notify cs ρ.space = (none, ρ.sensor, ρ.space)) ∧
    ∀ cs found, ρ.sensor.evaluate cs = some found → ∃ n delivered t after,
      ρ.sensor.notify cs ρ.space = (some delivered, t, after) ∧ n.found = found ∧
        ρ.sensor.Emitted ρ.space (σ.Subscribed acts) n delivered t after := by
  intro ρ
  have horderly : ρ.Orderly := h.orderly.acted acts
  refine ⟨horderly.numbered, ?_, fun id => ⟨?_, fun hid later => ?_⟩, fun cs hcs => ?_,
    fun cs found hfound => h.emitted hfew hfound⟩
  · rintro before listener after rfl other
    exact next_lt_next σ before after listener
  · rw [unsubscribe_eq_true_iff]
    exact exists_congr fun listener => h.mem_members_iff
  · rw [acted_append]
    exact horderly.unsubscribe_once hid later
  · simp only [notify, hcs]

/-- A sensor whose output refers to another record for its count, and that record is gone. -/
def watched : Course Nat where
  sensor := { name := "watch", patterns := [.always true], output := some ⟨1⟩ }
  space := Space.after [.newRecord none 4, .newRecord none 4,
    .record ⟨1⟩ (.add (.name "count") (.cell (.reference ⟨2⟩ (.name "x")))), .retain (· ≠ ⟨2⟩)]

/-- The second number is unsubscribed before it is given out. The first notification cannot be
written out, but then the output is mended. -/
def mended : List (SensorAct Nat) :=
  [.subscribe 10, .unsubscribe 2, .subscribe 20, .notify ((∅ : Changeset).put "a" ∅),
    .unsubscribe 1, .operation (.record ⟨1⟩ (.clear (.label (.name "count"))))]

theorem listening_mended :
    let ρ := watched.acted mended
    let cs : Changeset := (∅ : Changeset).put "a" ∅
    ρ.sensor.outputFault.isSome = true ∧ ρ.sensor.log.map (·.sequence) = [1] ∧
      (∃ listener, watched.Subscribed mended 2 listener) ∧
      (¬ ∃ listener, watched.Subscribed mended 1 listener) ∧
      ∃ n t after, ρ.sensor.notify cs ρ.space = (some [(20, n)], t, after) ∧ n.sequence = 2 ∧
        ∃ count : Int64, RecordId.read ⟨1⟩ (.label (.name "count")) after =
          .ok (.int count) after ∧ count.toInt = 2 := by
  intro ρ cs
  have hfresh : watched.Fresh := ⟨rfl, rfl, Reachable.after _⟩
  have hfew : mended.countP SensorAct.isCall + 1 < 2 ^ 63 := by decide
  obtain ⟨hlog, -, hsubscribed, -, hemits⟩ := hfresh.listening hfew
  have hone : ρ.sensor.log.length = 1 := by decide +kernel
  have hplain : ∀ l, ρ.space.PlainAt ⟨1⟩ l := by
    have hcells : (ρ.space.record ⟨1⟩).fields.fields.Each fun f => f.value.isCell = false := by
      unfold Table.Each
      decide +kernel
    exact fun l _ k w hk => hcells.of_get? hk
  obtain ⟨found, hfound⟩ : ∃ found, ρ.sensor.evaluate cs = some found :=
    Option.isSome_iff_exists.mp (by decide +kernel)
  obtain ⟨n, delivered, t, after, hnotify, -, hemitted⟩ := hemits _ _ hfound
  obtain ⟨hwritten, hafter⟩ := hemitted.written ⟨1⟩ rfl fun l _ => hplain l
  obtain ⟨count, hread, hcount⟩ := hemitted.counted ⟨1⟩ rfl hwritten hafter
  have htwo : t.log.length = 2 := by
    rw [hemitted.logged, List.length_append, hone]
    rfl
  obtain ⟨members, -, -, rfl⟩ := hemitted.heard
  have hlisteners : members.map (·.2) = [20] := by
    have hheard : (ρ.sensor.notify cs ρ.space).1.map (·.map (·.1)) = some [20] := by
      decide +kernel
    rw [hnotify, Option.map_some, List.map_map] at hheard
    exact Option.some.inj hheard
  have hdelivered : members.map (fun e => (e.2, n)) = (members.map (·.2)).map (·, n) := by
    rw [List.map_map]
    rfl
  rw [hdelivered, hlisteners] at hnotify
  refine ⟨by decide +kernel, by rw [hlog, hone]; rfl, (hsubscribed 2).1.mp (by decide +kernel),
    (hsubscribed 1).1.not.mp (by decide +kernel), n, t, after, hnotify,
    hemitted.numbered.trans htwo, count, hread, ?_⟩
  rw [hcount, htwo]
  rfl

end LiveRecords
