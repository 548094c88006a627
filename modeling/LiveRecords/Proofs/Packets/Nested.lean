import LiveRecords.Proofs.Packets.Explained
import LiveRecords.Proofs.Packets.Entries

/-! # Entries of nested fields

A field nested in a container is entered under its own key, and its entry is taken back only when
that key is noted again. So a record may be found by a field that it no longer leads to.
-/

namespace LiveRecords

variable {τ : Type}

open Packet (Course)

namespace PacketAct

/-- Records hold no cells, containers are changed through records alone, and only the packet takes
changes. What is written to has been made. -/
def Confined (σ : Course τ) : PacketAct τ → Prop
  | operation op => op.Confined σ.space
  | write _ v => v.isCell = false
  | commit => ∀ e ∈ σ.packet.sensors, ∀ id, e.2.output = some id → id.number < σ.space.nextRecord
  | _ => True

theorem noted_commit {σ : Course τ} (hs : σ.packet.sensors = []) (id : RecordId) :
    (commit : PacketAct τ).noted σ id = ∅ := by
  rw [noted]
  dsimp only
  rw [hs]
  split
  · rfl
  · exact Space.changesOf_unnoted _ id

/-- A field under a key of which nothing is noted is still there, and what one record alone notes of
a key is. -/
structure Settles (act : PacketAct τ) (σ : Course τ) : Prop where
  tidy : (act.run σ).space.Tidy
  nextRecord : σ.space.nextRecord ≤ (act.run σ).space.nextRecord
  left : ∀ {id k f}, id.number < σ.space.nextRecord → (act.Takes σ id → act = .commit) →
    (∀ j, (act.noted σ j).get? k = none) → σ.space.Houses id k f → (act.run σ).space.Houses id k f
  noted : ∀ {id k f}, (act.noted σ id).get? k = some f → f.value ≠ .empty →
    (∀ j ≠ id, (act.noted σ j).get? k = none) → (act.run σ).space.Houses id k f

end PacketAct

namespace Space

variable {s t : Space}

theorem Alike.field? (h : s.Alike t) (g : Holder) (k : Key) :
    (t.contents g).field? k = (s.contents g).field? k :=
  congrArg (Container.field? · k) (h.agree.contents g)

theorem Tidy.unnoted (h : s.Tidy) : s.unnoted.Tidy := by
  have halike := s.alike_unnoted
  have hwell : s.unnoted.WellKept :=
    h.layered.wellKept.congr halike.agree.contents (Nat.le_refl _)
      (ascending_unnoted h.layered.wellKept.ascending)
  exact h.congr (h.layered.congr hwell halike.agree.contents) halike.field? (Nat.le_refl _)

end Space

namespace Packet.Course

variable {σ : Course τ} {act : PacketAct τ}

section Settling

open PacketAct (Settles)

theorem settles_of_explained {s t : Space} (hs : s.Explained t) (hstart : σ.space.Alike s)
    (hend : (act.run σ).space.Alike t) (hn : ∀ id, act.noted σ id = t.changesOf id)
    (hl : (act.run σ).space.Layered) : act.Settles σ where
  tidy := hs.tidy.congr hl (fun g k => (hend.field? g k).symm) (Nat.le_of_eq hend.nextContainer)
  nextRecord := by
    rw [← hstart.nextRecord, ← hend.nextRecord]
    exact hs.nextRecord
  left hid _ hk hf := by
    refine Space.houses_congr (fun g k => (hend.field? g k).symm) (hs.left ?_ ?_ ?_)
    · rw [hstart.nextRecord]
      exact hid
    · exact fun j => hn j ▸ hk j
    · exact Space.houses_congr hstart.field? hf
  noted {id k f} hf hv hk := by
    rw [hn] at hf
    exact Space.houses_congr (fun g k => (hend.field? g k).symm)
      (hs.noted hf hv fun j hj => hn j ▸ hk j hj)

theorem settles_of_quiet (hn : ∀ id, act.noted σ id = ∅) (ht : (act.run σ).space.Tidy)
    (hr : σ.space.nextRecord ≤ (act.run σ).space.nextRecord)
    (hh : ∀ {id k f}, (act.Takes σ id → act = .commit) → σ.space.Houses id k f →
      (act.run σ).space.Houses id k f) : act.Settles σ where
  tidy := ht
  nextRecord := hr
  left _ hk _ hf := hh hk hf
  noted {id k f} hf := by
    rw [hn] at hf
    cases hf

theorem settles_of_runs {m : Edit Unit} (hm : act.Runs σ m)
    (ha : σ.space.unnoted.Explained (final m σ.space.unnoted)) (hl : (act.run σ).space.Layered) :
    act.Settles σ := by
  have hrun : (act.run σ).space = final m σ.space := hm.run σ.space
  obtain ⟨-, hend, -, -⟩ := hm.oblivious.ends σ.space.alike_unnoted
  exact settles_of_explained ha σ.space.alike_unnoted (hrun ▸ hend) hm.noted hl

theorem consult_explained {s : Space} (hs : s.Tidy) (hn : ∀ id, s.changesOf id = ∅) (cs : Changeset)
    {sensors : List (Nat × Sensor τ)}
    (hout : ∀ e ∈ sensors, ∀ id, e.2.output = some id → id.number < s.nextRecord) :
    s.Explained (consult cs s sensors).2.2 := by
  have hmoves := consult_moves (R := Keeps (s.Follows s.nextRecord s.nextContainer))
    (fun e he id ho p v hv => id.write_follows (hout e he id ho) p hv.1) cs s
  exact (hmoves (hs.explained hn).follows).toExplained

namespace Orderly

variable (h : σ.Orderly) (ht : σ.space.Tidy)
include h ht

theorem settles_retain {kept : RecordId → Bool}
    (ha : (PacketAct.operation (.retain kept)).Allowed σ) :
    (PacketAct.operation (.retain kept)).Settles σ := by
  have hasc := h.reachable.wellKept.ascending
  have hrecord := Space.record_retain_if hasc kept
  refine settles_of_quiet (h.noted_retain kept)
    ⟨(h.step ha).reachable.layered, fun id k f hf => ?_, ht.unmade⟩ (Nat.le_refl _)
    fun {id k f} hk => Exists.imp fun d hd => ⟨hd.1, ?_⟩
  · change ((σ.space.retain kept).record id).fields.field? k = some f at hf
    rw [hrecord] at hf
    split at hf
    · exact ht.cellless id k f hf
    · cases hf
  · cases d with
    | shared i => exact hd.2
    | record j =>
      obtain rfl : j = id := hd.1
      have hkept : kept j = true := by
        by_contra hj
        rw [Bool.not_eq_true] at hj
        cases hk hj
      change ((σ.space.retain kept).record j).fields.field? k = some f
      rw [hrecord, if_pos hkept]
      exact hd.2

theorem settles_remove (name : String) : (PacketAct.remove name).Settles σ := by
  have hrun : ((PacketAct.remove name).run σ).space =
      (σ.packet.records.get? name).elim σ.space fun j =>
        σ.space.setRecord j { σ.space.record j with changes := ∅ } :=
    PacketAct.remove_space σ name σ.space
  have hc : ∀ g k, (((PacketAct.remove name).run σ).space.contents g).field? k =
      (σ.space.contents g).field? k := by
    intro g k
    rw [hrun]
    cases σ.packet.records.get? name with
    | none => rfl
    | some j =>
      exact congrArg (Container.field? · k) (Space.contents_setChanges j ∅ g)
  have hnext : ((PacketAct.remove name).run σ).space.nextRecord = σ.space.nextRecord ∧
      ((PacketAct.remove name).run σ).space.nextContainer = σ.space.nextContainer := by
    rw [hrun]
    cases σ.packet.records.get? name <;> exact ⟨rfl, rfl⟩
  have ha : (PacketAct.remove name).Allowed σ := trivial
  have hl : ((PacketAct.remove name).run σ).space.Layered := (h.step ha).reachable.layered
  exact settles_of_quiet (PacketAct.noted_remove σ name)
    (ht.congr hl hc (Nat.le_of_eq hnext.2.symm)) (Nat.le_of_eq hnext.1.symm)
    fun _ => Space.houses_congr hc

theorem settles_commit (hc : (PacketAct.commit : PacketAct τ).Confined σ) :
    (PacketAct.commit : PacketAct τ).Settles σ := by
  have hl : (PacketAct.commit.run σ).space.Layered := h.commit.reachable.layered
  have halike : σ.space.Alike (drain σ.space σ.packet.records.entries ∅).2 := drain_alike
  by_cases he : (drain σ.space σ.packet.records.entries ∅).1.isEmpty = true
  · have hrun : (PacketAct.commit.run σ).space = (drain σ.space σ.packet.records.entries ∅).2 :=
      (σ.packet.commit_space σ.space).trans (if_pos he)
    refine settles_of_quiet (fun id => if_pos he) ?_ ?_ fun _ => ?_
    · exact ht.congr hl (hrun ▸ halike.field?) (Nat.le_of_eq (hrun ▸ halike.nextContainer.symm))
    · exact Nat.le_of_eq (hrun ▸ halike.nextRecord.symm)
    · exact Space.houses_congr (hrun ▸ halike.field?)
  · have hrun : (PacketAct.commit.run σ).space =
        (consult (drain σ.space σ.packet.records.entries ∅).1
          (drain σ.space σ.packet.records.entries ∅).2 σ.packet.sensors).2.2 :=
      (σ.packet.commit_space σ.space).trans (if_neg he)
    have hdrained : (drain σ.space σ.packet.records.entries ∅).2.Layered := by
      have hreachable := Packet.drain_moves RecordId.takeChanges_reachable σ.space
        σ.packet.records.entries ∅ h.reachable
      exact hreachable.layered
    have htidy := ht.congr hdrained halike.field? (Nat.le_of_eq halike.nextContainer.symm)
    obtain ⟨-, hend, -, -⟩ := (consulting_oblivious (drain σ.space σ.packet.records.entries ∅).1
      σ.packet.sensors).ends (Space.alike_unnoted (drain σ.space σ.packet.records.entries ∅).2)
    refine settles_of_explained (consult_explained htidy.unnoted (Space.changesOf_unnoted _) _
      fun e hmem id ho => ?_) (halike.trans (Space.alike_unnoted _)) (hrun ▸ hend)
      (fun id => if_neg he) hl
    exact Nat.lt_of_lt_of_eq (hc e hmem id ho) halike.nextRecord.symm

theorem settles_write {n : FieldName} {v : Value} (hv : v.isCell = false) :
    (PacketAct.write n v).Settles σ := by
  have ha : (PacketAct.write n v).Allowed σ := trivial
  refine settles_of_runs (PacketAct.runs_write σ n v) ?_ (h.step ha).reachable.layered
  have hu := ht.unnoted.explained (Space.changesOf_unnoted σ.space)
  rw [Packet.write, final_bind, Packet.record]
  cases hn : σ.packet.records.get? n.record.text with
  | none => exact hu
  | some id => exact ((id.write_follows (h.made hn) _ hv).discard _ hu.follows).toExplained

/-- What a record leads to and notes nothing of stays, and what it alone notes is there. -/
theorem settles (ha : act.Allowed σ) (hc : act.Confined σ) : act.Settles σ := by
  have hl : (act.run σ).space.Layered := (h.step ha).reachable.layered
  have hu := ht.unnoted.explained (Space.changesOf_unnoted σ.space)
  cases act with
  | operation op =>
    rcases op.notes_or with ho | ⟨kept, rfl⟩ | ⟨j, rfl⟩
    · exact settles_of_runs (PacketAct.runs_operation σ ho) (Operation.explained hc ho hu) hl
    · exact h.settles_retain ht ha
    · exact hc.2.elim
  | create name =>
    refine settles_of_runs (PacketAct.runs_create σ name) ?_ hl
    rw [final_discard]
    exact (hu.follows.withNew (some name) σ.packet.maxDepth).toExplained
  | add j => exact settles_of_runs (PacketAct.runs_add σ j) hu hl
  | remove name => exact h.settles_remove ht name
  | write n v => exact h.settles_write ht hc
  | addSensor s => exact settles_of_runs (PacketAct.runs_addSensor σ s) hu hl
  | setSensor i s => exact settles_of_runs (PacketAct.runs_setSensor σ i s) hu hl
  | removeSensor i => exact settles_of_runs (PacketAct.runs_removeSensor σ i) hu hl
  | commit => exact h.settles_commit ht hc

end Orderly

end Settling

/-- Every act of the run satisfies `P` where it comes. -/
def Along (P : Course τ → PacketAct τ → Prop) (σ : Course τ) : List (PacketAct τ) → Prop
  | [] => True
  | act :: acts => P σ act ∧ (act.run σ).Along P acts

def Confines : Course τ → List (PacketAct τ) → Prop := Along fun σ act => act.Confined σ

/-- Nothing is noted of one of the record's keys, and only commits take its changes. -/
def Rests (id : RecordId) (k : Key) : Course τ → List (PacketAct τ) → Prop :=
  Along fun σ act => (act.Takes σ id → act = .commit) ∧ (act.noted σ id).get? k = none

/-- No other record notes anything of the key. -/
def Alone (id : RecordId) (k : Key) : Course τ → List (PacketAct τ) → Prop :=
  Along fun σ act => ∀ j ≠ id, (act.noted σ j).get? k = none

/-- One of the acts noted this of a key, and it has rested since. -/
def Stands (σ : Course τ) (id : RecordId) (k : Key) (f : Field) (acts : List (PacketAct τ)) :
    Prop :=
  ∃ before act after, acts = before ++ act :: after ∧
    (act.noted (σ.acted before) id).get? k = some f ∧
    Rests id k (act.run (σ.acted before)) after

/-- What one of the acts noted of a key has rested since, and no other record has noted it. -/
def StandsAlone (σ : Course τ) (id : RecordId) (k : Key) (f : Field)
    (acts : List (PacketAct τ)) : Prop :=
  ∃ before act after, acts = before ++ act :: after ∧
    (act.noted (σ.acted before) id).get? k = some f ∧
    Rests id k (act.run (σ.acted before)) after ∧ Alone id k (σ.acted before) (act :: after)

/-- Under what the next commit leaves a field of the record entered. -/
def Due (σ : Course τ) (id : RecordId) (k : Key) (e : Label × Value) : Prop :=
  match (σ.space.changesOf id).get? k with
  | some f => f.entry? = some e
  | none => ∃ name, σ.packet.records.get? name = some id ∧ σ.entered? name k = some e

section Runs

variable {acts : List (PacketAct τ)} {id : RecordId} {k : Key} {f : Field} {e : Label × Value}
  {name : String}

theorem along_append {P : Course τ → PacketAct τ → Prop} {before after : List (PacketAct τ)} :
    σ.Along P (before ++ after) ↔ σ.Along P before ∧ (σ.acted before).Along P after := by
  induction before generalizing σ with
  | nil => exact ⟨fun h => ⟨trivial, h⟩, fun h => h.2⟩
  | cons act before ih =>
    change P σ act ∧ (act.run σ).Along P (before ++ after) ↔
      (P σ act ∧ (act.run σ).Along P before) ∧ ((act.run σ).acted before).Along P after
    rw [ih, and_assoc]

theorem not_stands_nil : ¬ σ.Stands id k f [] :=
  not_split_nil (fun σ act => (act.noted σ id).get? k = some f) (Rests id k)

theorem stands_cons :
    σ.Stands id k f (act :: acts) ↔
      ((act.noted σ id).get? k = some f ∧ Rests id k (act.run σ) acts) ∨
        (act.run σ).Stands id k f acts :=
  split_cons (fun σ act => (act.noted σ id).get? k = some f) (Rests id k)

namespace Orderly

variable (h : σ.Orderly)
include h

theorem tidy_acted (ht : σ.space.Tidy) (ha : σ.Permits acts) (hc : σ.Confines acts) :
    (σ.acted acts).space.Tidy := by
  induction acts generalizing σ with
  | nil => exact ht
  | cons act acts ih => exact ih (h.step ha.1) (h.settles ht ha.1 hc.1).tidy ha.2 hc.2

theorem houses_acted (ht : σ.space.Tidy) (ha : σ.Permits acts) (hc : σ.Confines acts)
    (hid : id.number < σ.space.nextRecord) (hr : Rests id k σ acts) (ho : Alone id k σ acts)
    (hf : σ.space.Houses id k f) : (σ.acted acts).space.Houses id k f := by
  induction acts generalizing σ with
  | nil => exact hf
  | cons act acts ih =>
    have hstep := h.settles ht ha.1 hc.1
    have hnone : ∀ j, (act.noted σ j).get? k = none := by
      intro j
      by_cases hj : j = id
      · exact hj ▸ hr.1.2
      · exact ho.1 j hj
    exact ih (h.step ha.1) hstep.tidy ha.2 hc.2 (Nat.lt_of_lt_of_le hid hstep.nextRecord) hr.2
      ho.2 (hstep.left hid hr.1.1 hnone hf)

/-- What one record alone has noted of a key, and has not noted again, is there. -/
theorem houses_of_stands (ht : σ.space.Tidy) (ha : σ.Permits acts) (hc : σ.Confines acts)
    (hs : σ.StandsAlone id k f acts) (hv : f.value ≠ .empty) :
    (σ.acted acts).space.Houses id k f := by
  obtain ⟨before, act, after, rfl, hn, hr, ho⟩ := hs
  obtain ⟨habefore, haact, haafter⟩ := permits_append.mp ha
  obtain ⟨hcbefore, hcact, hcafter⟩ := along_append.mp hc
  have hbefore := h.acted habefore
  have hstep := hbefore.settles (h.tidy_acted ht habefore hcbefore) haact hcact
  have hid : id.number < (act.run (σ.acted before)).space.nextRecord :=
    Space.made_of_changesOf (((hbefore.steps haact id).get?_eq_some_iff k f).mpr (.inl hn))
  rw [acted_append]
  exact (hbefore.step haact).houses_acted hstep.tidy haafter hcafter hid hr ho.2
    (hstep.noted hn hv ho.1)

end Orderly

section Due

theorem Listed.entered_run_iff (hl : σ.Listed) (hc : act ≠ .commit) :
    (∃ name, (act.run σ).packet.records.get? name = some id ∧
        (act.run σ).entered? name k = some e) ↔
      ∃ name, σ.packet.records.get? name = some id ∧ act ≠ .remove name ∧
        σ.entered? name k = some e := by
  refine exists_congr fun name => ?_
  by_cases hr : act = .remove name
  · subst hr
    rw [hl.entered?_run_remove]
    simp
  · rw [entered?_run hr hc]
    constructor
    · rintro ⟨hn, he⟩
      obtain ⟨j, hj⟩ := hl name k e he
      obtain rfl : j = id := Option.some.inj ((registered_run hj hr).symm.trans hn)
      exact ⟨hj, hr, he⟩
    · rintro ⟨hn, -, he⟩
      exact ⟨registered_run hn hr, he⟩

theorem due_of_some (hf : (σ.space.changesOf id).get? k = some f) :
    σ.Due id k e ↔ f.entry? = some e := by
  rw [Due, hf]

theorem due_of_none (hf : (σ.space.changesOf id).get? k = none) :
    σ.Due id k e ↔ ∃ name, σ.packet.records.get? name = some id ∧ σ.entered? name k = some e := by
  rw [Due, hf]

namespace Orderly

variable (h : σ.Orderly)
include h

theorem entered_commit_iff (hn : σ.packet.records.get? name = some id) :
    (PacketAct.commit.run σ).entered? name k = some e ↔ σ.Due id k e := by
  rw [h.entered?_commit, hn, Option.bind_some]
  cases hf : (σ.space.changesOf id).get? k with
  | some f => exact (due_of_some hf).symm
  | none =>
    rw [due_of_none hf]
    constructor
    · exact fun he => ⟨name, hn, he⟩
    · rintro ⟨m, hm, he⟩
      obtain rfl := h.name_unique hn hm
      exact he

/-- What is noted is due, and stays so until something else is noted, or the changes are taken by
other than a commit. -/
theorem due_run_iff (hl : σ.Listed) (ha : act.Allowed σ) (hc : act.Confined σ) :
    (act.run σ).Due id k e ↔
      (∃ f, (act.noted σ id).get? k = some f ∧ f.entry? = some e) ∨
        ((act.Takes σ id → act = .commit) ∧ (act.noted σ id).get? k = none) ∧ σ.Due id k e := by
  have hstep := h.steps ha id
  cases hn : (act.noted σ id).get? k with
  | some f =>
    have hf := (hstep.get?_eq_some_iff k f).mpr (.inl hn)
    rw [due_of_some hf]
    simp
  | none =>
    simp only [reduceCtorEq, false_and, exists_false, false_or, and_true]
    by_cases ht : act.Takes σ id
    · have hnone : ((act.run σ).space.changesOf id).get? k = none := by
        rw [hstep.taken ht, hn]
      rw [due_of_none hnone]
      by_cases hcommit : act = .commit
      · subst hcommit
        obtain ⟨name, hname⟩ := ht
        have hrecords : (PacketAct.commit.run σ).packet.records = σ.packet.records :=
          σ.packet.commit_records σ.space
        rw [hrecords]
        constructor
        · rintro ⟨m, hm, he⟩
          exact ⟨fun _ => rfl, (h.entered_commit_iff hm).mp he⟩
        · rintro ⟨-, hdue⟩
          exact ⟨name, hname, (h.entered_commit_iff hname).mpr hdue⟩
      · rw [hl.entered_run_iff hcommit]
        constructor
        · rintro ⟨name, hname, hr, -⟩
          have hop : act ≠ .operation (.record id .takeChanges) := by
            rintro rfl
            exact hc.2
          exact absurd ht (h.not_takes ha hname hcommit hr hop)
        · exact fun hrest => absurd (hrest.1 ht) hcommit
    · have hleft := hstep.left ht k
      rw [hn, Option.none_or] at hleft
      rw [and_iff_right fun hid => absurd hid ht]
      cases hf : (σ.space.changesOf id).get? k with
      | some f => rw [due_of_some (hleft.trans hf), due_of_some hf]
      | none =>
        rw [due_of_none (hleft.trans hf), due_of_none hf]
        by_cases hcommit : act = .commit
        · subst hcommit
          have hrecords : (PacketAct.commit.run σ).packet.records = σ.packet.records :=
            σ.packet.commit_records σ.space
          rw [hrecords]
          constructor
          · rintro ⟨name, hname, -⟩
            exact absurd ⟨name, hname⟩ ht
          · rintro ⟨name, hname, -⟩
            exact absurd ⟨name, hname⟩ ht
        · rw [hl.entered_run_iff hcommit]
          refine exists_congr fun name => and_congr_right fun hname => and_iff_right ?_
          rintro rfl
          exact ht hname

theorem due_acted_iff (hl : σ.Listed) (ha : σ.Permits acts) (hc : σ.Confines acts) :
    (σ.acted acts).Due id k e ↔
      (∃ f, σ.Stands id k f acts ∧ f.entry? = some e) ∨ Rests id k σ acts ∧ σ.Due id k e := by
  induction acts generalizing σ with
  | nil =>
    change σ.Due id k e ↔ _ ∨ True ∧ _
    simp only [not_stands_nil, false_and, exists_false, false_or, true_and]
  | cons act acts ih =>
    change ((act.run σ).acted acts).Due id k e ↔ _ ∨
      (((act.Takes σ id → act = .commit) ∧ (act.noted σ id).get? k = none) ∧
        Rests id k (act.run σ) acts) ∧ _
    rw [ih (h.step ha.1) (hl.step h act) ha.2 hc.2, h.due_run_iff hl ha.1 hc.1]
    simp only [stands_cons]
    constructor
    · rintro (⟨f, hs, he⟩ | ⟨hr, ⟨f, hn, he⟩ | ⟨hq, hd⟩⟩)
      · exact .inl ⟨f, .inr hs, he⟩
      · exact .inl ⟨f, .inl ⟨hn, hr⟩, he⟩
      · exact .inr ⟨⟨hq, hr⟩, hd⟩
    · rintro (⟨f, ⟨hn, hr⟩ | hs, he⟩ | ⟨⟨hq, hr⟩, hd⟩)
      · exact .inr ⟨hr, .inl ⟨f, hn, he⟩⟩
      · exact .inl ⟨f, hs, he⟩
      · exact .inr ⟨hr, .inr ⟨hq, hd⟩⟩

end Orderly

theorem not_due_start (maxDepth : Nat) : ¬ (start maxDepth : Course τ).Due id k e := by
  have hempty : (start maxDepth : Course τ).space.changesOf id = ∅ := ite_self _
  rw [due_of_none (by rw [hempty]; rfl)]
  rintro ⟨name, hname, -⟩
  cases hname

end Due

end Runs

end Packet.Course

/-- In a run of an empty packet let records hold no cells, let containers be changed through records
alone, and let only the packet take changes. After a commit the records found under a label and a
value are just those registered of which, under whichever key, such a field was noted last, be it
before this commit or an earlier one. Unless another record has noted this key since, the field is
still there: the record still leads to it, or it was left in a container that no longer lies in the
record. -/
theorem Packet.lookup_tells_noted {maxDepth : Nat} {acts : List (PacketAct τ)}
    (h : (Course.start maxDepth).Permits acts) (hc : (Course.start maxDepth).Confines acts) :
    let σ := (Course.start maxDepth).acted acts
    (∀ name l v, name ∈ (PacketAct.commit.run σ).packet.lookup l v ↔
      l ≠ .empty ∧ ∃ id k w form, σ.packet.records.get? name = some id ∧
        (Course.start maxDepth).Stands id k ⟨l, w⟩ acts ∧
        w.indexForm = some form ∧ v.indexForm = some form) ∧
    ∀ id k f, (Course.start maxDepth).StandsAlone id k f acts → f.value ≠ .empty →
      σ.space.field? (σ.space.record id).fields k = some f ∨
        σ.space.field? (σ.space.record id).fields k = none ∧
          ∃ i, (σ.space.container i).field? k = some f := by
  intro σ
  have hstart : (Course.start maxDepth : Course τ).Orderly := Course.orderly_start maxDepth
  have hσ : σ.Orderly := hstart.acted h
  have hlisted := Course.listed_start (τ := τ) maxDepth
  have hdue : ∀ {id k e}, σ.Due id k e ↔
      ∃ f, (Course.start maxDepth).Stands id k f acts ∧ f.entry? = some e := by
    intro id k e
    rw [hstart.due_acted_iff hlisted h hc, or_iff_left]
    exact fun hd => Course.not_due_start maxDepth hd.2
  refine ⟨fun name l v => ?_, fun id k f hs hv => ?_⟩
  · rw [hσ.mem_lookup_commit]
    constructor
    · rintro ⟨k, form, hv, hk⟩
      obtain ⟨id, hn⟩ := ((hlisted.acted hstart h).step hσ .commit) name k _ hk
      have hrecords : (PacketAct.commit.run σ).packet.records = σ.packet.records :=
        σ.packet.commit_records σ.space
      rw [hrecords] at hn
      obtain ⟨⟨m, w⟩, hs, he⟩ := hdue.mp ((hσ.entered_commit_iff hn).mp hk)
      obtain ⟨hl, rfl, hw⟩ := Field.entry?_eq_some.mp he
      exact ⟨hl, id, k, w, form, hn, hs, hw, hv⟩
    · rintro ⟨hl, id, k, w, form, hn, hs, hw, hv⟩
      refine ⟨k, form, hv, (hσ.entered_commit_iff hn).mpr (hdue.mpr ⟨_, hs, ?_⟩)⟩
      exact Field.entry?_eq_some.mpr ⟨hl, rfl, hw⟩
  · exact hσ.reachable.layered.held_or_left
      (hstart.houses_of_stands (Space.tidy_empty) h hc hs hv)

/-- A field of a container is written through the record that has it, and the container is dropped
after a commit. -/
def dropped : List (PacketAct Unit) :=
  [.create "o", .operation (.ofFields [(.name "x", .int 0)]),
    .operation (.record ⟨1⟩ (.add (.name "box") (.tree ⟨1⟩))),
    .operation (.record ⟨1⟩ (.write (.key ⟨1⟩) (.int 1))), .commit,
    .operation (.record ⟨1⟩ (.write (.label (.name "box")) (.int 2)))]

theorem permits_dropped : (Course.start 4).Permits dropped :=
  ⟨trivial, trivial, trivial, trivial, trivial, trivial, trivial⟩

theorem confines_dropped : (Course.start 4).Confines dropped :=
  ⟨trivial, trivial, ⟨by decide +kernel, rfl⟩, ⟨by decide +kernel, rfl⟩,
    (fun _ he => by cases he), ⟨by decide +kernel, rfl⟩, trivial⟩

theorem alone_dropped :
    Course.Alone ⟨1⟩ ⟨1⟩ ((Course.start 4).acted (dropped.take 3)) (dropped.drop 3) := by
  have hothers : ∀ s : Space, s.nextRecord = 2 → (s.changesOf ⟨0⟩).get? ⟨1⟩ = none →
      ∀ j : RecordId, j ≠ ⟨1⟩ → (s.changesOf j).get? ⟨1⟩ = none := by
    rintro s hs h0 ⟨_ | _ | n⟩ hj
    · exact h0
    · exact absurd rfl hj
    · rw [Space.changesOf, if_neg]
      · rfl
      · change ¬ n + 2 < s.nextRecord
        omega
  refine ⟨hothers _ ?_ ?_, fun j _ => ?_, hothers _ ?_ ?_, trivial⟩
  · decide +kernel
  · decide +kernel
  · rw [PacketAct.noted_commit rfl]
    rfl
  · decide +kernel
  · decide +kernel

theorem lookup_tells_noted_dropped :
    let σ := (Course.start 4).acted dropped
    "o" ∈ (PacketAct.commit.run σ).packet.lookup (.name "x") (.int 1) ∧
      σ.space.field? (σ.space.record ⟨1⟩).fields ⟨1⟩ = none ∧
      ∃ i, (σ.space.container i).field? ⟨1⟩ = some ⟨.name "x", .int 1⟩ := by
  intro σ
  obtain ⟨hfound, hheld⟩ := Packet.lookup_tells_noted permits_dropped confines_dropped
  have hnoted : ((PacketAct.operation (.record ⟨1⟩ (.write (.key ⟨1⟩) (.int 1)))).noted
      ((Course.start 4).acted (dropped.take 3)) ⟨1⟩).get? ⟨1⟩ = some ⟨.name "x", .int 1⟩ := by
    decide +kernel
  have hrests : Course.Rests ⟨1⟩ ⟨1⟩ ((Course.start 4).acted (dropped.take 4)) (dropped.drop 4) :=
    ⟨⟨fun _ => rfl, by decide +kernel⟩, ⟨fun ht => ht.elim, by decide +kernel⟩, trivial⟩
  have hnone : σ.space.field? (σ.space.record ⟨1⟩).fields ⟨1⟩ = none := by decide +kernel
  refine ⟨(hfound _ _ _).mpr ⟨by decide, ⟨1⟩, ⟨1⟩, .int 1, .int 1, by decide +kernel,
    ⟨dropped.take 3, _, dropped.drop 4, rfl, hnoted, hrests⟩, rfl, rfl⟩, hnone, ?_⟩
  have hleft := hheld ⟨1⟩ ⟨1⟩ _ ⟨dropped.take 3, _, dropped.drop 4, rfl, hnoted, hrests,
    alone_dropped⟩ (by decide)
  rw [hnone] at hleft
  exact (hleft.resolve_left (Option.some_ne_none _).symm).2

/-- Not all that is found is held by a record that is registered. -/
theorem not_lookup_held :
    ¬ ∀ acts : List (PacketAct Unit), (Course.start 4).Permits acts →
      (Course.start 4).Confines acts →
      let σ := (Course.start 4).acted acts
      ∀ name l v, name ∈ (PacketAct.commit.run σ).packet.lookup l v →
        ∃ id k w, σ.packet.records.get? name = some id ∧
          σ.space.field? (σ.space.record id).fields k = some ⟨l, w⟩ ∧
          w.indexForm = v.indexForm := by
  intro hall
  obtain ⟨id, k, w, hn, hk, -⟩ := hall dropped permits_dropped confines_dropped "o" (.name "x")
    (.int 1) (by decide +kernel)
  have hid : ((Course.start 4).acted dropped).packet.records.get? "o" = some ⟨1⟩ := by
    decide +kernel
  obtain rfl := Option.some.inj (hid.symm.trans hn)
  have hσ := (Course.orderly_start 4).acted permits_dropped
  have honly : ∀ j f, (((Course.start 4).acted dropped).space.contents (.record ⟨1⟩)).field? j =
      some f → f = ⟨.name "box", .int 2⟩ := by
    intro j f hj
    have horder : (((Course.start 4).acted dropped).space.contents (.record ⟨1⟩)).order =
        [⟨2⟩] := by
      decide +kernel
    have hbox : (((Course.start 4).acted dropped).space.contents (.record ⟨1⟩)).field? ⟨2⟩ =
        some ⟨.name "box", .int 2⟩ := by
      decide +kernel
    have hmem := (hσ.reachable.wellKept.contents _).mem_of_field? hj
    rw [horder, List.mem_singleton] at hmem
    subst hmem
    exact Option.some.inj (hj.symm.trans hbox)
  obtain ⟨d, hd, hf⟩ := (hσ.reachable.layered.field?_iff (g := .record ⟨1⟩)).mp hk
  cases hd with
  | here =>
    have hlabel : Label.name "x" = .name "box" := congrArg Field.label (honly k _ hf)
    exact absurd hlabel (by decide)
  | field hj _ => cases honly _ _ hj

end LiveRecords
