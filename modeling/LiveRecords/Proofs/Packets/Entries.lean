import LiveRecords.Proofs.Packets.Commits
import LiveRecords.Proofs.Packets.Current

/-! # Where entries come from

The index is about registered records alone, and a commit enters what it tells and nothing else.
So a record that is added is not found by what it holds, but by what has been noted of it and not
been taken before the next commit.
-/

namespace LiveRecords

variable {τ : Type}

open Packet (Course)

namespace Packet.Course

variable {σ : Course τ} {act : PacketAct τ} {acts : List (PacketAct τ)} {name : String}
  {id : RecordId} {k : Key}

/-- Under what a field of the record with this name is entered. -/
def entered? (σ : Course τ) (name : String) (k : Key) : Option (Label × Value) :=
  σ.packet.index.current.get? ⟨name, k⟩

/-- Only registered records have entries. -/
def Listed (σ : Course τ) : Prop :=
  ∀ name k e, σ.entered? name k = some e → ∃ id, σ.packet.records.get? name = some id

theorem listed_start (maxDepth : Nat) : (start maxDepth : Course τ).Listed := by
  intro name k e he
  cases he

theorem entered?_run (hr : act ≠ .remove name) (hc : act ≠ .commit) (k : Key) :
    (act.run σ).entered? name k = σ.entered? name k := by
  have other : ∀ {op : PacketOp τ}, (∀ m, op ≠ .remove m) → op ≠ .commit →
      (op.run σ).entered? name k = σ.entered? name k := by
    intro op hr hc
    rw [entered?, PacketOp.index_run hr hc, entered?]
  cases act with
  | operation op => rfl
  | create m => exact other (fun _ h => by cases h) fun h => by cases h
  | add id => exact other (fun _ h => by cases h) fun h => by cases h
  | remove m =>
    rw [PacketAct.run, PacketOp.run, σ.packet.remove_run]
    cases σ.packet.records.get? m with
    | none => rfl
    | some id =>
      have hne : name ≠ m := fun he => hr (congrArg PacketAct.remove he.symm)
      exact (σ.packet.index.forget_current ..).trans (if_neg hne)
  | write n v => rfl
  | addSensor s => rfl
  | setSensor i s => rfl
  | removeSensor i => rfl
  | commit => exact absurd rfl hc

theorem entered?_remove (hn : σ.packet.records.get? name = some id) (k : Key) :
    ((PacketAct.remove name).run σ).entered? name k = none := by
  rw [PacketAct.run, PacketOp.run, σ.packet.remove_run, hn]
  exact (σ.packet.index.forget_current ..).trans (if_pos rfl)

theorem remove_run_of_none (hn : σ.packet.records.get? name = none) :
    (PacketAct.remove name).run σ = σ := by
  rw [PacketAct.run, PacketOp.run, σ.packet.remove_run, hn]

theorem Orderly.entered?_commit (h : σ.Orderly) (name : String) (k : Key) :
    (PacketAct.commit.run σ).entered? name k =
      ((σ.packet.records.get? name).bind fun id => (σ.space.changesOf id).get? k).elim
        (σ.entered? name k) Field.entry? := by
  rw [← h.change?_commit]
  exact σ.packet.commit_current σ.space ⟨name, k⟩

theorem Listed.entered?_eq_none (hl : σ.Listed) (hn : σ.packet.records.get? name = none) (k : Key) :
    σ.entered? name k = none := by
  rw [Option.eq_none_iff_forall_ne_some]
  intro e he
  obtain ⟨id, hid⟩ := hl name k e he
  exact absurd (hn.symm.trans hid) (Option.some_ne_none id).symm

theorem Listed.entered?_run_remove (hl : σ.Listed) (name : String) (k : Key) :
    ((PacketAct.remove name).run σ).entered? name k = none := by
  cases hn : σ.packet.records.get? name with
  | some id => exact entered?_remove hn k
  | none =>
    rw [remove_run_of_none hn]
    exact hl.entered?_eq_none hn k

theorem Listed.step (hl : σ.Listed) (h : σ.Orderly) (act : PacketAct τ) :
    (act.run σ).Listed := by
  intro name k e he
  by_cases hr : act = .remove name
  · subst hr
    rw [hl.entered?_run_remove] at he
    cases he
  · suffices hbefore : ∃ id, σ.packet.records.get? name = some id from
      hbefore.imp fun _ hn => registered_run hn hr
    by_cases hc : act = .commit
    · subst hc
      rw [h.entered?_commit] at he
      cases hn : σ.packet.records.get? name with
      | some id => exact ⟨id, rfl⟩
      | none =>
        rw [hn] at he
        obtain ⟨id, hid⟩ := hl name k e he
        exact absurd (hn.symm.trans hid) (Option.some_ne_none id).symm
    · rw [entered?_run hr hc] at he
      exact hl name k e he

theorem Listed.acted (hl : σ.Listed) (h : σ.Orderly) (ha : σ.Permits acts) :
    (σ.acted acts).Listed := by
  induction acts generalizing σ with
  | nil => exact hl
  | cons act acts ih => exact ih (hl.step h act) (h.step ha.1) ha.2

/-- Until it is removed a record stays registered, and until the next commit its entries stay. -/
theorem entered?_acted (hn : σ.packet.records.get? name = some id) (hc : .commit ∉ acts)
    (hr : .remove name ∉ acts) :
    (σ.acted acts).packet.records.get? name = some id ∧
      ∀ k, (σ.acted acts).entered? name k = σ.entered? name k := by
  induction acts generalizing σ with
  | nil => exact ⟨hn, fun _ => rfl⟩
  | cons act acts ih =>
    rw [List.mem_cons, not_or] at hc hr
    obtain ⟨hlast, hentry⟩ := ih (registered_run hn (Ne.symm hr.1)) hc.2 hr.2
    exact ⟨hlast, fun k => (hentry k).trans (entered?_run (Ne.symm hr.1) (Ne.symm hc.1) k)⟩

theorem registered_add (hname : (σ.space.record id).name = some name)
    (hn : σ.packet.records.get? name = none) :
    ((PacketAct.add id).run σ).packet.records.get? name = some id := by
  rw [PacketAct.run, PacketOp.run, σ.packet.add_run _ _ hname, hn]
  exact (Table.get?_put_if ..).trans (if_pos rfl)

theorem Orderly.mem_lookup_commit (h : σ.Orderly) {l : Label} {v : Value} :
    name ∈ (PacketAct.commit.run σ).packet.lookup l v ↔
      ∃ k form, v.indexForm = some form ∧
        (PacketAct.commit.run σ).entered? name k = some (l, form) :=
  h.commit.index.mem_lookup_iff

/-- A registered record that has no entries is found after a commit by what its changes tell. -/
theorem Orderly.mem_lookup_of_changes (h : σ.Orderly) (hn : σ.packet.records.get? name = some id)
    (hnone : ∀ k, σ.entered? name k = none) {l : Label} {v : Value} :
    name ∈ (PacketAct.commit.run σ).packet.lookup l v ↔
      l ≠ .empty ∧ ∃ k w form, (σ.space.changesOf id).get? k = some ⟨l, w⟩ ∧
        w.indexForm = some form ∧ v.indexForm = some form := by
  have hafter : ∀ k, (PacketAct.commit.run σ).entered? name k =
      ((σ.space.changesOf id).get? k).bind Field.entry? := by
    intro k
    rw [h.entered?_commit, hn, Option.bind_some, hnone]
    cases (σ.space.changesOf id).get? k <;> rfl
  rw [h.mem_lookup_commit]
  simp only [hafter, Option.bind_eq_some_iff]
  constructor
  · rintro ⟨k, form, hv, ⟨m, w⟩, hf, he⟩
    obtain ⟨hl, rfl, hw⟩ := Field.entry?_eq_some.mp he
    exact ⟨hl, k, w, form, hf, hw, hv⟩
  · rintro ⟨hl, k, w, form, hf, hw, hv⟩
    exact ⟨k, form, hv, _, hf, Field.entry?_eq_some.mpr ⟨hl, rfl, hw⟩⟩

end Packet.Course

/-- In a run of an empty packet, let a record be added under a name that is free, whatever has
become of it before, and let a commit come before the record is removed again. After it, the record
is found by just those labels and values that were noted of it last, under whichever keys, and not
taken since. So it is found by every field that it holds, if the field is labelled, its value is no
cell and can be indexed, and something has been noted of it that is not taken yet: a field of which
nothing is noted any more is not found. -/
theorem Packet.lookup_after_adding {maxDepth : Nat} {before between : List (PacketAct τ)}
    {id : RecordId} {name : String}
    (h : (Course.start maxDepth).Permits (before ++ .add id :: between))
    (hname : (((Course.start maxDepth).acted before).space.record id).name = some name)
    (hfree : ((Course.start maxDepth).acted before).packet.records.get? name = none)
    (hc : .commit ∉ between) (hr : .remove name ∉ between) :
    let σ := (Course.start maxDepth).acted (before ++ .add id :: between)
    σ.packet.records.get? name = some id ∧
      (∀ l v, name ∈ (PacketAct.commit.run σ).packet.lookup l v ↔
        l ≠ .empty ∧ ∃ k w form,
          (Course.start maxDepth).Lasts id k ⟨l, w⟩ (before ++ .add id :: between) ∧
          w.indexForm = some form ∧ v.indexForm = some form) ∧
      ∀ k l w, (σ.space.record id).fields.field? k = some ⟨l, w⟩ → l ≠ .empty →
        w.isCell = false → w.indexForm.isSome →
        (∃ f, (Course.start maxDepth).Lasts id k f (before ++ .add id :: between)) →
        name ∈ (PacketAct.commit.run σ).packet.lookup l w := by
  intro σ
  have hstart : (Course.start maxDepth : Course τ).Orderly := Course.orderly_start maxDepth
  have hσ : σ.Orderly := hstart.acted h
  obtain ⟨hbefore, -⟩ := Course.permits_append.mp h
  have hlisted := (Course.listed_start maxDepth).acted hstart hbefore
  have hσ_eq : σ = ((PacketAct.add id).run ((Course.start maxDepth).acted before)).acted between :=
    Course.acted_append ..
  obtain ⟨hn, hentry⟩ := Course.entered?_acted (Course.registered_add hname hfree) hc hr
  rw [← hσ_eq] at hn hentry
  have hnone : ∀ k, σ.entered? name k = none := by
    intro k
    rw [hentry, Course.entered?_run (fun h => by cases h) (fun h => by cases h)]
    exact hlisted.entered?_eq_none hfree k
  have hfound : ∀ l v, name ∈ (PacketAct.commit.run σ).packet.lookup l v ↔
      l ≠ .empty ∧ ∃ k w form,
        (Course.start maxDepth).Lasts id k ⟨l, w⟩ (before ++ .add id :: between) ∧
        w.indexForm = some form ∧ v.indexForm = some form := by
    intro l v
    rw [hσ.mem_lookup_of_changes hn hnone]
    simp only [σ, Course.get?_acted_start_iff h]
  refine ⟨hn, hfound, fun k l w hk hl hw hform ⟨f, hlast⟩ => ?_⟩
  obtain ⟨form, hform⟩ := Option.isSome_iff_exists.mp hform
  have hnoted : (σ.space.record id).changes.get? k = some f := by
    rw [← hσ.changesOf hn]
    exact (Course.get?_acted_start_iff h).mpr hlast
  obtain rfl := hσ.reachable.current id k f _ hnoted hk hw
  exact (hfound l w).mpr ⟨hl, k, w, form, hlast, hform, hform⟩

/-- A record with a field is committed and removed. -/
def removed : List (PacketAct Unit) :=
  [.create "o", .operation (.record ⟨1⟩ (.add (.name "x") (.int 1))), .commit, .remove "o"]

theorem lookup_after_adding_removed :
    let σ := (Course.start 4).acted
      (removed ++ [.add ⟨1⟩, .write ⟨⟨"o", ⟨1⟩⟩, .name "y"⟩ (.int 2)])
    "o" ∈ (PacketAct.commit.run σ).packet.lookup (.name "y") (.int 2) ∧
      "o" ∉ (PacketAct.commit.run σ).packet.lookup (.name "x") (.int 1) := by
  intro σ
  have hpermits : (Course.start 4).Permits
      (removed ++ .add ⟨1⟩ :: [.write ⟨⟨"o", ⟨1⟩⟩, .name "y"⟩ (.int 2)]) :=
    ⟨trivial, trivial, trivial, trivial, trivial, trivial, trivial⟩
  have hname : (((Course.start 4).acted removed).space.record ⟨1⟩).name = some "o" := by
    decide +kernel
  obtain ⟨-, hfound, -⟩ := Packet.lookup_after_adding hpermits hname (by decide +kernel) (by simp)
    (by simp)
  refine ⟨(hfound _ _).mpr ⟨by decide, ⟨2⟩, .int 2, .int 2, ?_, rfl, rfl⟩, by decide +kernel⟩
  exact (Course.get?_acted_start_iff hpermits).mp (by decide +kernel)

/-- Not every field of a record that is added is found after the next commit. -/
theorem not_lookup_all_after_adding :
    ¬ ∀ (before between : List (PacketAct Unit)) (id : RecordId) (name : String),
      (Course.start 4).Permits (before ++ .add id :: between) →
      (((Course.start 4).acted before).space.record id).name = some name →
      ((Course.start 4).acted before).packet.records.get? name = none →
      .commit ∉ between → .remove name ∉ between →
      let σ := (Course.start 4).acted (before ++ .add id :: between)
      ∀ k l w, (σ.space.record id).fields.field? k = some ⟨l, w⟩ → l ≠ .empty →
        w.isCell = false → w.indexForm.isSome = true →
        name ∈ (PacketAct.commit.run σ).packet.lookup l w := by
  intro hall
  have hfound := hall removed [] ⟨1⟩ "o" ⟨trivial, trivial, trivial, trivial, trivial, trivial⟩
    (by decide +kernel) (by decide +kernel) (by simp) (by simp) ⟨1⟩ (.name "x") (.int 1)
    (by decide +kernel) (by decide) rfl rfl
  revert hfound
  decide +kernel

end LiveRecords
