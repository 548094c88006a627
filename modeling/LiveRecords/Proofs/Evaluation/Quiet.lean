import LiveRecords.Proofs.Operations

/-! # Between operations nothing is under evaluation

Whatever a session evaluates or assigns, it closes the evaluation of as many cells of a record
as it opened, and a failure put off is handed over when the outermost of them is closed. So
every operation leaves behind records of depth zero without a pending failure.
-/

namespace LiveRecords

namespace Space

/-- Only a record with cells under evaluation has put off a failure. -/
def Settled (s : Space) : Prop := ∀ id, (s.record id).depth = 0 → (s.record id).pending = none

/-- Records come in ascending order and none of them has a cell under evaluation. -/
structure Quiet (s : Space) : Prop where
  ascending : s.records.Ascending
  depth : ∀ id, (s.record id).depth = 0
  settled : s.Settled

/-- Every cell whose evaluation was opened between `s` and `t` has been closed. A failure that
was put off before is put off still. -/
structure Balanced (s t : Space) : Prop where
  ascending : s.records.Ascending → t.records.Ascending
  depth : ∀ id, (t.record id).depth = (s.record id).depth
  settled : s.Settled → t.Settled
  held : ∀ id f, (s.record id).depth ≠ 0 → (s.record id).pending = some f →
    (t.record id).pending = some f

variable {s t : Space}

theorem Quiet.pending (h : s.Quiet) (id : RecordId) : (s.record id).pending = none :=
  h.settled id (h.depth id)

theorem Quiet.empty : ({} : Space).Quiet := ⟨Table.ascending_empty, fun _ => rfl, fun _ _ => rfl⟩

instance : IsPreorder Space Balanced where
  refl _ := ⟨id, fun _ => rfl, id, fun _ _ _ h => h⟩
  trans _ _ _ h h' :=
    ⟨h'.ascending ∘ h.ascending, fun id => (h'.depth id).trans (h.depth id),
      h'.settled ∘ h.settled,
      fun id f hd hf => h'.held id f ((h.depth id).symm ▸ hd) (h.held id f hd hf)⟩

theorem Balanced.keeps (h : Balanced s t) : Keeps Quiet s t := fun hs =>
  ⟨h.ascending hs.ascending, fun id => (h.depth id).trans (hs.depth id), h.settled hs.settled⟩

/-- Without a failure put off at the end, none was put off at the start. -/
theorem Balanced.pending_eq_none (h : Balanced s t) (hs : s.Settled)
    (ht : ∀ id, (t.record id).pending = none) (id : RecordId) : (s.record id).pending = none := by
  refine Option.eq_none_iff_forall_ne_some.mpr fun f hf => ?_
  have hd : (s.record id).depth ≠ 0 := fun hd => by
    rw [hs id hd] at hf
    cases hf
  have := h.held id f hd hf
  rw [ht id] at this
  cases this

theorem balanced_setRecord {id : RecordId} {r : Record} (hd : r.depth = (s.record id).depth)
    (hp : r.pending = (s.record id).pending) : Balanced s (s.setRecord id r) where
  ascending hs := hs.put id r
  depth j := by
    rw [record_setRecord]
    split
    · rename_i hj
      rw [hj, hd]
    · rfl
  settled hs j := by
    rw [record_setRecord]
    split
    · rw [hd, hp]
      exact hs id
    · exact hs j
  held j f _ hf := by
    rw [record_setRecord]
    split
    · rename_i hj
      rw [hp, ← hj, hf]
    · exact hf

theorem balanced_setContents (h : Holder) (c : Container) : Balanced s (s.setContents h c) := by
  cases h with
  | shared id => exact ⟨fun hs => hs, fun _ => rfl, fun hs => hs, fun _ _ _ hf => hf⟩
  | record id => exact balanced_setRecord rfl rfl

theorem balanced_setChanges (s : Space) (id : RecordId) (changes : Changes) :
    Balanced s (s.setRecord id { s.record id with changes }) :=
  balanced_setRecord rfl rfl

theorem balanced_settling {m : Eval Value} (id : RecordId) (hm : Moves (OnSpace Balanced) m) :
    Moves (OnSpace Balanced) (Eval.settling id m) := by
  intro σ
  obtain ⟨outcome, h⟩ := Eval.final_settling_space id m σ
  have hb := hm (Eval.deepen id σ)
  have hopened : ∀ j, ((final m (Eval.deepen id σ)).space.record j).depth =
      if j = id then (σ.space.record id).depth + 1 else (σ.space.record j).depth := fun j =>
    (hb.depth j).trans (Eval.deepen_depth id σ j)
  have hin : σ.space.Settled → (Eval.deepen id σ).space.Settled := by
    intro hs j
    rw [Eval.deepen_depth, Eval.deepen_pending]
    split
    · exact fun hd => nomatch hd
    · exact hs j
  have hheld : ∀ j f, (σ.space.record j).depth ≠ 0 → (σ.space.record j).pending = some f →
      ((final m (Eval.deepen id σ)).space.record j).pending = some f := by
    intro j f hd hf
    refine hb.held j f ?_ ((Eval.deepen_pending id σ j).trans hf)
    rw [Eval.deepen_depth]
    split
    · exact Nat.succ_ne_zero _
    · exact hd
  rw [OnSpace, h]
  refine ⟨fun ha => (hb.ascending (ha.put id _)).put id _, fun j => ?_, fun hs j => ?_,
    fun j f hd hf => ?_⟩ <;> dsimp only <;> rw [record_setRecord]
  · split
    · rename_i hj
      rw [Record.settle_depth]
      simp [hj, hopened]
    · rename_i hj
      simp [hj, hopened]
  · split
    · intro hd
      rw [Record.settle_depth] at hd
      exact Record.settle_pending (by exact hd) outcome
    · exact hb.settled (hin hs) j
  · split
    · rename_i hj
      subst hj
      refine Record.settle_held ?_ (by exact hheld j f hd hf) outcome
      simpa [hopened] using hd
    · exact hheld j f hd hf

theorem evalClosed_balanced : Eval.Closed (OnSpace Balanced) :=
  Eval.closed_onSpace fun _ hm => balanced_settling _ hm _

theorem holderClosed_balanced : Holder.Closed Balanced :=
  Holder.closed_of_setContents (fun _ h c => balanced_setContents h c)
    fun _ => ⟨id, fun _ => rfl, id, fun _ _ _ hf => hf⟩

theorem closedForWrites_balanced : Eval.ClosedForWrites (OnSpace Balanced) :=
  evalClosed_balanced.forWrites holderClosed_balanced.add holderClosed_balanced.replaceWithin
    balanced_setChanges

theorem quiet_newRecord (name : Option String) (maxDepth : Nat) :
    Moves (Keeps Quiet) (Edit.newRecord name maxDepth) := by
  intro s hs
  refine ⟨hs.ascending.put _ _, fun id => ?_, fun id _ => ?_⟩
  · change ((s.setRecord ⟨s.nextRecord⟩ { name, maxDepth }).record id).depth = 0
    rw [record_setRecord]
    split
    · rfl
    · exact hs.depth id
  · change ((s.setRecord ⟨s.nextRecord⟩ { name, maxDepth }).record id).pending = none
    rw [record_setRecord]
    split
    · rfl
    · exact hs.pending id

theorem Quiet.retain (hs : s.Quiet) (held : RecordId → Bool) : (s.retain held).Quiet := by
  have hr := record_retain hs.ascending held
  refine ⟨hs.ascending.filter _, fun id => ?_, fun id _ => ?_⟩
  · rcases hr id with he | he <;> rw [he]
    exact hs.depth id
  · rcases hr id with he | he <;> rw [he]
    exact hs.pending id

theorem closed_quiet : Edit.Closed (Keeps Quiet) where
  toClosed := holderClosed_balanced.mono fun _ _ h => h.keeps
  mintKey _ hs := ⟨hs.ascending, hs.depth, hs.settled⟩
  newContainer _ hs := ⟨hs.ascending, hs.depth, hs.settled⟩
  newDerived _ _ hs := ⟨hs.ascending, hs.depth, hs.settled⟩
  newRecord := quiet_newRecord
  retain _ held hs := hs.retain held
  setChanges s id changes := (balanced_setChanges s id changes).keeps
  read id p s := (id.read_moves evalClosed_balanced p s).keeps
  evaluate id f s := (id.evaluate_moves evalClosed_balanced f s).keeps
  write id p v s := (id.write_moves closedForWrites_balanced p v s).keeps

end Space

theorem Reachable.quiet {s : Space} (h : Reachable s) : s.Quiet :=
  h.of_closed Space.closed_quiet .empty

end LiveRecords
