import LiveRecords.Proofs.Evaluation.Cells
import LiveRecords.Proofs.Packets.Runs

/-! # What is noted of a field is what it holds

Of a key, the changes of a record tell what was noted last. If the record has a field there, and
this holds no cell, then what was noted is what the field is, whatever has been done in the space
in the meantime. Of a cell the value is noted that it came to.
-/

namespace LiveRecords

open Relation (ReflTransGen)

/-- What is noted of the field at `k` is what it is, unless it holds a cell. -/
def Record.Current (r : Record) (k : Key) : Prop :=
  ∀ f g, r.changes.get? k = some f → r.fields.field? k = some g → g.value.isCell = false → f = g

namespace Record

variable {P : Value → Prop} {r q : Record} {k : Key} {l : Label} {c : Cell}

theorem Current.congr (h : r.Current k) (hf : q.fields.field? k = r.fields.field? k)
    (hc : q.changes.get? k = r.changes.get? k) : q.Current k := by
  intro f g hfk hgk
  rw [hc] at hfk
  rw [hf] at hgk
  exact h f g hfk hgk

theorem current_of_unnoted (h : r.changes.get? k = none) : r.Current k := by
  intro f g hf
  rw [h] at hf
  cases hf

theorem current_of_cell (h : r.fields.field? k = some ⟨l, .cell c⟩) : r.Current k := by
  intro f g _ hg hv
  obtain rfl := Option.some.inj (h.symm.trans hg)
  cases hv

theorem Current.record {j : Key} {m : Label} {v : Value} {b : Container} (h : r.Current k)
    (hj : ∀ g, b.field? j = some g → g = ⟨m, v⟩)
    (hb : k ≠ j → b.field? k = r.fields.field? k) :
    Current { r with fields := b, changes := r.changes.record j m v } k := by
  intro f g hf hg hv
  dsimp only at hf hg
  rw [Changes.get?_record] at hf
  split at hf
  · rename_i hkj
    subst hkj
    exact (Option.some.inj hf).symm.trans (hj g hg).symm
  · rename_i hkj
    exact h f g hf (hb hkj ▸ hg) hv

theorem Current.note (h : r.Current k) (hn : r.Noted P q) : q.Current k := by
  cases hn with
  | put _ hc =>
    refine h.record (fun g hg => ?_) fun hk => by rw [hc, if_neg hk]
    rw [hc, if_pos rfl] at hg
    exact (Option.some.inj hg).symm
  | drop _ hc =>
    refine h.record (fun g hg => ?_) fun hk => by rw [hc, if_neg hk]
    rw [hc, if_pos rfl] at hg
    cases hg
  | deeper hk _ =>
    refine h.record (fun g hg => ?_) fun _ => rfl
    rw [hk] at hg
    cases hg

theorem current_of_noted (hn : ReflTransGen (Record.Noted P) r q) (h : r.Current k) :
    q.Current k := by
  induction hn with
  | refl => exact h
  | tail _ hn ih => exact ih.note hn

end Record

namespace Space

/-- If what was noted of the field of a record at `k` was what it is, it still is. -/
def StaysCurrent (id : RecordId) (k : Key) (s t : Space) : Prop :=
  s.WellKept → t.WellKept ∧ ((s.record id).Current k → (t.record id).Current k)

variable {P : Value → Prop} {s t : Space} {id j : RecordId} {k q : Key}

instance : IsPreorder Space (StaysCurrent id k) where
  refl _ hs := ⟨hs, fun h => h⟩
  trans _ _ _ h h' hs := by
    obtain ⟨ht, hk⟩ := h hs
    obtain ⟨hu, hk'⟩ := h' ht
    exact ⟨hu, fun h => hk' (hk h)⟩

theorem staysCurrent_of_record (hw : s.WellKept → t.WellKept)
    (hf : (t.record id).fields.field? k = (s.record id).fields.field? k)
    (hc : (t.record id).changes.get? k = (s.record id).changes.get? k) : s.StaysCurrent id k t :=
  fun hs => ⟨hw hs, fun h => h.congr hf hc⟩

theorem Notes.current (h : s.Notes P j t) (hk : (s.record id).Current k) :
    (t.record id).Current k := by
  by_cases hj : id = j
  · subst hj
    exact Record.current_of_noted h.noted hk
  · rw [h.others id hj]
    exact hk

theorem Notes.staysCurrent (h : s.WellKept → t.WellKept ∧ s.Notes P j t) :
    s.StaysCurrent id k t := by
  intro hs
  obtain ⟨ht, hn⟩ := h hs
  exact ⟨ht, hn.current⟩

theorem evalClosed_staysCurrent : Eval.Closed (OnSpace (StaysCurrent id k)) := by
  refine Eval.closed_of_marks fun s i depth pending => ?_
  refine staysCurrent_of_record (fun hs => hs.setRecord_of_fields rfl) ?_ ?_
  all_goals
    rw [record_setRecord]
    split
    · rename_i hi
      rw [hi]
    · rfl

end Space

open Space (StaysCurrent)

section Writes

variable {id j : RecordId} {k q : Key}

theorem Eval.store_staysCurrent (h : ¬ (id = j ∧ k = q)) (v : Value) :
    Moves (OnSpace (StaysCurrent id k)) (Eval.store j q v) := by
  intro σ
  cases hq : (σ.space.record j).fields.field? q with
  | none =>
    rw [final_of_error (Eval.store_of_none hq v)]
    exact refl_of (StaysCurrent id k) σ.space
  | some f =>
    have hw := fun hs => (Space.closedForWrites_extends.store j q v σ hs).1
    rw [final_of_ok (Eval.store_run hq v)] at hw ⊢
    refine Space.staysCurrent_of_record hw ?_ ?_
    · exact (Space.field?_assigned ..).trans (if_neg h)
    · exact congrArg (Table.get? · k) (Space.changes_assigned ..)

theorem Edit.note_staysCurrent (h : ¬ (id = j ∧ k = q)) (l : Label) (v : Value) :
    Moves (StaysCurrent id k) (Edit.note j q l v) := by
  intro s
  have hw := Space.closed_wellKept.note j q l v s
  have hfinal : final (Edit.note j q l v) s = s.noted j q l v := rfl
  rw [hfinal] at hw ⊢
  by_cases hj : id = j
  · subst hj
    refine Space.staysCurrent_of_record hw ?_ ?_ <;> rw [Space.record_noted, if_pos rfl]
    exact (Changes.get?_record ..).trans (if_neg fun hk => h ⟨rfl, hk⟩)
  · refine Space.staysCurrent_of_record hw ?_ ?_ <;> rw [Space.record_noted, if_neg hj]

theorem RecordId.noting_wellKept {m : Edit Key} (hm : Moves (Keeps Space.WellKept) m)
    (j : RecordId) (v : Value) : Moves (Keeps Space.WellKept) (j.noting m v) :=
  hm.bind fun q => (Space.closed_wellKept.field j q).bind fun _ =>
    (Space.closed_wellKept.note j q _ v).bind fun _ => moves_pure _

theorem Eval.writePlain_staysCurrent (p : Place) (v : Value) :
    Moves (OnSpace (StaysCurrent id k)) (Eval.writePlain j p v) := by
  intro σ
  rw [OnSpace, Eval.final_writePlain]
  refine Space.Notes.staysCurrent (P := fun _ => True) (j := j) fun hs => ⟨?_, ?_⟩
  · exact RecordId.noting_wellKept (Space.closed_wellKept.toClosed.assign _ p v) j v σ.space hs
  · exact (Holder.assign_outcome hs p v).noting trivial

/-- A write through the very cell leaves a cell there, any other write through a cell is of no
account to the field. -/
theorem writeBy_staysCurrent {assign : RecordId → Key → Label → Cell → Value → Eval Unit}
    {read : Reader} {p : Place} {v : Value} {I : RecordId → Key → Cell → Prop} {σ : Session}
    (hread : ∀ j p, Moves (OnSpace (StaysCurrent id k)) (read j p))
    (ha : ∀ {q l c}, ¬ (id = j ∧ k = q) →
      Moves (OnSpace (StaysCurrent id k)) (assign j q l c v))
    (hx : Space.Extends σ.space (final (writeBy assign read j p v) σ).space)
    (hc : σ.space.WellKept →
      Space.KeepsCells I σ.space (final (writeBy assign read j p v) σ).space) :
    OnSpace (StaysCurrent id k) σ (final (writeBy assign read j p v) σ) := by
  rcases through_or_plain σ.space j p v with ⟨q, l, c, hp, hv⟩ | hv
  · by_cases hq : id = j ∧ k = q
    · obtain ⟨rfl, rfl⟩ := hq
      intro hs
      obtain ⟨d, hd, -⟩ := hc hs _ _ _ _ ((Container.slot?_eq_some ..).mp hp).2
      exact ⟨(hx hs).1, fun _ => Record.current_of_cell hd⟩
    · rw [final, writeBy_through hp hv]
      exact ((ha hq).bind fun _ => (hread j _).bind fun w =>
        (Edit.note_staysCurrent hq l w).edit.bind fun _ => moves_pure _) σ
  · rw [final, writeBy_plain hv]
    exact Eval.writePlain_staysCurrent p v σ

theorem writeWithin_staysCurrent (limit room : Nat) (j : RecordId) (p : Place) (v : Value) :
    Moves (OnSpace (StaysCurrent id k)) (writeWithin limit room j p v) := by
  have hread : ∀ room j p, Moves (OnSpace (StaysCurrent id k)) (readWithin limit room j p) :=
    readWithin_moves Space.evalClosed_staysCurrent limit
  induction room generalizing j p v with
  | zero =>
    intro σ
    exact writeBy_staysCurrent (hread 0) (fun _ => moves_throw _)
      (writeWithin_extends limit 0 j p v σ) fun hs => writeWithin_keepsCells limit 0 hs j p v
  | succ room ih =>
    intro σ
    refine writeBy_staysCurrent (hread (room + 1)) (fun {q l c} hq => ?_)
      (writeWithin_extends limit (room + 1) j p v σ)
      fun hs => writeWithin_keepsCells limit (room + 1) hs j p v
    exact (c.assign_moves Space.evalClosed_staysCurrent (hread room) ih
      (Eval.store_staysCurrent hq) v).guarded j q l

theorem RecordId.write_staysCurrent (j : RecordId) (p : Place) (v : Value) :
    Moves (StaysCurrent id k) (j.write p v) :=
  j.limit_moves.bind fun limit => (writeWithin_staysCurrent limit limit j p v).run

end Writes

section Records

variable {id : RecordId} {k : Key}

theorem RecordOp.staysCurrent_of_notes {j : RecordId} (op : RecordOp)
    (h : ∀ s : Space, s.WellKept → s.Notes (fun _ => True) j (final (op.run j) s)) :
    Moves (StaysCurrent id k) (op.run j) := fun s =>
  Space.Notes.staysCurrent fun hs => ⟨Space.closed_wellKept.recordOp j op s hs, h s hs⟩

theorem RecordId.add_staysCurrent (j : RecordId) (l : Label) (v : Value) :
    Moves (StaysCurrent id k) (j.add l v) := by
  refine Moves.of_discard (RecordOp.staysCurrent_of_notes (.add l v) fun s _ => ?_)
  rw [RecordOp.run, final_discard]
  exact RecordId.insert_notes s j l trivial _

theorem RecordId.supplant_notes {s : Space} {j : RecordId} (hs : s.WellKept) (p : Place)
    (v : Value) : s.Notes (fun _ => True) j (final (j.supplant p v) s) := by
  rw [RecordId.supplant, final_bind, RecordId.contents_run]
  dsimp only
  cases hp : (s.record j).fields.resolve p with
  | none => exact .refl _ j s
  | some q =>
    obtain ⟨f, hf⟩ := (hs.contents (.record j)).field?_of_resolve hp
    dsimp only
    rw [final_bind, RecordId.raw_run hf]
    dsimp only
    cases f.value.isCell with
    | false => exact .refl _ j s
    | true =>
      have hrun := Holder.replace_run v hf
      have hput : ((s.assigned j q f v).record j).fields.field? q = some { f with value := v } :=
        (Space.field?_assigned ..).trans (if_pos ⟨rfl, rfl⟩)
      rw [if_pos rfl, final_bind, discard_of_ok hrun]
      dsimp only
      rw [final_bind, RecordId.field_run hput]
      exact Space.noted_put f trivial

theorem RecordId.detach_staysCurrent (j : RecordId) (p : Place) :
    Moves (StaysCurrent id k) (j.detach p) :=
  RecordId.detach_moves (j.read_moves Space.evalClosed_staysCurrent p) fun v s =>
    Space.Notes.staysCurrent fun hs =>
      ⟨Space.closed_wellKept.supplant j p v s hs, RecordId.supplant_notes hs p v⟩

end Records

section Containers

/-- An operation that makes containers, changes them by their own handles, or uses up keys. -/
def Operation.SparesRecords : Operation → Prop
  | record _ _ => False
  | newRecord _ _ => False
  | retain _ => False
  | _ => True

/-- Edits of containers leave records alone. -/
def Space.SameRecords (s t : Space) : Prop := ∀ id, t.record id = s.record id

open Space (SameRecords)

instance : IsPreorder Space SameRecords where
  refl _ _ := rfl
  trans _ _ _ h h' id := (h' id).trans (h id)

variable {s t : Space} {id : RecordId} {k : Key} (i : ContainerId)

theorem staysCurrent_of_same {α : Type} {m : Edit α} (hm : Moves SameRecords m)
    (hw : Moves (Keeps Space.WellKept) m) : Moves (StaysCurrent id k) m := fun s =>
  Space.staysCurrent_of_record (hw s) (by rw [hm s]) (by rw [hm s])

namespace Holder

theorem insert_sameRecords (l : Label) (v : Value) (arrange : Key → List Key → List Key) :
    Moves SameRecords ((shared i).insert l v arrange) := by
  intro s
  rcases (shared i).final_insert l v s arrange with he | ⟨-, -, he⟩ <;> rw [he] <;>
    exact fun _ => rfl

theorem replaceWithin_sameRecords (opened : List ContainerId) (k : Key) (v : Value) :
    Moves SameRecords (replaceWithin opened (shared i) k v) := by
  intro s
  rcases (shared i).final_replaceWithin k v s opened with he | ⟨f, -, -, he⟩ <;> rw [he] <;>
    exact fun _ => rfl

theorem relabel_sameRecords (k : Key) (l : Label) :
    Moves SameRecords ((shared i).relabel k l) := by
  intro s
  rcases (shared i).final_relabel k l s with he | ⟨f, -, -, he⟩ <;> rw [he] <;>
    exact fun _ => rfl

theorem assign_sameRecords (p : Place) (v : Value) :
    Moves SameRecords ((shared i).assign p v) := by
  refine (moves_of_final fun _ => rfl).bind fun c => ?_
  cases p with
  | label l =>
    dsimp only
    split
    · exact (replaceWithin_sameRecords i _ _ v).discard.bind fun _ => moves_pure _
    · exact insert_sameRecords i l v _
  | key k =>
    refine moves_get.bind fun s => ?_
    dsimp only
    split
    · exact moves_throw _
    · rename_i path _
      refine Moves.bind (Moves.discard ?_) fun _ => moves_pure _
      cases path.getLast? with
      | none => exact replaceWithin_sameRecords i _ k v
      | some j => exact replaceWithin_sameRecords j _ k v

theorem containerOp_sameRecords (op : ContainerOp) : Moves SameRecords (op.run (shared i)) := by
  cases op with
  | add l v => exact (insert_sameRecords i l v _).discard
  | addBefore next l v =>
    refine Moves.discard fun s => ?_
    rcases (shared i).final_addBefore l v s next with he | ⟨-, he⟩ <;> rw [he]
    · exact refl_of SameRecords s
    · exact insert_sameRecords i l v _ s
  | assign p v => exact (assign_sameRecords i p v).discard
  | replace k v => exact (replaceWithin_sameRecords i _ k v).discard
  | clear p =>
    cases p with
    | key k => exact (assign_sameRecords i (.key k) .empty).discard
    | label l =>
      refine Moves.discard ((moves_of_final fun _ => rfl).bind fun c => ?_)
      refine (moves_ofExcept _).bind fun k => ?_
      exact (replaceWithin_sameRecords i _ k .empty).discard.bind fun _ => moves_pure _
  | remove k =>
    refine Moves.discard fun s => ?_
    rcases (shared i).final_remove k s with he | ⟨f, -, he⟩ <;> rw [he] <;>
      exact fun _ => rfl
  | relabel k l => exact relabel_sameRecords i k l
  | change k l v =>
    exact (relabel_sameRecords i k l).bind fun _ => (replaceWithin_sameRecords i _ k v).discard
  | assignAll fields ignore =>
    refine moves_forM _ fun e _ => ?_
    dsimp only
    split
    · exact moves_pure _
    · exact (assign_sameRecords i _ e.2).discard

end Holder

namespace ContainerId

theorem newContainer_sameRecords : Moves SameRecords Edit.newContainer := fun _ _ => rfl

theorem copy_sameRecords : Moves SameRecords i.copy :=
  i.copy_moves newContainer_sameRecords fun j l v => Holder.insert_sameRecords j l v _

theorem ofFields_sameRecords (fields : List (Label × Value)) :
    Moves SameRecords (ofFields fields) :=
  newContainer_sameRecords.bind fun j =>
    (Holder.containerOp_sameRecords j (.assignAll fields [])).bind fun _ => moves_pure _

end ContainerId

end Containers

section Operations

variable {id : RecordId} {k : Key}

theorem RecordId.copyValue_staysCurrent (v : Value) :
    Moves (StaysCurrent id k) (RecordId.copyValue v) :=
  staysCurrent_of_same
    (RecordId.copyValue_moves ContainerId.copy_sameRecords (fun _ _ _ => rfl) v)
    (Space.closed_wellKept.copyValue v)

theorem Space.staysCurrent_withNew (s : Space) (name : Option String) (maxDepth : Nat) :
    s.StaysCurrent id k (s.withNew name maxDepth) := by
  refine fun hs => ⟨keeps_newRecord name maxDepth s hs, fun h => ?_⟩
  rw [record_withNew]
  split
  · exact Record.current_of_unnoted rfl
  · exact h

theorem RecordId.derive_staysCurrent (j : RecordId) (name : Option String) :
    Moves (StaysCurrent id k) (j.derive name) := by
  intro s
  rw [RecordId.final_derive]
  refine trans_of (StaysCurrent id k) (s.staysCurrent_withNew name (s.record j).maxDepth) ?_
  refine moves_forM _ (fun e _ => ?_) _
  exact (RecordId.copyValue_staysCurrent _).bind fun v => (RecordId.add_staysCurrent _ _ v).discard

theorem RecordOp.staysCurrent (j : RecordId) (op : RecordOp) :
    Moves (StaysCurrent id k) (op.run j) := by
  have reads : ∀ {op : RecordOp}, op.Reads → Moves (StaysCurrent id k) (op.run j) :=
    fun ho => RecordOp.moves_of_reads Space.evalClosed_staysCurrent _ ho j
  cases op with
  | read p => exact reads trivial
  | fields => exact reads trivial
  | render => exact reads trivial
  | evaluate f => exact reads trivial
  | write p v => exact (RecordId.write_staysCurrent j p v).discard
  | add l v => exact (RecordId.add_staysCurrent j l v).discard
  | addBefore next l v =>
    refine RecordOp.staysCurrent_of_notes (.addBefore next l v) fun s _ => ?_
    rw [RecordOp.run, final_discard]
    exact RecordId.addBefore_notes trivial next
  | writeAll entries => exact moves_forM _ fun e _ => (RecordId.write_staysCurrent j _ e.2).discard
  | clear p =>
    refine RecordOp.staysCurrent_of_notes (.clear p) fun s hs => ?_
    rw [RecordOp.run, final_discard]
    exact RecordId.clear_notes trivial hs p
  | remove q =>
    refine RecordOp.staysCurrent_of_notes (.remove q) fun s _ => ?_
    rw [RecordOp.run, final_discard]
    exact RecordId.remove_notes
  | relabel q l =>
    exact RecordOp.staysCurrent_of_notes (.relabel q l) fun s _ =>
      RecordId.relabel_notes fun _ _ _ => trivial
  | detach p => exact (RecordId.detach_staysCurrent j p).discard
  | takeChanges =>
    refine Moves.discard (m := j.takeChanges) fun s hs => ?_
    refine ⟨Space.closed_wellKept.setChanges s j ∅ hs, fun h => ?_⟩
    change ((s.setRecord j _).record id).Current k
    rw [Space.record_setRecord]
    split
    · exact Record.current_of_unnoted rfl
    · exact h
  | derive name => exact (RecordId.derive_staysCurrent j name).discard

theorem Operation.sameRecords {op : Operation} (ho : op.SparesRecords) :
    Moves Space.SameRecords op.run := by
  cases op with
  | mintKey => exact fun _ _ => rfl
  | newContainer => exact fun _ _ => rfl
  | ofFields fields => exact (ContainerId.ofFields_sameRecords fields).discard
  | copy i => exact i.copy_sameRecords.discard
  | newDerived d => exact fun _ _ => rfl
  | container i op => exact Holder.containerOp_sameRecords i op
  | _ => exact ho.elim

theorem Operation.staysCurrent (op : Operation) : Moves (StaysCurrent id k) op.run := by
  cases op with
  | newRecord name maxDepth =>
    exact Moves.discard fun s => s.staysCurrent_withNew name maxDepth
  | retain held =>
    refine fun s hs => ⟨hs.retain held, fun h => ?_⟩
    change ((s.retain held).record id).Current k
    rw [Space.record_retain_if hs.ascending]
    split
    · exact h
    · exact Record.current_of_unnoted rfl
  | record j op => exact RecordOp.staysCurrent j op
  | _ =>
    exact staysCurrent_of_same (Operation.sameRecords trivial) (Space.closed_wellKept.operation _)

end Operations

/-- Whatever is done in a space, what the changes of a record tell of a field that holds no cell is
what it is. -/
theorem Reachable.current {s : Space} (h : Reachable s) (id : RecordId) (k : Key) :
    (s.record id).Current k := by
  induction h with
  | empty => exact Record.current_of_unnoted rfl
  | next op hs ih => exact (op.staysCurrent _ hs.wellKept).2 ih

end LiveRecords
