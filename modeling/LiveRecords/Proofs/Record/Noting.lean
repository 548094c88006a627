import Mathlib.Logic.Relation
import LiveRecords.Proofs.Container.WellKept
import LiveRecords.Proofs.Evaluation.Writing

/-! # Every write is noted

As long as a record holds no cells, an operation on it either faults and leaves the record as it
was, or changes one of its fields and notes what that field is now. Other records are left alone.
-/

namespace LiveRecords

open Relation (ReflTransGen)

/-- All that the operation writes satisfies `P`. -/
def RecordOp.Writes (P : Value → Prop) : RecordOp → Prop
  | write _ v => P v
  | add _ v => P v
  | addBefore _ _ v => P v
  | writeAll entries => ∀ e ∈ entries, P e.2
  | clear _ => True
  | remove _ => True
  | relabel _ _ => True
  | _ => False

/-- An operation that changes a single field of the record in `s`, not by way of a cell. -/
def RecordOp.IsSingle (s : Space) (id : RecordId) : RecordOp → Prop
  | write p v => ∀ k l c, s.slot? id p = some (k, ⟨l, .cell c⟩) → v.isCell = true
  | add _ _ => True
  | addBefore _ _ _ => True
  | clear _ => True
  | remove _ => True
  | relabel _ _ => True
  | _ => False

/-- All that the record holds satisfies `P`. -/
def Record.Holds (P : Value → Prop) (r : Record) : Prop :=
  ∀ k f, r.fields.field? k = some f → P f.value

theorem RecordOp.Writes.isSingle_or {op : RecordOp} (ho : op.Writes fun v => v.isCell = false)
    {s : Space} {id : RecordId} (hs : (s.record id).Holds fun v => v.isCell = false) :
    op.IsSingle s id ∨ ∃ entries, op = .writeAll entries := by
  cases op with
  | write p v =>
    refine .inl fun k l c hslot => ?_
    have hf := hs k _ ((Container.slot?_eq_some ..).mp hslot).2
    exact absurd hf Bool.noConfusion
  | writeAll entries => exact .inr ⟨entries, rfl⟩
  | add | addBefore | clear | remove | relabel => exact .inl trivial
  | _ => exact ho.elim

/-- One field of a record is changed or given up and noted. What is held deeper is noted as
well. -/
inductive Record.Noted (P : Value → Prop) : Record → Record → Prop where
  | put {r k f c} : P f.value →
      (∀ j, c.field? j = if j = k then some f else r.fields.field? j) →
      Noted P r { r with fields := c, changes := r.changes.record k f.label f.value }
  | drop {r k f c} : r.fields.field? k = some f →
      (∀ j, c.field? j = if j = k then none else r.fields.field? j) →
      Noted P r { r with fields := c, changes := r.changes.record k f.label .empty }
  | deeper {r k l v} : r.fields.field? k = none →
      (∃ j m i, r.fields.field? j = some ⟨m, .tree i⟩) →
      Noted P r { r with changes := r.changes.record k l v }

theorem Record.Noted.holds {P : Value → Prop} {r q : Record} (h : r.Noted P q)
    (hr : r.Holds P) : q.Holds P := by
  cases h with
  | put hf hc =>
    intro j g hj
    rw [hc] at hj
    split at hj
    · cases hj
      exact hf
    · exact hr j g hj
  | drop _ hc =>
    intro j g hj
    rw [hc] at hj
    split at hj
    · cases hj
    · exact hr j g hj
  | deeper => exact hr

theorem Record.holds_of_noted {P : Value → Prop} {r q : Record}
    (h : ReflTransGen (Record.Noted P) r q) (hr : r.Holds P) : q.Holds P := by
  induction h with
  | refl => exact hr
  | tail _ hn ih => exact hn.holds ih

namespace Space

/-- The record `id` goes on by notes, the others stay. -/
structure Notes (P : Value → Prop) (id : RecordId) (s t : Space) : Prop where
  nextRecord : t.nextRecord = s.nextRecord
  others : ∀ j ≠ id, t.record j = s.record j
  noted : ReflTransGen (Record.Noted P) (s.record id) (t.record id)

/-- Where all is well kept and the record holds nothing but such values, it goes on by notes. -/
def Logs (P : Value → Prop) (id : RecordId) (s t : Space) : Prop :=
  s.WellKept → (s.record id).Holds P → t.WellKept ∧ s.Notes P id t

variable {P : Value → Prop} {id : RecordId} {s t u : Space}

theorem Notes.refl (P : Value → Prop) (id : RecordId) (s : Space) : s.Notes P id s :=
  ⟨rfl, fun _ _ => rfl, .refl⟩

theorem Notes.trans (h : s.Notes P id t) (h' : t.Notes P id u) : s.Notes P id u :=
  ⟨h'.nextRecord.trans h.nextRecord, fun j hj => (h'.others j hj).trans (h.others j hj),
    h.noted.trans h'.noted⟩

instance : IsPreorder Space (Logs P id) where
  refl s hs _ := ⟨hs, .refl P id s⟩
  trans _ _ _ h h' hs hp := by
    obtain ⟨ht, hn⟩ := h hs hp
    obtain ⟨hu, hn'⟩ := h' ht (Record.holds_of_noted hn.noted hp)
    exact ⟨hu, hn.trans hn'⟩

/-- A note taken in the record `id`. -/
def noted (s : Space) (id : RecordId) (k : Key) (l : Label) (v : Value) : Space :=
  s.setRecord id { s.record id with changes := (s.record id).changes.record k l v }

/-- The record `id` with other fields, at another key count. -/
def refielded (s : Space) (id : RecordId) (n : Nat) (c : Container) : Space :=
  { s with nextKey := n }.setContents (.record id) c

variable {k : Key} {l : Label} {v : Value} {n : Nat} {c : Container}

theorem record_noted (j : RecordId) :
    (s.noted id k l v).record j =
      if j = id then { s.record id with changes := (s.record id).changes.record k l v }
      else s.record j :=
  record_setRecord ..

theorem record_refielded (j : RecordId) :
    (s.refielded id n c).record j =
      if j = id then { s.record id with fields := c } else s.record j :=
  record_setRecord ..

theorem notes_refielded
    (h : (s.record id).Noted P { s.record id with
      fields := c, changes := (s.record id).changes.record k l v }) :
    s.Notes P id ((s.refielded id n c).noted id k l v) := by
  refine ⟨rfl, fun j hj => ?_, ?_⟩
  · rw [record_noted, if_neg hj, record_refielded, if_neg hj]
  · refine .single ?_
    rw [record_noted, if_pos rfl, record_refielded, if_pos rfl]
    exact h

theorem notes_noted
    (h : (s.record id).Noted P { s.record id with
      changes := (s.record id).changes.record k l v }) : s.Notes P id (s.noted id k l v) := by
  refine ⟨rfl, fun j hj => ?_, ?_⟩
  · rw [record_noted, if_neg hj]
  · refine .single ?_
    rw [record_noted, if_pos rfl]
    exact h

theorem notes_deeper {i : ContainerId} (hk : (s.record id).fields.field? k = none)
    (hn : ∃ j m i, (s.record id).fields.field? j = some ⟨m, .tree i⟩) :
    s.Notes P id ((s.setContents (.shared i) c).noted id k l v) := by
  refine ⟨rfl, fun j hj => ?_, ?_⟩
  · rw [record_noted, if_neg hj]
    rfl
  · refine .single ?_
    rw [record_noted, if_pos rfl]
    exact .deeper hk hn

end Space

/-- Run an edit that answers with a key, and note what it left there. -/
def RecordId.noting (id : RecordId) (edit : Edit Key) (v : Value) : Edit Key := do
  let k ← edit
  Edit.note id k (← id.field k).label v
  return k

/-- What assigning `v` to a field of a record comes to. -/
inductive Space.Assigned (s : Space) (id : RecordId) (v : Value) :
    EStateM.Result Fault Space Key → Prop where
  | fault {e} : Assigned s id v (.error e s)
  | put {k f} : (s.record id).fields.field? k = some f →
      Assigned s id v (.ok k (s.assigned id k f v))
  | append {l} : Assigned s id v (.ok ⟨s.nextKey⟩ (s.appended id l v))
  | deeper {k i c} : (s.record id).fields.field? k = none →
      (∃ j m i, (s.record id).fields.field? j = some ⟨m, .tree i⟩) →
      Assigned s id v (.ok k (s.setContents (.shared i) c))

section Edits

variable {s : Space} {id : RecordId} {k : Key} {l : Label} {v : Value}

theorem RecordId.contents_run (id : RecordId) (s : Space) :
    id.contents s = .ok (s.record id).fields s :=
  rfl

theorem RecordId.field_eq (id : RecordId) (k : Key) (s : Space) :
    id.field k s = (MonadExcept.ofExcept (s.field (s.record id).fields k) : Edit Field) s :=
  rfl

theorem RecordId.field_run {f : Field} (hk : (s.record id).fields.field? k = some f) :
    id.field k s = .ok f s := by
  have hh : (s.record id).fields.holds k = true := (Container.holds_iff _ k).mpr ⟨f, hk⟩
  have hf : s.field (s.record id).fields k = .ok f := by
    simp [Space.field, Space.field?, s.locate_of_holds k hh, Space.along, hk]
  rw [RecordId.field_eq, hf]
  rfl

theorem RecordId.noting_run {m : Edit Key} {t : Space} {f : Field} (hm : m s = .ok k t)
    (hk : (t.record id).fields.field? k = some f) :
    id.noting m v s = .ok k (t.noted id k f.label v) := by
  rw [RecordId.noting, bind_of_ok hm, bind_of_ok (RecordId.field_run hk)]
  rfl

theorem RecordId.final_field (id : RecordId) (k : Key) (s : Space) :
    final (id.field k) s = s := by
  rw [RecordId.field, final_bind, Edit.get_run]
  dsimp only
  rw [final_bind, RecordId.contents_run]
  dsimp only
  cases s.field (s.record id).fields k <;> rfl

theorem Space.nested_of_locate {c : Container} {path : List ContainerId} (hc : c.WellKept)
    (hk : c.holds k = false) (h : s.locate c k = some path) :
    ∃ j m i, c.field? j = some ⟨m, .tree i⟩ := by
  cases hn : c.nested with
  | nil =>
    unfold Space.locate at h
    cases hb : s.nestingBound <;> simp [hb, Space.locateWithin, hk, hn] at h
  | cons i rest =>
    obtain ⟨j, m, hj⟩ := hc.mem_nested_iff.mp (hn ▸ List.mem_cons_self : i ∈ c.nested)
    exact ⟨j, m, i, hj⟩

theorem Holder.assign_key_outcome (hs : s.WellKept) (hk : (s.record id).fields.field? k = none) :
    s.Assigned id v ((Holder.record id).assign (.key k) v s) := by
  have hh : (s.contents (.record id)).holds k = false := by
    rw [Bool.eq_false_iff]
    intro hh
    obtain ⟨f, hf⟩ := (Container.holds_iff _ k).mp hh
    rw [show (s.contents (.record id)).field? k = none from hk] at hf
    cases hf
  rw [assign, bind_of_ok (contents_run _ s)]
  dsimp only
  rw [bind_of_ok (Edit.get_run s)]
  cases hl : s.locate (s.contents (.record id)) k with
  | none => exact .fault
  | some path =>
    obtain ⟨i, hi⟩ : ∃ i, path.getLast? = some i := by
      refine Option.isSome_iff_exists.mp (List.getLast?_isSome.mpr fun hp => ?_)
      exact s.locate_ne_nil k hh (hp ▸ hl)
    simp only [hi, Option.map_some, Option.getD_some]
    cases hf : (s.contents (.shared i)).field? k with
    | none =>
      rw [bind_of_error (discard_of_error (e := .notFound (.key k)) (t := s) ?_)]
      · exact .fault
      · rw [replaceWithin_run, hf]
    | some f =>
      cases hn : s.nests ((Holder.record id).opened ++ path) v with
      | true =>
        rw [bind_of_error (discard_of_error (e := .refused .selfNesting) (t := s) ?_)]
        · exact .fault
        · simp [replaceWithin_run, hf, hn]
      | false =>
        rw [bind_of_ok (discard_of_ok (a := f.value)
          (t := s.setContents (.shared i) ((s.contents (.shared i)).assign k f v)) ?_)]
        · exact .deeper hk (s.nested_of_locate (hs.contents (.record id)) hh hl)
        · simp [replaceWithin_run, hf, hn]

theorem Holder.assign_outcome (hs : s.WellKept) (p : Place) (v : Value) :
    s.Assigned id v ((Holder.record id).assign p v s) := by
  cases hp : s.slot? id p with
  | some e =>
    obtain ⟨k, f⟩ := e
    rw [assign_run v hp]
    exact .put ((Container.slot?_eq_some ..).mp hp).2
  | none =>
    cases p with
    | key k =>
      refine assign_key_outcome hs ?_
      simpa [Space.slot?, Container.slot?_key] using hp
    | label l =>
      cases hl : (s.record id).fields.key? l with
      | none =>
        rw [assign_run_new v hl]
        exact .append
      | some k =>
        obtain ⟨w, hslot⟩ := hs.slot?_of_key? hl
        rw [hslot] at hp
        cases hp

theorem Holder.clear_outcome (hs : s.WellKept) (p : Place) :
    s.Assigned id .empty ((Holder.record id).clear p s) := by
  cases p with
  | key k => exact assign_outcome hs (.key k) .empty
  | label l =>
    have hc : (Holder.record id).contents s = .ok (s.record id).fields s := rfl
    rw [clear, bind_of_ok hc]
    cases hl : (s.record id).fields.key? l with
    | none =>
      have hkey : (MonadExcept.ofExcept ((s.record id).fields.key l) : Edit Key) s =
          .error (.notFound (.label l)) s := by
        rw [Container.key, hl]
        rfl
      rw [bind_of_error hkey]
      exact .fault
    | some k =>
      obtain ⟨-, w, hw⟩ := ((hs.contents (.record id)).key?_iff l k).mp hl
      have hkey : (MonadExcept.ofExcept ((s.record id).fields.key l) : Edit Key) s =
          .ok k s := by
        rw [Container.key, hl]
        rfl
      rw [bind_of_ok hkey, bind_of_ok (discard_of_ok (replace_run .empty hw))]
      exact .put hw

end Edits

namespace Space

variable {P : Value → Prop} {id : RecordId} {s : Space} {k : Key} {l : Label} {v : Value}

theorem noted_put (f : Field) (hv : P v) :
    s.Notes P id ((s.assigned id k f v).noted id k f.label v) := by
  refine notes_refielded (.put (f := ⟨f.label, v⟩) hv fun j => ?_)
  rw [Container.field?_assign]

theorem noted_append (hv : P v) (arrange : List Key) :
    s.Notes P id ((s.refielded id (s.nextKey + 1)
      ((s.record id).fields.insert ⟨s.nextKey⟩ ⟨l, v⟩ arrange)).noted id ⟨s.nextKey⟩ l v) := by
  refine notes_refielded (.put (f := ⟨l, v⟩) hv fun j => ?_)
  rw [Container.field?_insert]

theorem Assigned.noting (hv : P v) {m : Edit Key} (h : s.Assigned id v (m s)) :
    s.Notes P id (final (id.noting m v) s) := by
  have noted : ∀ {k f t}, m s = .ok k t → (t.record id).fields.field? k = some f →
      final (id.noting m v) s = t.noted id k f.label v :=
    fun hm hk => final_of_ok (RecordId.noting_run hm hk)
  generalize hr : m s = r at h
  cases h with
  | fault =>
    rw [RecordId.noting, final_bind, hr]
    exact .refl P id s
  | @put k f =>
    rw [noted (f := ⟨f.label, v⟩) hr (by simp [field?_assigned])]
    exact noted_put f hv
  | @append l =>
    rw [noted (f := ⟨l, v⟩) hr (by simp [field?_appended])]
    exact noted_append hv _
  | @deeper k i c hk hn =>
    rw [RecordId.noting, final_bind, hr]
    dsimp only
    rw [final_bind]
    have hfinal := id.final_field k (s.setContents (.shared i) c)
    cases hf : id.field k (s.setContents (.shared i) c) with
    | ok f t =>
      obtain rfl := (final_of_ok hf).symm.trans hfinal
      exact notes_deeper hk hn
    | error e t =>
      obtain rfl := (final_of_error hf).symm.trans hfinal
      exact ⟨rfl, fun _ _ => rfl, .refl⟩

end Space

section Operations

variable {P : Value → Prop} {s : Space} {id : RecordId} {k : Key} {l : Label} {v : Value}

theorem Eval.final_writePlain (id : RecordId) (p : Place) (v : Value) (σ : Session) :
    (final (Eval.writePlain id p v) σ).space =
      final (id.noting ((Holder.record id).assign p v) v) σ.space := by
  rw [Eval.writePlain, RecordId.noting, final_bind, final_bind, Eval.edit]
  cases (Holder.record id).assign p v σ.space with
  | error e u => rfl
  | ok k u =>
    dsimp only
    rw [final_bind, Eval.space_run, final_bind, RecordId.field, bind_of_ok (Edit.get_run u),
      bind_of_ok (id.contents_run u)]
    dsimp only
    rw [final_bind]
    cases u.field (u.record id).fields k <;> rfl

/-- A session that writes past all cells assigns the field and notes what it was assigned. -/
theorem Eval.run_writePlain (id : RecordId) (p : Place) (v : Value) (s : Space) :
    Eval.run (Eval.writePlain id p v) s = id.noting ((Holder.record id).assign p v) v s := by
  rw [Eval.run, Eval.writePlain, RecordId.noting]
  cases ha : (Holder.record id).assign p v s with
  | error e u =>
    have hedit : Eval.edit ((Holder.record id).assign p v) { space := s } =
        .error e { space := u } := by rw [Eval.edit, ha]
    rw [bind_of_error hedit, bind_of_error ha]
  | ok k u =>
    have hedit : Eval.edit ((Holder.record id).assign p v) { space := s } =
        .ok k { space := u } := by rw [Eval.edit, ha]
    rw [bind_of_ok hedit, bind_of_ok (Eval.space_run _), bind_of_ok ha]
    have hfield := id.field_eq k u
    cases hf : u.field (u.record id).fields k with
    | error e =>
      rw [hf] at hfield
      rw [bind_of_error hfield]
      rfl
    | ok f =>
      rw [hf] at hfield
      rw [bind_of_ok hfield]
      rfl

theorem RecordId.write_run {p : Place}
    (hs : ∀ k l c, s.slot? id p = some (k, ⟨l, .cell c⟩) → v.isCell = true) :
    id.write p v s = id.noting ((Holder.record id).assign p v) v s := by
  have hrun : id.write p v s =
      Eval.run (writeWithin (s.record id).maxDepth (s.record id).maxDepth id p v) s := rfl
  have hplain : writeWithin (s.record id).maxDepth (s.record id).maxDepth id p v { space := s } =
      Eval.writePlain id p v { space := s } := writeWithin_of_plain hs
  rw [hrun, Eval.run, hplain, ← Eval.run_writePlain, Eval.run]

theorem RecordId.final_write {p : Place}
    (hs : ∀ k l c, s.slot? id p = some (k, ⟨l, .cell c⟩) → v.isCell = true) :
    final (id.write p v) s = final (id.noting ((Holder.record id).assign p v) v) s := by
  rw [final, RecordId.write_run hs, final]

theorem RecordId.write_notes (hc : ∀ w, P w → w.isCell = false) (hs : s.WellKept)
    (hp : (s.record id).Holds P) (p : Place) (hv : P v) :
    s.Notes P id (final (id.write p v) s) := by
  rw [RecordId.final_write]
  · exact (Holder.assign_outcome hs p v).noting hv
  · intro k l c hslot
    have hf := hp k _ ((Container.slot?_eq_some ..).mp hslot).2
    exact absurd (hc _ hf) Bool.noConfusion

theorem RecordId.clear_notes (h0 : P .empty) (hs : s.WellKept) (p : Place) :
    s.Notes P id (final (id.clear p) s) :=
  (Holder.clear_outcome hs p).noting h0

/-- Take in a field and note it. -/
def RecordId.entering (id : RecordId) (edit : Edit Key) (l : Label) (v : Value) : Edit Key := do
  let k ← edit
  Edit.note id k l v
  return k

theorem RecordId.insert_notes (s : Space) (id : RecordId) (l : Label) (hv : P v)
    (arrange : Key → List Key → List Key) :
    s.Notes P id (final (id.entering ((Holder.record id).insert l v arrange) l v) s) := by
  rw [RecordId.entering, final_bind, Holder.insert_run, Holder.opened, s.nests_nil v]
  split
  · rename_i k t ht
    split at ht
    · cases ht
    · cases ht
      exact Space.noted_append hv _
  · rename_i e t ht
    split at ht
    · cases ht
      exact .refl P id s
    · cases ht

theorem RecordId.addBefore_notes (hv : P v) (next : Key) :
    s.Notes P id (final (id.addBefore next l v) s) := by
  have hadd : id.addBefore next l v =
      id.entering ((Holder.record id).addBefore next l v) l v := rfl
  have hrun := Holder.addBefore_run (.record id) next l v s
  by_cases hn : next ∈ (s.contents (.record id)).order
  · rw [if_pos hn] at hrun
    have hinsert := RecordId.insert_notes s id l hv
      fun k order => order.flatMap fun j => if j = next then [k, j] else [j]
    rwa [RecordId.entering, final_bind, ← hrun, ← final_bind, ← RecordId.entering, ← hadd]
      at hinsert
  · rw [if_neg hn] at hrun
    rw [hadd, RecordId.entering, final_bind, hrun]
    exact .refl P id s

theorem RecordId.remove_notes : s.Notes P id (final (id.remove k) s) := by
  rw [RecordId.remove, final_bind, Holder.remove_run]
  cases hf : (s.contents (.record id)).field? k with
  | none => exact .refl P id s
  | some f =>
    refine Space.notes_refielded (n := s.nextKey) (.drop hf fun j => ?_)
    exact Container.field?_remove ..

theorem RecordId.raw_run {f : Field} (hk : (s.record id).fields.field? k = some f) :
    id.raw (.key k) s = .ok f.value s := by
  have hh : (s.record id).fields.holds k = true := (Container.holds_iff _ k).mpr ⟨f, hk⟩
  have hf : s.value (s.record id).fields (.key k) = .ok f.value := by
    simp [Space.value, Space.field, Space.field?, s.locate_of_holds k hh, Space.along, hk,
      Except.map]
  rw [RecordId.raw, bind_of_ok (Edit.get_run s), bind_of_ok (id.contents_run s), hf]
  rfl

theorem RecordId.relabel_notes (hp : (s.record id).Holds P) :
    s.Notes P id (final (id.relabel k l) s) := by
  rw [RecordId.relabel, final_bind, Holder.relabel_run]
  cases hf : (s.contents (.record id)).field? k with
  | none => exact .refl P id s
  | some f =>
    have hf' : (s.record id).fields.field? k = some f := hf
    by_cases hl : f.label = l
    · simp only [hl, if_pos]
      rw [final_bind, RecordId.raw_run hf']
      subst hl
      refine Space.notes_noted (.put (hp k f hf') fun j => ?_)
      split
      · rename_i hj
        rw [hj, hf']
      · rfl
    · cases hn : (s.contents (.record id)).hasLabel l with
      | true =>
        simp only [hl, if_true, if_false]
        exact .refl P id s
      | false =>
        simp only [hl, if_false, Bool.false_eq_true]
        have hk : ((s.refielded id s.nextKey ((s.record id).fields.rename k f l)).record
            id).fields.field? k = some { f with label := l } := by
          rw [Space.record_refielded, if_pos rfl, Container.field?_rename, if_pos rfl]
        have hraw : id.raw (.key k) (s.setContents (.record id)
            ((s.contents (.record id)).rename k f l)) = .ok f.value _ :=
          RecordId.raw_run (f := { f with label := l }) hk
        rw [final_bind, hraw]
        refine Space.notes_refielded (.put (f := { f with label := l }) (hp k f hf') fun j => ?_)
        exact Container.field?_rename ..

/-- What becomes of a record that holds nothing but such values, it has noted. -/
theorem RecordOp.logs (h0 : P .empty) (hc : ∀ w, P w → w.isCell = false) {op : RecordOp}
    (ho : op.Writes P) : Moves (Space.Logs P id) (op.run id) := by
  have logs : ∀ {m : Edit Unit}, Moves (Keeps Space.WellKept) m →
      (∀ s : Space, s.WellKept → (s.record id).Holds P → s.Notes P id (final m s)) →
      Moves (Space.Logs P id) m := fun hm hn s hs hp => ⟨hm s hs, hn s hs hp⟩
  have write : ∀ p w, P w → Moves (Space.Logs P id) (discard (id.write p w)) := by
    intro p w hw
    refine logs (Space.closed_wellKept.write id p w).discard fun s hs hp => ?_
    rw [final_discard]
    exact RecordId.write_notes hc hs hp p hw
  cases op with
  | write p w => exact write p w ho
  | writeAll entries => exact moves_forM _ fun e he => write _ _ (ho e he)
  | add l w =>
    refine logs (Space.closed_wellKept.recordOp id (.add l w)) fun s _ _ => ?_
    rw [RecordOp.run, final_discard]
    exact RecordId.insert_notes s id l ho _
  | addBefore next l w =>
    refine logs (Space.closed_wellKept.recordOp id (.addBefore next l w)) fun s _ _ => ?_
    rw [RecordOp.run, final_discard]
    exact RecordId.addBefore_notes ho next
  | clear p =>
    refine logs (Space.closed_wellKept.recordOp id (.clear p)) fun s hs _ => ?_
    rw [RecordOp.run, final_discard]
    exact RecordId.clear_notes h0 hs p
  | remove k =>
    refine logs (Space.closed_wellKept.recordOp id (.remove k)) fun s _ _ => ?_
    rw [RecordOp.run, final_discard]
    exact RecordId.remove_notes
  | relabel k l =>
    exact logs (Space.closed_wellKept.recordOp id (.relabel k l)) fun s _ hp =>
      RecordId.relabel_notes hp
  | _ => exact ho.elim

end Operations

end LiveRecords
