import LiveRecords.Proofs.Evaluation.Relays
import LiveRecords.Proofs.Evaluation.Traceless
import LiveRecords.Proofs.Record.Noting

/-! # Detaching a field from its cell

A cell is detached by what it is read as, and a reference that leads nowhere by an empty value. As
long as formulas come to no cells, the field holds plain data from then on, so that to detach it
once more finds nothing to do.
-/

namespace LiveRecords

namespace Space

/-- The formulas of derived cells come to no cells for the records that hold them. -/
def YieldsPlain (s : Space) : Prop :=
  ∀ id p k l i n v, s.slot? id p = some (k, ⟨l, .cell (.derived i)⟩) →
    s.FormulaYields n id (s.derivation i).getter v → v.isCell = false

/-- The space `t` is `s` but for one field, which holds `v` in it, and the note of that. -/
structure Detached (s : Space) (id : RecordId) (k : Key) (l : Label) (v : Value) (t : Space) :
    Prop where
  field : (t.record id).fields.field? k = some ⟨l, v⟩
  noted : (t.record id).changes.get? k = some ⟨l, v⟩
  fields : ∀ j ≠ k, (t.record id).fields.field? j = (s.record id).fields.field? j
  labels : (t.record id).fields.keyOf = (s.record id).fields.keyOf
  order : (t.record id).fields.order = (s.record id).fields.order
  changes : ∀ j ≠ k, (t.record id).changes.get? j = (s.record id).changes.get? j
  record : { t.record id with
    fields := (s.record id).fields, changes := (s.record id).changes } = s.record id
  records : ∀ j ≠ id, t.records.get? j = s.records.get? j
  rest : { t with records := s.records } = s

variable {s : Space} {id : RecordId} {p : Place} {k : Key} {l : Label} {v w : Value} {n : Nat}

theorem yieldsPlain_of_functions
    (h : ∀ i name apply operands, (s.derivation i).getter = .mk name apply operands →
      ∀ written vs v, apply written vs = .ok v → v.isCell = false) : s.YieldsPlain := by
  intro id p k l i n v _ hf
  cases hget : (s.derivation i).getter with
  | mk name apply operands =>
    rw [hget] at hf
    cases hf with
    | apply _ hv => exact h i name apply operands hget _ _ _ hv

theorem WellKept.not_deeper (hs : s.WellKept) (hn : s.slot? id p = none)
    (hp : (s.slot? id p).isSome ∨ ∃ l, p = .label l) : s.value (s.record id).fields p ≠ .ok v := by
  obtain ⟨l, rfl⟩ : ∃ l, p = .label l := by simpa [hn] using hp
  have hk : (s.record id).fields.key? l = none := by
    refine Option.eq_none_iff_forall_ne_some.mpr fun k hk => ?_
    obtain ⟨w, hslot⟩ := hs.slot?_of_key? hk
    cases hn.symm.trans hslot
  intro hv
  rw [value, hk] at hv
  cases hv

/-- Fields of a record come to no cells. The induction goes along references. -/
theorem YieldsPlain.isCell_eq_false (hp : s.YieldsPlain) (hs : s.WellKept)
    (h : s.Yields n id p v) (hplace : (s.slot? id p).isSome ∨ ∃ l, p = .label l) :
    v.isCell = false := by
  induction n generalizing id p with
  | zero =>
    cases h with
    | plain _ hv => exact hv
    | deeper hn hv => exact absurd hv (hs.not_deeper hn hplace)
  | succ n ih =>
    cases h with
    | plain _ hv => exact hv
    | deeper hn hv => exact absurd hv (hs.not_deeper hn hplace)
    | cell hslot hc =>
      cases hc with
      | derived hf => exact hp _ _ _ _ _ _ _ hslot hf
      | reference _ hy => exact ih hy (.inr ⟨_, rfl⟩)

/-- The space in which the field `k` has been detached. -/
def settled (s : Space) (id : RecordId) (k : Key) (l : Label) (w v : Value) : Space :=
  (s.assigned id k ⟨l, w⟩ v).noted id k l v

theorem record_settled (s : Space) (id : RecordId) (k : Key) (l : Label) (w v : Value) :
    (s.settled id k l w v).record id =
      { s.record id with
        fields := (s.record id).fields.assign k ⟨l, w⟩ v
        changes := (s.record id).changes.record k l v } := by
  rw [settled, record_noted, if_pos rfl, assigned, setContents, record_setRecord_self]

theorem detached_settled (s : Space) (id : RecordId) (k : Key) (l : Label) (w v : Value) :
    s.Detached id k l v (s.settled id k l w v) := by
  have hr := record_settled s id k l w v
  refine ⟨?_, ?_, fun j hj => ?_, ?_, ?_, fun j hj => ?_, ?_, fun j hj => ?_, rfl⟩
  · rw [hr]
    exact (Container.field?_assign ..).trans (if_pos rfl)
  · rw [hr]
    exact (Table.get?_put_if ..).trans (if_pos rfl)
  · rw [hr]
    exact (Container.field?_assign ..).trans (if_neg hj)
  · rw [hr]
    rfl
  · rw [hr]
    rfl
  · rw [hr]
    exact (Table.get?_put_if ..).trans (if_neg hj)
  · rw [hr]
  · rw [settled, noted, get?_setRecord, if_neg hj, assigned, setContents, get?_setRecord, if_neg hj]

theorem slot?_settled (hs : s.slot? id p = some (k, ⟨l, w⟩)) (v : Value) :
    (s.settled id k l w v).slot? id p = some (k, ⟨l, v⟩) := by
  have hslot := slot?_assigned hs id k ⟨l, w⟩ v
  rw [if_pos ⟨rfl, rfl⟩] at hslot
  have hfields : ((s.settled id k l w v).record id).fields =
      ((s.assigned id k ⟨l, w⟩ v).record id).fields := by
    rw [settled, record_noted, if_pos rfl]
  rw [slot?, hfields]
  exact hslot

end Space

section Runs

variable {s : Space} {id : RecordId} {p : Place} {k : Key} {l : Label} {v w : Value}

theorem RecordId.raw_of_slot? (hs : s.slot? id p = some (k, ⟨l, w⟩)) : id.raw p s = .ok w s := by
  obtain ⟨hr, hk⟩ := (Container.slot?_eq_some ..).mp hs
  cases p with
  | label m =>
    have hm : (s.record id).fields.key? m = some k := hr
    rw [RecordId.raw, bind_of_ok (Edit.get_run s), bind_of_ok (id.contents_run s)]
    simp only [Space.value, hm, hk]
    rfl
  | key j =>
    obtain ⟨-, rfl⟩ : (s.record id).fields.holds j = true ∧ j = k := by
      simpa [Container.resolve] using hr
    exact RecordId.raw_run hk

theorem RecordId.supplant_run (hs : s.slot? id p = some (k, ⟨l, w⟩)) (v : Value) :
    id.supplant p v s = .ok v (if w.isCell then s.settled id k l w v else s) := by
  obtain ⟨hr, hk⟩ := (Container.slot?_eq_some ..).mp hs
  rw [RecordId.supplant, bind_of_ok (id.contents_run s)]
  simp only [hr]
  rw [bind_of_ok (RecordId.raw_run hk)]
  cases hw : w.isCell with
  | false => rfl
  | true =>
    have hput : ((s.assigned id k ⟨l, w⟩ v).record id).fields.field? k = some ⟨l, v⟩ :=
      (Space.field?_assigned ..).trans (if_pos ⟨rfl, rfl⟩)
    simp only [if_true]
    rw [bind_of_ok (discard_of_ok (Holder.replace_run v hk)), bind_of_ok (RecordId.field_run hput)]
    rfl

theorem RecordId.detach_run (hs : s.slot? id p = some (k, ⟨l, w⟩)) :
    id.detach p s =
      if RecordId.dangling s w then id.supplant p .empty s
      else (id.read p >>= fun v => id.supplant p v) s := by
  rw [RecordId.detach, bind_of_ok (Edit.get_run s), bind_of_ok (RecordId.raw_of_slot? hs)]
  split <;> rfl

theorem RecordId.detach_plain (hs : s.slot? id p = some (k, ⟨l, w⟩)) (hw : w.isCell = false) :
    id.detach p s = .ok w s := by
  have hd : RecordId.dangling s w = false := by
    cases w with
    | cell c => cases hw
    | _ => rfl
  rw [RecordId.detach_run hs, hd, if_neg Bool.false_ne_true, bind_of_ok (RecordId.read_plain hs hw),
    RecordId.supplant_run hs, hw, if_neg Bool.false_ne_true]

/-- A cell is detached as a reference that leads nowhere, or as what it is read as, or not at all
since it cannot be read. -/
theorem Space.Quiet.detach_cell (h : s.Quiet) (hs : s.slot? id p = some (k, ⟨l, w⟩))
    (hw : w.isCell = true) :
    (RecordId.dangling s w = true ∧
      id.detach p s = .ok .empty (s.settled id k l w .empty)) ∨
    (∃ v, RecordId.dangling s w = false ∧ id.read p s = .ok v s ∧
      id.detach p s = .ok v (s.settled id k l w v)) ∨
    ∃ e, RecordId.dangling s w = false ∧ id.read p s = .error e s ∧
      id.detach p s = .error e s := by
  have hsupplant : ∀ v, id.supplant p v s = .ok v (s.settled id k l w v) := fun v => by
    rw [RecordId.supplant_run hs, if_pos hw]
  have hsame : final (id.read p) s = s := id.read_same p s h
  rw [RecordId.detach_run hs]
  cases hd : RecordId.dangling s w with
  | true => exact .inl ⟨rfl, hsupplant .empty⟩
  | false =>
    rw [if_neg Bool.false_ne_true]
    cases hr : id.read p s with
    | ok v t =>
      obtain rfl : t = s := (final_of_ok hr).symm.trans hsame
      exact .inr (.inl ⟨v, rfl, rfl, (bind_of_ok hr).trans (hsupplant v)⟩)
    | error e t =>
      obtain rfl : t = s := (final_of_error hr).symm.trans hsame
      exact .inr (.inr ⟨e, rfl, rfl, bind_of_error hr⟩)

end Runs

/-- Detaching a field that holds a cell answers with what reading it does, or with an empty value
where the cell is a reference to a record that is gone. The field then holds that value, which is no
cell, it is noted so, and nothing else has changed. A field that holds no cell stays as it is, and
where the cell cannot be read, all does. To detach a field once more comes to the same and changes
nothing. -/
theorem Reachable.detach_settles {s : Space} (h : Reachable s) (hp : s.YieldsPlain) {id : RecordId}
    {p : Place} {k : Key} {l : Label} {w : Value} (hs : s.slot? id p = some (k, ⟨l, w⟩)) :
    (∀ v t, w.isCell = true → id.detach p s = .ok v t →
      (if RecordId.dangling s w then v = .empty else id.read p s = .ok v s) ∧
      v.isCell = false ∧ t.slot? id p = some (k, ⟨l, v⟩) ∧ s.Detached id k l v t) ∧
    (w.isCell = false → id.detach p s = .ok w s) ∧
    (∀ e t, id.detach p s = .error e t →
      RecordId.dangling s w = false ∧ id.read p s = .error e s ∧ t = s) ∧
    ∀ v t, id.detach p s = .ok v t → id.detach p t = .ok v t := by
  have hcell : ∀ v t, w.isCell = true → id.detach p s = .ok v t →
      (if RecordId.dangling s w then v = .empty else id.read p s = .ok v s) ∧
      v.isCell = false ∧ t = s.settled id k l w v := by
    intro v t hw ht
    obtain ⟨hd, hr⟩ | ⟨u, hd, hread, hr⟩ | ⟨e, -, -, hr⟩ := h.quiet.detach_cell hs hw <;>
      cases ht.symm.trans hr
    · exact ⟨by rw [if_pos hd], rfl, rfl⟩
    · have hy := (h.quiet.read_eq_ok_iff.mp hread).2
      have hplain := hp.isCell_eq_false h.wellKept hy (.inl (Option.isSome_of_eq_some hs))
      exact ⟨by rw [if_neg (by simp [hd]), hread], hplain, rfl⟩
  refine ⟨fun v t hw ht => ?_, RecordId.detach_plain hs, fun e t ht => ?_, fun v t ht => ?_⟩
  · obtain ⟨hv, hplain, rfl⟩ := hcell v t hw ht
    exact ⟨hv, hplain, Space.slot?_settled hs v, Space.detached_settled s id k l w v⟩
  · cases hw : w.isCell with
    | false => cases ht.symm.trans (RecordId.detach_plain hs hw)
    | true =>
      obtain ⟨-, hr⟩ | ⟨u, -, -, hr⟩ | ⟨e', hd, hread, hr⟩ := h.quiet.detach_cell hs hw <;>
        cases ht.symm.trans hr
      exact ⟨hd, hread, rfl⟩
  · cases hw : w.isCell with
    | false =>
      cases ht.symm.trans (RecordId.detach_plain hs hw)
      exact ht
    | true =>
      obtain ⟨-, hplain, rfl⟩ := hcell v t hw ht
      exact RecordId.detach_plain (Space.slot?_settled hs v) hplain

/-- A derived field, a reference to a record that is gone, and a reference to that reference. -/
def leftBehind : List Operation :=
  [.newRecord none 4, .newRecord none 4, .record ⟨2⟩ (.add (.name "x") (.int 1)),
    .newDerived { getter := .mk "list" Function.list [.here (.name "a")] },
    .record ⟨1⟩ (.add (.name "a") (.int 3)),
    .record ⟨1⟩ (.add (.name "all") (.cell (.derived ⟨1⟩))),
    .record ⟨1⟩ (.add (.name "gone") (.cell (.reference ⟨2⟩ (.name "x")))),
    .record ⟨1⟩ (.add (.name "chain") (.cell (.reference ⟨1⟩ (.name "gone")))),
    .retain (· ≠ ⟨2⟩)]

theorem yieldsPlain_leftBehind : (Space.after leftBehind).YieldsPlain := by
  have hderived : (Space.after leftBehind).derived =
      (∅ : Table DerivedId Derived).put ⟨1⟩
        { getter := .mk "list" Function.list [.here (.name "a")] } := rfl
  refine Space.yieldsPlain_of_functions fun i name apply operands hget written vs v hv => ?_
  rw [Space.derivation, hderived, Table.get?_put_if] at hget
  split at hget <;> cases hget <;> cases hv <;> rfl

/-- The derived field comes to its value. The reference that leads nowhere becomes empty, but not
the one that leads to it. -/
theorem detach_settles_leftBehind :
    let s := Space.after leftBehind
    let all : Place := .label (.name "all")
    (∃ t, RecordId.detach ⟨1⟩ all s = .ok (.list [.int 3]) t ∧
      t.slot? ⟨1⟩ all = some (⟨3⟩, ⟨.name "all", .list [.int 3]⟩) ∧
      RecordId.detach ⟨1⟩ all t = .ok (.list [.int 3]) t) ∧
    (∃ t, RecordId.detach ⟨1⟩ (.label (.name "gone")) s = .ok .empty t ∧
      s.Detached ⟨1⟩ ⟨4⟩ (.name "gone") .empty t) ∧
    RecordId.detach ⟨1⟩ (.label (.name "chain")) s =
      .error (.notFound (.referenced (.name "x"))) s := by
  intro s all
  have hs : Reachable s := Reachable.after leftBehind
  have hp : s.YieldsPlain := yieldsPlain_leftBehind
  have hall : s.slot? ⟨1⟩ all = some (⟨3⟩, ⟨.name "all", .cell (.derived ⟨1⟩)⟩) := by
    decide +kernel
  have hgone : s.slot? ⟨1⟩ (.label (.name "gone")) =
      some (⟨4⟩, ⟨.name "gone", .cell (.reference ⟨2⟩ (.name "x"))⟩) := by decide +kernel
  have hchain : s.slot? ⟨1⟩ (.label (.name "chain")) =
      some (⟨5⟩, ⟨.name "chain", .cell (.reference ⟨1⟩ (.name "gone"))⟩) := by decide +kernel
  obtain ⟨t, ht⟩ : ∃ t, RecordId.detach ⟨1⟩ all s = .ok (.list [.int 3]) t :=
    answer_eq_some_iff.mp (by decide +kernel)
  obtain ⟨u, hu⟩ : ∃ u, RecordId.detach ⟨1⟩ (.label (.name "gone")) s = .ok .empty u :=
    answer_eq_some_iff.mp (by decide +kernel)
  obtain ⟨r, hr⟩ : ∃ r, RecordId.detach ⟨1⟩ (.label (.name "chain")) s =
      .error (.notFound (.referenced (.name "x"))) r := fault_eq_some_iff.mp (by decide +kernel)
  obtain ⟨hsettles, -, -, hagain⟩ := hs.detach_settles hp hall
  refine ⟨⟨t, ht, (hsettles _ t rfl ht).2.2.1, hagain _ t ht⟩,
    ⟨u, hu, ((hs.detach_settles hp hgone).1 _ u rfl hu).2.2.2⟩, ?_⟩
  obtain ⟨-, -, rfl⟩ := (hs.detach_settles hp hchain).2.2.1 _ r hr
  exact hr

end LiveRecords
