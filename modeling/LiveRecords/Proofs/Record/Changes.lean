import LiveRecords.Proofs.Record.Noting

/-! # What changes tell

The changes of a record tell the present state of every field written since they were taken last,
and for a field given up that it became empty. Sought by label, the smallest key with that label
answers, so that a field given up hides one that has taken its label under a larger key.
-/

namespace LiveRecords

open Relation (ReflTransGen)

/-- From `r` the record has become `q`, the changes of which tell in what way. -/
structure Record.Tracked (r q : Record) : Prop where
  ascending : q.changes.Ascending
  current : ∀ k f g, q.changes.get? k = some f → q.fields.field? k = some g → f = g
  untouched : ∀ k, q.changes.get? k = none → q.fields.field? k = r.fields.field? k

/-- What the changes tell of a field that is no more is that it is empty. -/
def Record.Emptied (q : Record) : Prop :=
  ∀ k f, q.changes.get? k = some f → q.fields.field? k = none → f.value = .empty

namespace Changes

theorem get?_record (c : Changes) (k j : Key) (l : Label) (v : Value) :
    (c.record k l v).get? j = if j = k then some ⟨l, v⟩ else c.get? j :=
  Table.get?_put_if ..

variable {c : Changes} (h : c.Ascending) {l : Label} {v : Value}
include h

theorem value?_eq_some :
    c.value? l = some v ↔
      ∃ k, c.get? k = some ⟨l, v⟩ ∧
        ∀ j f, c.get? j = some f → f.label = l → ¬ j.number < k.number := by
  simp only [value?, Option.map_eq_some_iff, h.find?_values, decide_eq_true_eq]
  constructor
  · rintro ⟨⟨m, w⟩, ⟨k, hk, rfl, hmin⟩, rfl⟩
    exact ⟨k, hk, fun j f hj hf hlt => hmin j f hj hf (Nat.compare_eq_lt.mpr hlt)⟩
  · rintro ⟨k, hk, hmin⟩
    exact ⟨⟨l, v⟩, ⟨k, hk, rfl, fun j f hj hf hlt => hmin j f hj hf (Nat.compare_eq_lt.mp hlt)⟩,
      rfl⟩

theorem exists_value? {k : Key} {f : Field} (hk : c.get? k = some f) :
    ∃ w, c.value? f.label = some w := by
  have hmem : f ∈ c.values := List.mem_map.mpr ⟨(k, f), h.mem_entries_iff.mpr hk, rfl⟩
  have hsome : (c.values.find? (·.label = f.label)).isSome :=
    List.find?_isSome.mpr ⟨f, hmem, by simp⟩
  obtain ⟨g, hg⟩ := Option.isSome_iff_exists.mp hsome
  exact ⟨g.value, by rw [value?, hg]; rfl⟩

omit h in
theorem has_of_value? (hv : c.value? l = some v) (w : Value) : c.has l w = v.same w := by
  rw [has, hv]

end Changes

namespace Record

variable {P : Value → Prop} {r q q' : Record}

theorem tracked_self (h : r.changes = ∅) : r.Tracked r where
  ascending := h ▸ Table.ascending_empty
  current k f g hf := by
    rw [h] at hf
    cases hf
  untouched _ _ := rfl

theorem emptied_self (h : r.changes = ∅) : r.Emptied := by
  intro k f hf
  rw [h] at hf
  cases hf

section Steps

variable {k : Key} {l : Label} {v : Value} {c : Container}

theorem Tracked.record (h : r.Tracked q) (hk : ∀ g, c.field? k = some g → g = ⟨l, v⟩)
    (hc : ∀ j ≠ k, c.field? j = q.fields.field? j) :
    r.Tracked { q with fields := c, changes := q.changes.record k l v } := by
  refine ⟨h.ascending.put _ _, fun j f g hf hg => ?_, fun j hj => ?_⟩
  · dsimp only at hf hg
    rw [Changes.get?_record] at hf
    split at hf
    · rename_i hjk
      cases hf
      exact (hk g (hjk ▸ hg)).symm
    · rename_i hjk
      exact h.current j f g hf (hc j hjk ▸ hg)
  · dsimp only at hj ⊢
    rw [Changes.get?_record] at hj
    split at hj
    · cases hj
    · rename_i hjk
      rw [hc j hjk]
      exact h.untouched j hj

theorem Emptied.record (h : q.Emptied) (hk : c.field? k = none → v = .empty)
    (hc : ∀ j ≠ k, c.field? j = q.fields.field? j) :
    Emptied { q with fields := c, changes := q.changes.record k l v } := by
  intro j f hf hg
  dsimp only at hf hg
  rw [Changes.get?_record] at hf
  split at hf
  · rename_i hjk
    cases hf
    exact hk (hjk ▸ hg)
  · rename_i hjk
    exact h j f hf (hc j hjk ▸ hg)

end Steps

/-- One more note keeps the changes to the truth. -/
theorem Tracked.note (h : r.Tracked q) (hn : q.Noted P q') : r.Tracked q' := by
  cases hn with
  | put _ hc =>
    refine h.record (fun g hg => ?_) fun j hj => by rw [hc, if_neg hj]
    rw [hc, if_pos rfl] at hg
    exact (Option.some.inj hg).symm
  | drop _ hc =>
    refine h.record (fun g hg => ?_) fun j hj => by rw [hc, if_neg hj]
    rw [hc, if_pos rfl] at hg
    cases hg
  | deeper hk _ =>
    refine h.record (fun g hg => ?_) fun _ _ => rfl
    rw [hk] at hg
    cases hg

theorem Emptied.note (hP : ∀ v, P v → v.tree? = none) (hq : q.Holds P) (h : q.Emptied)
    (hn : q.Noted P q') : q'.Emptied := by
  cases hn with
  | put _ hc =>
    refine h.record (fun hk => ?_) fun j hj => by rw [hc, if_neg hj]
    rw [hc, if_pos rfl] at hk
    cases hk
  | drop _ hc => exact h.record (fun _ => rfl) fun j hj => by rw [hc, if_neg hj]
  | deeper _ htree =>
    obtain ⟨j, m, i, hj⟩ := htree
    cases hP _ (hq j _ hj)

theorem tracked_of_noted (hn : ReflTransGen (Noted P) q q') (h : r.Tracked q) : r.Tracked q' := by
  induction hn with
  | refl => exact h
  | tail _ hn ih => exact ih.note hn

theorem emptied_of_noted (hP : ∀ v, P v → v.tree? = none) (hn : ReflTransGen (Noted P) q q')
    (hq : q.Holds P) (h : q.Emptied) : q'.Emptied := by
  induction hn with
  | refl => exact h
  | tail hbefore hn ih => exact ih.note hP (holds_of_noted hbefore hq) hn

end Record

/-- What a run of operations on a record leads to, whichever of them fault. -/
def RecordId.perform (id : RecordId) (ops : List RecordOp) (s : Space) : Space :=
  ops.foldl (fun s op => final (op.run id) s) s

theorem RecordId.perform_logs {P : Value → Prop} (h0 : P .empty)
    (hc : ∀ w, P w → w.isCell = false) {id : RecordId} {ops : List RecordOp}
    (ho : ∀ op ∈ ops, op.Writes P) (s : Space) : s.Logs P id (id.perform ops s) := by
  induction ops generalizing s with
  | nil => exact refl_of (Space.Logs P id) s
  | cons op ops ih =>
    rw [List.forall_mem_cons] at ho
    exact trans_of (Space.Logs P id) (RecordOp.logs h0 hc ho.1 s) (ih ho.2 _)

section Periods

variable {s : Space} {id : RecordId} {k : Key} {l : Label} {v : Value} {c : Changes}

theorem RecordId.takeChanges_run : id.takeChanges s =
    .ok (s.record id).changes (s.setRecord id { s.record id with changes := ∅ }) := rfl

/-- A field that has been changed tells its value under its label, unless a field given up under
the same label had a smaller key. -/
theorem Space.WellKept.value?_of_tracked {r : Record} (hs : s.WellKept)
    (ht : r.Tracked (s.record id)) (he : (s.record id).Emptied)
    (hk : (s.record id).fields.field? k = some ⟨l, v⟩) (hl : l ≠ .empty)
    (hc : (s.record id).changes.contains k = true) :
    ((∀ j f, (s.record id).changes.get? j = some f → f.label = l → ¬ j.number < k.number) →
        (s.record id).changes.value? l = some v) ∧
      ((∃ j f, (s.record id).changes.get? j = some f ∧ f.label = l ∧ j.number < k.number) →
        (s.record id).changes.value? l = some .empty) := by
  obtain ⟨f, hf⟩ := Option.isSome_iff_exists.mp hc
  obtain rfl := ht.current k f _ hf hk
  constructor
  · intro hmin
    exact (Changes.value?_eq_some ht.ascending).mpr ⟨k, hf, hmin⟩
  · rintro ⟨j, g, hg, hgl, hjk⟩
    obtain ⟨w, hw⟩ := Changes.exists_value? ht.ascending hf
    obtain ⟨i, hi, hmin⟩ := (Changes.value?_eq_some ht.ascending).mp hw
    have hik : i.number < k.number := by
      have := hmin j g hg hgl
      omega
    have hgone : (s.record id).fields.field? i = none := by
      rw [Option.eq_none_iff_forall_ne_some]
      intro g' hg'
      obtain rfl := ht.current i _ g' hi hg'
      obtain rfl := (hs.contents (.record id)).label_unique hk hg' hl rfl
      omega
    have hempty : w = .empty := he i _ hi hgone
    rw [hw, hempty]

end Periods

/-- In every reachable space, let a record without cells and containers start on a period without
changes and go through any operations that write plain values. Sought under the label of a field
changed in the period, the changes taken at its end tell the present value of the field, unless a
field with a smaller key was given up under that label: then they tell that it is empty. -/
theorem Reachable.changes_by_label {s : Space} (h : Reachable s) {id : RecordId}
    (hp : (s.record id).Holds Value.IsPlain) (he : (s.record id).changes = ∅)
    {ops : List RecordOp} (ho : ∀ op ∈ ops, op.Writes Value.IsPlain) {c : Changes} {t : Space}
    (hc : id.takeChanges (id.perform ops s) = .ok c t) {k : Key} {l : Label} {v : Value}
    (hk : ((id.perform ops s).record id).fields.field? k = some ⟨l, v⟩) (hl : l ≠ .empty)
    (hch : c.contains k = true) :
    ((∀ j f, c.get? j = some f → f.label = l → ¬ j.number < k.number) →
        c.value? l = some v ∧ ∀ w, c.has l w = v.same w) ∧
      ((∃ j f, c.get? j = some f ∧ f.label = l ∧ j.number < k.number) →
        c.value? l = some .empty ∧ ∀ w, c.has l w = Value.empty.same w) := by
  rw [RecordId.takeChanges_run] at hc
  cases hc
  obtain ⟨hs, hn⟩ := RecordId.perform_logs Value.isPlain_empty (fun _ hw => hw.1) ho s h.wellKept hp
  have htracked := Record.tracked_of_noted hn.noted (Record.tracked_self he)
  have hemptied := Record.emptied_of_noted (fun _ hw => hw.2) hn.noted hp (Record.emptied_self he)
  obtain ⟨hmin, hhidden⟩ := hs.value?_of_tracked htracked hemptied hk hl hch
  constructor
  · intro hj
    exact ⟨hmin hj, Changes.has_of_value? (hmin hj)⟩
  · intro hj
    exact ⟨hhidden hj, Changes.has_of_value? (hhidden hj)⟩

/-- A field is given up, and another one takes its label. -/
def handedOn : List RecordOp :=
  [.add (.name "x") (.int 1), .remove ⟨1⟩, .write (.label (.name "x")) (.int 2)]

/-- The first record of all. -/
def firstRecord : Space := Space.after [.newRecord none 4]

theorem handedOn_writes : ∀ op ∈ handedOn, op.Writes Value.IsPlain := by
  rintro op hop
  simp only [handedOn, List.mem_cons, List.not_mem_nil, or_false] at hop
  rcases hop with rfl | rfl | rfl
  · exact ⟨rfl, rfl⟩
  · trivial
  · exact ⟨rfl, rfl⟩

theorem firstRecord_holds (P : Value → Prop) : (firstRecord.record ⟨1⟩).Holds P := by
  intro k f hf
  cases hf

theorem changes_by_label_handedOn :
    ((RecordId.perform ⟨1⟩ handedOn firstRecord).record ⟨1⟩).changes.value? (.name "x") =
        some .empty ∧
      ∀ w, ((RecordId.perform ⟨1⟩ handedOn firstRecord).record ⟨1⟩).changes.has (.name "x") w =
        Value.empty.same w :=
  ((Reachable.after _).changes_by_label (firstRecord_holds _) rfl handedOn_writes rfl
      (k := ⟨2⟩) (v := .int 2) (by decide) (by decide) (by decide)).2
    ⟨⟨1⟩, ⟨.name "x", .empty⟩, by decide, rfl, by decide⟩

/-- The changes do not always tell the present value of a field that has been changed. -/
theorem not_changes_tell_value :
    ¬ ∀ (s : Space), Reachable s → ∀ (id : RecordId), (s.record id).Holds Value.IsPlain →
      (s.record id).changes = ∅ → ∀ ops : List RecordOp, (∀ op ∈ ops, op.Writes Value.IsPlain) →
      ∀ (c : Changes) (t : Space), id.takeChanges (id.perform ops s) = .ok c t →
      ∀ (k : Key) (l : Label) (v : Value),
        ((id.perform ops s).record id).fields.field? k = some ⟨l, v⟩ → l ≠ .empty →
        c.contains k = true → c.value? l = some v := by
  intro h
  have htold := h firstRecord (Reachable.after _) ⟨1⟩ (firstRecord_holds _) rfl handedOn
    handedOn_writes _ _ rfl ⟨2⟩ (.name "x") (.int 2) (by decide) (by decide) (by decide)
  revert htold
  decide

end LiveRecords
