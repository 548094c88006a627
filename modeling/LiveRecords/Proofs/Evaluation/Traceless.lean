import LiveRecords.Proofs.Evaluation.Cycles
import LiveRecords.Proofs.Tables

/-! # Reads leave no trace

Evaluation changes nothing but the marks on live records: how many of their cells are under
evaluation, and a failure put off. When a read ends, in a value or in any fault, the marks are
what they were, so the space is the one the read began in, and nothing read later can tell.
-/

namespace LiveRecords

/-- The record with no cell under evaluation and no failure put off. -/
def Record.unmarked (r : Record) : Record := { r with depth := 0, pending := none }

namespace Space

/-- The same space but for the marks that evaluation leaves on live records. -/
structure Marked (s t : Space) : Prop where
  containers : t.containers = s.containers
  derived : t.derived = s.derived
  nextKey : t.nextKey = s.nextKey
  nextContainer : t.nextContainer = s.nextContainer
  nextDerived : t.nextDerived = s.nextDerived
  nextRecord : t.nextRecord = s.nextRecord
  records : ∀ id,
    (t.records.get? id).map Record.unmarked = (s.records.get? id).map Record.unmarked

variable {s t : Space} {id : RecordId}

instance : IsPreorder Space Marked where
  refl _ := ⟨rfl, rfl, rfl, rfl, rfl, rfl, fun _ => rfl⟩
  trans _ _ _ h h' :=
    ⟨h'.containers.trans h.containers, h'.derived.trans h.derived, h'.nextKey.trans h.nextKey,
      h'.nextContainer.trans h.nextContainer, h'.nextDerived.trans h.nextDerived,
      h'.nextRecord.trans h.nextRecord, fun id => (h'.records id).trans (h.records id)⟩

theorem Marked.alive (h : Marked s t) (id : RecordId) : t.alive id = s.alive id := by
  have := congrArg Option.isSome (h.records id)
  simpa [Space.alive, Table.contains] using this

theorem marked_setRecord (hl : s.alive id = true) (depth : Nat) (pending : Option Failure) :
    Marked s (s.setRecord id { s.record id with depth, pending }) := by
  obtain ⟨r, hr⟩ := Option.isSome_iff_exists.mp hl
  have hid : s.record id = r := by simp [record, hr]
  refine ⟨rfl, rfl, rfl, rfl, rfl, rfl, fun j => ?_⟩
  rw [get?_setRecord]
  split
  · rename_i hj
    rw [hj, hr, hid]
    rfl
  · rfl

theorem evalClosed_marked : Eval.Closed (OnSpace Marked) := by
  refine Eval.closed_onSpace fun {id m σ} hl hm => ?_
  obtain ⟨outcome, h⟩ := Eval.final_settling_space id m σ
  have hopened : Marked σ.space (Eval.deepen id σ).space := marked_setRecord hl _ _
  have hrun : Marked σ.space (final m (Eval.deepen id σ)).space :=
    trans_of Marked hopened (hm (Eval.deepen id σ))
  rw [OnSpace, h]
  dsimp only
  rw [Record.settle_record]
  exact trans_of Marked hrun (marked_setRecord ((hrun.alive id).trans hl) _ _)

/-- Where every evaluation that was opened is closed again, no mark is left. -/
theorem Quiet.eq_of_marked (hs : s.Quiet) (hm : Marked s t) (hb : Balanced s t) : t = s := by
  have unmarked : ∀ {u : Space}, u.Quiet → ∀ id,
      (u.records.get? id).map Record.unmarked = u.records.get? id := by
    intro u hu id
    cases hr : u.records.get? id with
    | none => rfl
    | some r =>
      have hid : u.record id = r := by simp [record, hr]
      have hd : r.depth = 0 := hid ▸ hu.depth id
      have hp : r.pending = none := hid ▸ hu.pending id
      simp [Record.unmarked, ← hd, ← hp]
  have ht : t.Quiet := hb.keeps hs
  have hrecords : t.records = s.records := by
    refine ht.ascending.ext hs.ascending fun id => ?_
    rw [← unmarked ht, ← unmarked hs, hm.records]
  obtain ⟨⟩ := t
  obtain ⟨⟩ := s
  obtain ⟨rfl, rfl, rfl, rfl, rfl, rfl, -⟩ := hm
  rw [Space.mk.injEq]
  exact ⟨rfl, rfl, hrecords, rfl, rfl, rfl, rfl⟩

/-- With no evaluation under way before, the space is the same after. -/
def Same (s t : Space) : Prop := s.Quiet → t = s

instance : IsPreorder Space Same where
  refl _ _ := rfl
  trans _ _ _ h h' hs := by
    obtain rfl := h hs
    exact h' hs

end Space

open Space (Same)

theorem RecordId.read_same (id : RecordId) (p : Place) : Moves Same (id.read p) := fun s hs =>
  hs.eq_of_marked (id.read_moves Space.evalClosed_marked p s)
    (id.read_moves Space.evalClosed_balanced p s)

theorem RecordId.evaluate_same (id : RecordId) (f : Formula) : Moves Same (id.evaluate f) :=
  fun s hs => hs.eq_of_marked (id.evaluate_moves Space.evalClosed_marked f s)
    (id.evaluate_moves Space.evalClosed_balanced f s)

theorem RecordId.fields_same (id : RecordId) : Moves Same id.fields := by
  have hc : Moves Same (Holder.record id).contents := moves_of_final fun _ => rfl
  refine hc.bind fun c => moves_mapM _ fun e _ => ?_
  exact (id.read_same _).bind fun v => moves_pure _

theorem RecordId.render_same (id : RecordId) : Moves Same id.render :=
  id.fields_same.bind fun _ => moves_get.bind fun _ => moves_pure _

theorem FieldName.read_same (n : FieldName) : Moves Same n.read := by
  have hr : Moves Same (Edit.resolve n.record) := moves_of_final (Edit.final_resolve n.record)
  exact hr.bind fun id => id.read_same _

/-- All that can be asked of records: a field, all fields, the fields written out, the value of a
formula, or a field by name. -/
inductive Query where
  | read (id : RecordId) (p : Place)
  | fields (id : RecordId)
  | render (id : RecordId)
  | evaluate (id : RecordId) (f : Formula)
  | named (n : FieldName)

inductive Query.Answer where
  | value (v : Value)
  | fields (fields : List (Label × Value))
  | text (s : Option String)

namespace Query

def run : Query → Edit Answer
  | read id p => .value <$> id.read p
  | fields id => .fields <$> id.fields
  | render id => .text <$> id.render
  | evaluate id f => .value <$> id.evaluate f
  | named n => .value <$> n.read

theorem run_same (q : Query) : Moves Same q.run := by
  cases q with
  | read id p => exact (id.read_same p).map _
  | fields id => exact id.fields_same.map _
  | render id => exact id.render_same.map _
  | evaluate id f => exact (id.evaluate_same f).map _
  | named n => exact n.read_same.map _

/-- The space after some queries, whichever of them fault. -/
def after (s : Space) (qs : List Query) : Space := qs.foldl (fun t q => final q.run t) s

theorem after_eq {s : Space} (h : s.Quiet) (qs : List Query) : after s qs = s := by
  induction qs with
  | nil => rfl
  | cons q qs ih =>
    have hq : final q.run s = s := q.run_same s h
    change after (final q.run s) qs = s
    rw [hq, ih]

end Query

/-- In every reachable space a query, whatever comes of it, leaves the space as it is: containers,
fields, changes and counters stay, and no record has a cell under evaluation or a failure put off.
So a query comes to the same, whichever queries went before. -/
theorem Reachable.query_traceless {s : Space} (h : Reachable s) (q : Query)
    (earlier : List Query) :
    final q.run s = s ∧
      (∀ id, ((final q.run s).record id).depth = 0 ∧ ((final q.run s).record id).pending = none) ∧
      q.run (Query.after s earlier) = q.run s := by
  have hq : final q.run s = s := q.run_same s h.quiet
  refine ⟨hq, fun id => ?_, by rw [Query.after_eq h.quiet]⟩
  rw [hq]
  exact ⟨h.quiet.depth id, h.quiet.pending id⟩

/-- A cycle that is met while a failure is put off leaves no trace either. -/
theorem query_traceless_failingDetour :
    fault (Query.read ⟨1⟩ (.label (.name "a"))).run (Space.after failingDetour) =
        some (.cycle "one" (.name "b")) ∧
      final (Query.read ⟨1⟩ (.label (.name "a"))).run (Space.after failingDetour) =
        Space.after failingDetour ∧
      (Query.read ⟨1⟩ (.label (.name "fails"))).run
          (Query.after (Space.after failingDetour) [.read ⟨1⟩ (.label (.name "a"))]) =
        (Query.read ⟨1⟩ (.label (.name "fails"))).run (Space.after failingDetour) := by
  have h := Reachable.after failingDetour
  exact ⟨by decide +kernel, (h.query_traceless (.read ⟨1⟩ (.label (.name "a"))) []).1,
    (h.query_traceless (.read ⟨1⟩ (.label (.name "fails")))
      [.read ⟨1⟩ (.label (.name "a"))]).2.2⟩

end LiveRecords
