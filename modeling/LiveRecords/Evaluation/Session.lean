import LiveRecords.Container.Editing

/-! # Evaluation sessions

One outermost read or write is one session. It knows the cells under evaluation, so that
meeting one of them again is a cycle, and the records that formulas are being evaluated for.
-/

namespace LiveRecords

/-- `flight` holds the cells under evaluation. The formula being evaluated is for the first of
`targets`. -/
structure Session where
  space : Space
  flight : List (RecordId × Key) := []
  targets : List RecordId := []

abbrev Eval := EStateM Fault Session

namespace Eval

variable {α : Type}

/-- An edit of the session's space. -/
def edit (e : Edit α) : Eval α := fun σ =>
  match e σ.space with
  | .ok a s => .ok a { σ with space := s }
  | .error f s => .error f { σ with space := s }

/-- Run a session of its own on a space. -/
def run (m : Eval α) : Edit α := fun s =>
  match m { space := s } with
  | .ok a σ => .ok a σ.space
  | .error f σ => .error f σ.space

theorem get_run (σ : Session) : (get : Eval Session) σ = .ok σ σ := rfl

def space : Eval Space := do return (← get).space

theorem space_run (σ : Session) : space σ = .ok σ.space σ := rfl

/-- Change the session after `m`, whether `m` faults or not. -/
def andThen (m : Eval α) (after : Except Fault α → Session → Session) : Eval α := fun σ =>
  match m σ with
  | .ok a σ => .ok a (after (.ok a) σ)
  | .error f σ => .error f (after (.error f) σ)

/-- Evaluate on behalf of a record. -/
def onTarget (id : RecordId) (m : Eval α) : Eval α := do
  modify fun σ => { σ with targets := id :: σ.targets }
  m.andThen fun _ σ => { σ with targets := σ.targets.tail }

/-- The record that formulas are evaluated for. -/
def target : Eval RecordId := do
  match (← get).targets with
  | id :: _ => return id
  | [] => throw (.refused .outsideRecord)

theorem target_run (σ : Session) :
    target σ = match σ.targets with
      | id :: _ => .ok id σ
      | [] => .error (.refused .outsideRecord) σ := by
  cases h : σ.targets <;>
    simp [target, bind, EStateM.bind, get_run, h] <;> rfl

theorem onTarget_run (id : RecordId) (m : Eval α) (σ : Session) :
    onTarget id m σ =
      m.andThen (fun _ τ => { τ with targets := τ.targets.tail })
        { σ with targets := id :: σ.targets } :=
  rfl

/-- Mark a cell as under evaluation during `m`. Meeting a marked cell is a cycle. A cycle
ends the whole session, so its marks are left behind. -/
def guarded (id : RecordId) (k : Key) (l : Label) (m : Eval α) : Eval α := do
  let σ ← get
  if σ.flight.contains (id, k) then throw (.cycle (σ.space.displayName id) l)
  set { σ with flight := (id, k) :: σ.flight }
  m.andThen fun outcome σ =>
    match outcome with
    | .error (.cycle _ _) => σ
    | _ => { σ with flight := σ.flight.erase (id, k) }

theorem guarded_of_mem {id : RecordId} {k : Key} {l : Label} (m : Eval α) {σ : Session}
    (h : σ.flight.contains (id, k) = true) :
    guarded id k l m σ = .error (.cycle (σ.space.displayName id) l) σ := by
  simp only [guarded, bind, EStateM.bind, get_run, h]
  rfl

theorem guarded_of_not_mem {id : RecordId} {k : Key} {l : Label} (m : Eval α) {σ : Session}
    (h : ¬ σ.flight.contains (id, k) = true) :
    guarded id k l m σ =
      m.andThen (fun outcome τ =>
        match outcome with
        | .error (.cycle _ _) => τ
        | _ => { τ with flight := τ.flight.erase (id, k) })
        { σ with flight := (id, k) :: σ.flight } := by
  simp only [guarded, bind, EStateM.bind, get_run, h]
  rfl

end Eval

/-- The outcome of evaluating one of a record's cells, the record's `depth` being what it was
before. A failure below the outermost cell is put off and an empty value takes its place; the
outermost cell answers with the first failure put off. -/
def Record.settle (r : Record) : Except Fault Value → Except Fault Value × Record
  | .ok v =>
    match r.depth, r.pending with
    | 0, some f => (.error (.failed f), { r with pending := none })
    | _, _ => (.ok v, r)
  | .error (.failed f) =>
    if r.depth = 0 then (.error (.failed (r.pending.getD f)), { r with pending := none })
    else (.ok .empty, { r with pending := some (r.pending.getD f) })
  | .error f => (.error f, if r.depth = 0 then { r with pending := none } else r)

theorem Record.settle_record (r : Record) (outcome : Except Fault Value) :
    (r.settle outcome).2 = { r with pending := (r.settle outcome).2.pending } := by
  unfold Record.settle
  split
  · split <;> rfl
  · split <;> rfl
  · split <;> rfl

theorem Record.settle_depth (r : Record) (outcome : Except Fault Value) :
    (r.settle outcome).2.depth = r.depth := by
  rw [settle_record]

/-- With no cell under evaluation any more, no failure is left put off. -/
theorem Record.settle_pending {r : Record} (h : r.depth = 0) (outcome : Except Fault Value) :
    (r.settle outcome).2.pending = none := by
  unfold Record.settle
  split
  · split
    · rfl
    · rename_i hn
      exact Option.eq_none_iff_forall_ne_some.mpr fun f hf => hn f h hf
  · rw [if_pos h]
  · rw [if_pos h]

theorem Record.settle_eq_ok {r r' : Record} {outcome : Except Fault Value} {v : Value}
    (h : r.settle outcome = (.ok v, r')) (hp : r'.pending = none) :
    outcome = .ok v ∧ r' = r := by
  unfold Record.settle at h
  split at h
  · split at h <;> cases h
    exact ⟨rfl, rfl⟩
  · split at h <;> cases h
    cases hp
  · cases h

theorem Record.settle_ok {r : Record} (hp : r.pending = none) (v : Value) :
    r.settle (.ok v) = (.ok v, r) := by
  simp [settle, hp]

theorem Record.settle_held {r : Record} {f : Failure} (h : r.depth ≠ 0) (hf : r.pending = some f)
    (outcome : Except Fault Value) : (r.settle outcome).2.pending = some f := by
  unfold Record.settle
  split
  · split
    · rename_i hd _
      exact absurd hd h
    · exact hf
  · simp [h, hf]
  · simp [h, hf]

namespace Eval

def deepen (id : RecordId) (σ : Session) : Session :=
  let r := σ.space.record id
  { σ with space := σ.space.setRecord id { r with depth := r.depth + 1 } }

theorem deepen_depth (id : RecordId) (σ : Session) (j : RecordId) :
    ((deepen id σ).space.record j).depth =
      if j = id then (σ.space.record id).depth + 1 else (σ.space.record j).depth := by
  simp only [deepen, Space.record_setRecord]
  split <;> rfl

theorem deepen_pending (id : RecordId) (σ : Session) (j : RecordId) :
    ((deepen id σ).space.record j).pending = (σ.space.record j).pending := by
  simp only [deepen, Space.record_setRecord]
  split
  · rename_i hj
    rw [hj]
  · rfl

/-- Close the evaluation of a cell of `id` with the given outcome. -/
def conclude (id : RecordId) (outcome : Except Fault Value) (σ : Session) :
    EStateM.Result Fault Session Value :=
  let r := σ.space.record id
  let (outcome, r) := { r with depth := r.depth - 1 }.settle outcome
  let σ := { σ with space := σ.space.setRecord id r }
  match outcome with
  | .ok v => .ok v σ
  | .error f => .error f σ

/-- Evaluate a cell of a record, putting failures off as `Record.settle` says. -/
def settling (id : RecordId) (m : Eval Value) : Eval Value := fun σ =>
  match m (deepen id σ) with
  | .ok v σ => conclude id (.ok v) σ
  | .error f σ => conclude id (.error f) σ

end Eval

end LiveRecords
