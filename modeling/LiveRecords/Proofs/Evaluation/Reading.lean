import LiveRecords.Formula.Functions
import LiveRecords.Proofs.Evaluation.Quiet
import LiveRecords.Proofs.Evaluation.Yields

/-! # Reading is plain evaluation

A read that succeeds has met no failure: one that was put off would still be pending, or would
have surfaced. So it leaves the session as it was and has a plain derivation. Conversely, a
derivation of least nesting never comes back to a cell it is evaluating, so the guard lets it
pass.
-/

namespace LiveRecords

variable {α β : Type}

namespace Space

/-- No record has put off a failure. -/
def Clear (s : Space) : Prop := ∀ id, (s.record id).pending = none

theorem Clear.settled {s : Space} (h : s.Clear) : s.Settled := fun id _ => h id

variable {s : Space} {id : RecordId} {p : Place} {k : Key} {f : Field}

theorem slot?_key (h : s.slot? id p = some (k, f)) : s.slot? id (.key k) = some (k, f) := by
  rw [slot?, Container.slot?_eq_some] at h
  rw [slot?, Container.slot?_key, h.2]
  rfl

theorem Yields.alive {n : Nat} {v : Value} (h : s.Yields n id p v) : s.alive id = true := by
  cases h with
  | plain hs => exact alive_of_slot? hs
  | cell hs => exact alive_of_slot? hs
  | deeper hs hv =>
    cases hr : s.records.get? id with
    | some r => simp [Space.alive, Table.contains, hr]
    | none =>
      have he : (s.record id).fields = {} := by simp [record, hr]
      rw [he] at hv
      cases p with
      | label l => cases hv
      | key k =>
        have hl : s.locate {} k = none := by
          unfold locate
          cases s.nestingBound <;> rfl
        simp [Space.value, Space.field, Space.field?, hl, Except.map] at hv

theorem yields_key_iff (h : s.slot? id p = some (k, f)) {n : Nat} {v : Value} :
    s.Yields n id (.key k) v ↔ s.Yields n id p v := by
  obtain ⟨l, w⟩ := f
  cases hw : w.isCell with
  | false => rw [yields_plain_iff h hw, yields_plain_iff (slot?_key h) hw]
  | true =>
    cases w with
    | cell c => rw [yields_cell_iff h, yields_cell_iff (slot?_key h)]
    | _ => cases hw

end Space

/-- A session on a space that holds what `s` holds, its records in order and no failure put
off. -/
structure Session.Over (σ : Session) (s : Space) : Prop where
  agree : s.Agree σ.space
  ascending : σ.space.records.Ascending
  clear : σ.space.Clear

namespace Eval

section Inversion

variable {m : Eval α} {σ τ : Session} {a : α} {id : RecordId} {k : Key} {l : Label}

theorem andThen_eq_ok {after : Except Fault α → Session → Session} :
    m.andThen after σ = .ok a τ ↔ ∃ ρ, m σ = .ok a ρ ∧ τ = after (.ok a) ρ := by
  cases h : m σ with
  | ok b ρ =>
    simp only [andThen, h, EStateM.Result.ok.injEq]
    constructor
    · rintro ⟨rfl, rfl⟩
      exact ⟨ρ, ⟨rfl, rfl⟩, rfl⟩
    · rintro ⟨_, ⟨rfl, rfl⟩, rfl⟩
      exact ⟨rfl, rfl⟩
  | error f ρ => simp [andThen, h]

theorem onTarget_eq_ok :
    onTarget id m σ = .ok a τ ↔
      ∃ ρ, m { σ with targets := id :: σ.targets } = .ok a ρ ∧
        τ = { ρ with targets := ρ.targets.tail } := by
  rw [onTarget_run]
  exact andThen_eq_ok

theorem guarded_eq_ok :
    guarded id k l m σ = .ok a τ ↔
      (id, k) ∉ σ.flight ∧ ∃ ρ, m { σ with flight := (id, k) :: σ.flight } = .ok a ρ ∧
        τ = { ρ with flight := ρ.flight.erase (id, k) } := by
  by_cases h : (id, k) ∈ σ.flight
  · simp [guarded_of_mem m (List.contains_iff_mem.mpr h), h]
  · rw [guarded_of_not_mem m (by simpa using h)]
    simp only [h, not_false_eq_true, true_and]
    exact andThen_eq_ok

end Inversion

/-- One cell of a record less under evaluation. -/
def emerge (id : RecordId) (σ : Session) : Session :=
  let r := σ.space.record id
  { σ with space := σ.space.setRecord id { r with depth := r.depth - 1 } }

theorem clear_of_emerge {id : RecordId} {ρ : Session} (h : (emerge id ρ).space.Clear) :
    ρ.space.Clear := by
  intro j
  have hj := h j
  simp only [emerge, Space.record_setRecord] at hj
  split at hj
  · rename_i he
    exact he ▸ hj
  · exact hj

theorem conclude_eq_ok {outcome : Except Fault Value} {ρ τ : Session} {v : Value} {id : RecordId}
    (hτ : τ.space.Clear) (h : conclude id outcome ρ = .ok v τ) :
    outcome = .ok v ∧ τ = emerge id ρ := by
  simp only [conclude] at h
  cases hs : { ρ.space.record id with depth := (ρ.space.record id).depth - 1 }.settle outcome with
  | mk o r =>
    rw [hs] at h
    cases o with
    | error f => cases h
    | ok w =>
      cases h
      have hp : r.pending = none := by simpa using hτ id
      obtain ⟨ho, rfl⟩ := Record.settle_eq_ok hs hp
      exact ⟨ho, rfl⟩

theorem settling_eq_ok {m : Eval Value} {σ τ : Session} {v : Value} {id : RecordId}
    (hτ : τ.space.Clear) (h : settling id m σ = .ok v τ) :
    ∃ ρ, m (deepen id σ) = .ok v ρ ∧ τ = emerge id ρ := by
  cases hm : m (deepen id σ) with
  | ok w ρ =>
    simp only [settling, hm] at h
    obtain ⟨ho, rfl⟩ := conclude_eq_ok hτ h
    cases ho
    exact ⟨ρ, rfl, rfl⟩
  | error f ρ =>
    simp only [settling, hm] at h
    obtain ⟨ho, -⟩ := conclude_eq_ok hτ h
    cases ho

theorem settling_of_ok {m : Eval Value} {σ ρ : Session} {v : Value} {id : RecordId}
    (hp : (ρ.space.record id).pending = none) (h : m (deepen id σ) = .ok v ρ) :
    settling id m σ = .ok v (emerge id ρ) := by
  simp only [settling, h, conclude]
  rw [Record.settle_ok (by exact hp)]
  rfl

/-- The session in which a cell is evaluated. -/
def enter (id : RecordId) (k : Key) (σ : Session) : Session :=
  { deepen id σ with flight := (id, k) :: σ.flight }

/-- The session in which the evaluation of a cell leaves off. -/
def leave (id : RecordId) (k : Key) (σ : Session) : Session :=
  emerge id { σ with flight := σ.flight.erase (id, k) }

theorem leave_enter {σ : Session} {id : RecordId} {k : Key} (ha : σ.space.records.Ascending)
    (hl : σ.space.alive id = true) : leave id k (enter id k σ) = σ := by
  obtain ⟨r, hr⟩ := Option.isSome_iff_exists.mp hl
  have hid : σ.space.record id = r := by simp [Space.record, hr]
  have hput : σ.space.setRecord id { σ.space.record id with
      depth := (σ.space.record id).depth + 1 - 1 } = σ.space := by
    rw [hid]
    exact Space.setRecord_of_get? ha hr
  have hflight : ((id, k) :: σ.flight).erase (id, k) = σ.flight := List.erase_cons_head ..
  simp only [leave, enter, emerge, deepen, Space.record_setRecord_self, Space.setRecord_setRecord]
  rw [hput, hflight]

theorem settling_guarded_eq_ok {m : Eval Value} {σ τ : Session} {id : RecordId} {k : Key}
    {l : Label} {v : Value} (hτ : τ.space.Clear)
    (h : settling id (guarded id k l m) σ = .ok v τ) :
    ∃ ρ, m (enter id k σ) = .ok v ρ ∧ ρ.space.Clear ∧ τ = leave id k ρ := by
  obtain ⟨π, hg, rfl⟩ := settling_eq_ok hτ h
  rw [guarded_eq_ok] at hg
  obtain ⟨-, ρ, hm, rfl⟩ := hg
  exact ⟨ρ, hm, clear_of_emerge (ρ := { ρ with flight := _ }) hτ, rfl⟩

theorem settling_guarded_of_ok {m : Eval Value} {σ ρ : Session} {id : RecordId} {k : Key}
    {l : Label} {v : Value} (hk : (id, k) ∉ σ.flight) (hρ : ρ.space.Clear)
    (h : m (enter id k σ) = .ok v ρ) :
    settling id (guarded id k l m) σ = .ok v (leave id k ρ) := by
  have hg : guarded id k l m (deepen id σ) =
      .ok v { ρ with flight := ρ.flight.erase (id, k) } :=
    guarded_eq_ok.mpr ⟨hk, ρ, h, rfl⟩
  exact settling_of_ok (hρ id) hg

end Eval

theorem Session.Over.of_space {σ ρ : Session} {s : Space} (h : σ.Over s)
    (he : ρ.space = σ.space) : ρ.Over s :=
  ⟨he ▸ h.agree, he ▸ h.ascending, he ▸ h.clear⟩

theorem Session.Over.enter {σ : Session} {s : Space} {id : RecordId} (h : σ.Over s)
    (hl : s.alive id = true) (k : Key) : (Eval.enter id k σ).Over s where
  agree := h.agree.trans (.setRecord ((h.agree.alive id).trans hl) rfl rfl)
  ascending := h.ascending.put id _
  clear j := (Eval.deepen_pending id σ j).trans (h.clear j)

section Handles

variable {σ τ : Session} {s : Space} {a : α}

theorem Eval.resolve_run (ha : s.Agree σ.space) (n : RecordName) :
    Eval.edit (Edit.resolve n) σ =
      if s.alive n.target then .ok n.target σ else .error (.notFound (.record n.text)) σ := by
  rw [Eval.edit, Edit.resolve_run, ha.alive]
  cases s.alive n.target <;> rfl

theorem Eval.follow_run (ha : s.Agree σ.space) (target : RecordId) (l : Label) :
    Eval.edit (Edit.follow target l) σ =
      if s.alive target then .ok target σ else .error (.notFound (.referenced l)) σ := by
  rw [Eval.edit, Edit.follow_run, ha.alive]
  cases s.alive target <;> rfl

theorem Eval.resolve_bind_eq_ok {n : RecordName} {f : RecordId → Eval α} (hσ : σ.Over s)
    (h : (Eval.edit (Edit.resolve n) >>= f) σ = .ok a τ) :
    s.alive n.target = true ∧ f n.target σ = .ok a τ := by
  rw [bind_eq_ok_iff, Eval.resolve_run hσ.agree] at h
  obtain ⟨id, ρ, hid, h⟩ := h
  split at hid <;> cases hid
  exact ⟨‹_›, h⟩

theorem Eval.follow_bind_eq_ok {target : RecordId} {l : Label} {f : RecordId → Eval α}
    (hσ : σ.Over s) (h : (Eval.edit (Edit.follow target l) >>= f) σ = .ok a τ) :
    s.alive target = true ∧ f target σ = .ok a τ := by
  rw [bind_eq_ok_iff, Eval.follow_run hσ.agree] at h
  obtain ⟨id, ρ, hid, h⟩ := h
  split at hid <;> cases hid
  exact ⟨‹_›, h⟩

end Handles

section Soundness

open Space (Balanced Clear)

/-- In a run that ends with no failure put off, none was put off on the way. -/
theorem Eval.bind_eq_ok_clear {m : Eval α} {f : α → Eval β} {σ τ : Session} {b : β}
    (hm : Moves (OnSpace Balanced) m) (hf : ∀ a, Moves (OnSpace Balanced) (f a))
    (hσ : σ.space.Clear) (hτ : τ.space.Clear) (h : (m >>= f) σ = .ok b τ) :
    ∃ a ρ, m σ = .ok a ρ ∧ ρ.space.Clear ∧ f a ρ = .ok b τ := by
  obtain ⟨a, ρ, ha, hb⟩ := bind_eq_ok_iff.mp h
  have hσρ : Balanced σ.space ρ.space := final_of_ok ha ▸ hm σ
  have hρτ : Balanced ρ.space τ.space := final_of_ok hb ▸ hf a ρ
  exact ⟨a, ρ, ha, hρτ.pending_eq_none (hσρ.settled hσ.settled) hτ, hb⟩

/-- What the reader answers without a failure put off, fields yield with cells nested up to `n`
deep. -/
structure Reader.Sound (s : Space) (n : Nat) (read : Reader) : Prop where
  moves : ∀ id p, Moves (OnSpace Balanced) (read id p)
  ok : ∀ {id p σ τ v}, σ.Over s → τ.space.Clear → read id p σ = .ok v τ →
    τ = σ ∧ s.Yields n id p v

variable {s : Space} {n : Nat} {read : Reader}

mutual

theorem Formula.eval_sound (hr : Reader.Sound s n read) (f : Formula) {id : RecordId}
    {σ τ : Session} {v : Value} (hσ : σ.Over s) (hτ : τ.space.Clear)
    (h : f.eval read id σ = .ok v τ) : τ = σ ∧ s.FormulaYields n id f v := by
  cases f with
  | mk name apply operands =>
    rw [Formula.eval, Eval.onTarget_eq_ok] at h
    obtain ⟨ρ, h, rfl⟩ := h
    rw [bind_eq_ok_iff] at h
    obtain ⟨vs, π, hvs, h⟩ := h
    rw [bind_of_ok (Eval.space_run π)] at h
    cases hw : apply π.space.plainText vs with
    | ok w =>
      rw [hw] at h
      cases h
      have hσ' : Session.Over { σ with targets := id :: σ.targets } s := hσ.of_space rfl
      have hρ : ρ.space.Clear := hτ
      obtain ⟨rfl, hys⟩ := Operand.evalAll_sound hr operands hσ' hρ rfl hvs
      exact ⟨rfl, .apply hys (hσ.agree.plainText ▸ hw)⟩
    | error e =>
      rw [hw] at h
      cases h

theorem Operand.eval_sound (hr : Reader.Sound s n read) (a : Operand) {id : RecordId}
    {targets : List RecordId} {σ τ : Session} {v : Value} (hσ : σ.Over s) (hτ : τ.space.Clear)
    (ht : σ.targets = id :: targets) (h : a.eval read σ = .ok v τ) :
    τ = σ ∧ s.OperandYields n id a v := by
  have htarget : Eval.target σ = .ok id σ := by rw [Eval.target_run, ht]
  cases a with
  | constant w =>
    cases h
    exact ⟨rfl, .constant⟩
  | here l =>
    rw [Operand.eval, bind_of_ok htarget] at h
    obtain ⟨rfl, hy⟩ := hr.ok hσ hτ h
    exact ⟨rfl, .here hy⟩
  | nested f =>
    rw [Operand.eval, bind_of_ok htarget] at h
    obtain ⟨rfl, hf⟩ := Formula.eval_sound hr f hσ hτ h
    exact ⟨rfl, .nested hf⟩
  | field name =>
    obtain ⟨ha, h⟩ := Eval.resolve_bind_eq_ok hσ h
    obtain ⟨rfl, hy⟩ := hr.ok hσ hτ h
    exact ⟨rfl, .field ha hy⟩

theorem Operand.evalAll_sound (hr : Reader.Sound s n read) (as : List Operand) {id : RecordId}
    {targets : List RecordId} {σ τ : Session} {vs : List Value} (hσ : σ.Over s)
    (hτ : τ.space.Clear) (ht : σ.targets = id :: targets)
    (h : Operand.evalAll read as σ = .ok vs τ) :
    τ = σ ∧ s.OperandsYield n id as vs := by
  cases as with
  | nil =>
    cases h
    exact ⟨rfl, .nil⟩
  | cons a as =>
    have closed := Space.evalClosed_balanced
    rw [Operand.evalAll] at h
    obtain ⟨v, ρ, hv, hρ, hrest⟩ := Eval.bind_eq_ok_clear (a.eval_moves closed hr.moves)
      (fun _ => (Operand.evalAll_moves closed hr.moves as).bind fun _ => moves_pure _)
      hσ.clear hτ h
    obtain ⟨rfl, hy⟩ := Operand.eval_sound hr a hσ hρ ht hv
    rw [bind_eq_ok_iff] at hrest
    obtain ⟨vs, π, hvs, hpure⟩ := hrest
    cases hpure
    obtain ⟨rfl, hys⟩ := Operand.evalAll_sound hr as hσ hτ ht hvs
    exact ⟨rfl, .cons hy hys⟩

end

theorem Cell.eval_sound (hr : Reader.Sound s n read) (owner : RecordId) (c : Cell)
    {σ τ : Session} {v : Value} (hσ : σ.Over s) (hτ : τ.space.Clear)
    (h : c.eval read owner σ = .ok v τ) : τ = σ ∧ s.CellYields n owner c v := by
  cases c with
  | derived i =>
    rw [Cell.eval, bind_of_ok (Eval.space_run σ)] at h
    obtain ⟨rfl, hf⟩ := Formula.eval_sound hr _ hσ hτ h
    exact ⟨rfl, .derived (hσ.agree.derivation i ▸ hf)⟩
  | reference target l =>
    obtain ⟨ha, h⟩ := Eval.follow_bind_eq_ok hσ h
    obtain ⟨rfl, hy⟩ := hr.ok hσ hτ h
    exact ⟨rfl, .reference ha hy⟩

section Readers

variable {evaluate : RecordId → Key → Label → Cell → Eval Value} {σ : Session} {id : RecordId}
  {p : Place} {k : Key} {l : Label} {v : Value}

theorem readBy_plain (hs : σ.space.slot? id p = some (k, ⟨l, v⟩)) (hv : v.isCell = false) :
    readBy evaluate id p σ = .ok v σ := by
  rw [readBy, bind_of_ok (Eval.space_run σ)]
  cases v with
  | cell c => cases hv
  | _ => simp only [hs]; rfl

theorem readWithin_plain {limit room : Nat} (hs : σ.space.slot? id p = some (k, ⟨l, v⟩))
    (hv : v.isCell = false) : readWithin limit room id p σ = .ok v σ := by
  cases room <;> exact readBy_plain hs hv

theorem readBy_cell {c : Cell} (hs : σ.space.slot? id p = some (k, ⟨l, .cell c⟩)) :
    readBy evaluate id p σ = evaluate id k l c σ := by
  rw [readBy, bind_of_ok (Eval.space_run σ)]
  simp [hs]

theorem readBy_deeper (hs : σ.space.slot? id p = none) :
    readBy evaluate id p σ =
      match σ.space.value (σ.space.record id).fields p with
      | .ok v => .ok v σ
      | .error e => .error e σ := by
  rw [readBy, bind_of_ok (Eval.space_run σ)]
  simp only [hs]
  cases σ.space.value (σ.space.record id).fields p <;> rfl

end Readers

theorem readBy_ok {evaluate : RecordId → Key → Label → Cell → Eval Value}
    (he : ∀ {id k l c σ τ v}, s.alive id = true → σ.Over s → τ.space.Clear →
      evaluate id k l c σ = .ok v τ → τ = σ ∧ ∃ m, n = m + 1 ∧ s.CellYields m id c v)
    {id : RecordId} {p : Place} {σ τ : Session} {v : Value} (hσ : σ.Over s) (hτ : τ.space.Clear)
    (h : readBy evaluate id p σ = .ok v τ) : τ = σ ∧ s.Yields n id p v := by
  cases hs : s.slot? id p with
  | none =>
    rw [readBy_deeper ((hσ.agree.slot? id p).trans hs), hσ.agree.value, hσ.agree.fields] at h
    cases hv : s.value (s.record id).fields p with
    | ok w =>
      rw [hv] at h
      cases h
      exact ⟨rfl, .deeper hs hv⟩
    | error e =>
      rw [hv] at h
      cases h
  | some e =>
    obtain ⟨k, l, w⟩ := e
    have hs' := (hσ.agree.slot? id p).trans hs
    cases hw : w.isCell with
    | false =>
      rw [readBy_plain hs' hw] at h
      cases h
      exact ⟨rfl, .plain hs hw⟩
    | true =>
      cases w with
      | cell c =>
        rw [readBy_cell hs'] at h
        obtain ⟨rfl, hc⟩ := he (Space.alive_of_slot? hs) hσ hτ h
        exact ⟨rfl, (Space.yields_cell_iff hs).mpr hc⟩
      | _ => cases hw

theorem readWithin_sound (limit room : Nat) : Reader.Sound s room (readWithin limit room) := by
  induction room with
  | zero =>
    refine ⟨readWithin_moves Space.evalClosed_balanced limit 0, readBy_ok ?_⟩
    intro id k l c σ τ v _ hσ hτ h
    obtain ⟨ρ, hthrow, -⟩ := Eval.settling_eq_ok hτ h
    cases hthrow
  | succ room ih =>
    refine ⟨readWithin_moves Space.evalClosed_balanced limit (room + 1), readBy_ok ?_⟩
    intro id k l c σ τ v hl hσ hτ h
    obtain ⟨ρ, hc, hρ, rfl⟩ := Eval.settling_guarded_eq_ok hτ h
    obtain ⟨rfl, hy⟩ := Cell.eval_sound ih id c (hσ.enter hl k) hρ hc
    exact ⟨Eval.leave_enter hσ.ascending ((hσ.agree.alive id).trans hl), room, rfl, hy⟩

end Soundness

section Completeness

/-- Sessions over `s` in which just these cells are under evaluation answer what fields yield
with cells nested up to `n` deep. -/
def Reader.Answers (s : Space) (n : Nat) (flight : List (RecordId × Key)) (read : Reader) : Prop :=
  ∀ {id p v} {σ : Session}, σ.Over s → σ.flight = flight → s.Yields n id p v →
    read id p σ = .ok v σ

variable {s : Space} {n : Nat} {flight : List (RecordId × Key)} {read : Reader}

mutual

theorem Formula.eval_of_yields (hr : Reader.Answers s n flight read) (f : Formula)
    {id : RecordId} {σ : Session} {v : Value} (hσ : σ.Over s) (hf : σ.flight = flight)
    (h : s.FormulaYields n id f v) : f.eval read id σ = .ok v σ := by
  cases f with
  | mk name apply operands =>
    cases h with
    | apply hvs hv =>
      have hσ' : Session.Over { σ with targets := id :: σ.targets } s := hσ.of_space rfl
      have hall := Operand.evalAll_of_yields hr operands hσ' hf rfl hvs
      rw [Formula.eval, Eval.onTarget_eq_ok]
      refine ⟨{ σ with targets := id :: σ.targets }, ?_, rfl⟩
      rw [bind_of_ok hall, bind_of_ok (Eval.space_run _), hσ'.agree.plainText, hv]
      rfl

theorem Operand.eval_of_yields (hr : Reader.Answers s n flight read) (a : Operand)
    {id : RecordId} {targets : List RecordId} {σ : Session} {v : Value} (hσ : σ.Over s)
    (hf : σ.flight = flight) (ht : σ.targets = id :: targets) (h : s.OperandYields n id a v) :
    a.eval read σ = .ok v σ := by
  have htarget : Eval.target σ = .ok id σ := by rw [Eval.target_run, ht]
  cases a with
  | constant w => cases h; rfl
  | here l =>
    cases h with
    | here hy =>
      rw [Operand.eval, bind_of_ok htarget]
      exact hr hσ hf hy
  | nested f =>
    cases h with
    | nested hy =>
      rw [Operand.eval, bind_of_ok htarget]
      exact Formula.eval_of_yields hr f hσ hf hy
  | field name =>
    cases h with
    | field ha hy =>
      rw [Operand.eval, bind_of_ok (by rw [Eval.resolve_run hσ.agree, if_pos ha])]
      exact hr hσ hf hy

theorem Operand.evalAll_of_yields (hr : Reader.Answers s n flight read) (as : List Operand)
    {id : RecordId} {targets : List RecordId} {σ : Session} {vs : List Value} (hσ : σ.Over s)
    (hf : σ.flight = flight) (ht : σ.targets = id :: targets) (h : s.OperandsYield n id as vs) :
    Operand.evalAll read as σ = .ok vs σ := by
  cases as with
  | nil => cases h; rfl
  | cons a as =>
    cases h with
    | cons hv hvs =>
      rw [Operand.evalAll, bind_of_ok (Operand.eval_of_yields hr a hσ hf ht hv),
        bind_of_ok (Operand.evalAll_of_yields hr as hσ hf ht hvs)]
      rfl

end

theorem Cell.eval_of_yields (hr : Reader.Answers s n flight read) (owner : RecordId) (c : Cell)
    {σ : Session} {v : Value} (hσ : σ.Over s) (hf : σ.flight = flight)
    (h : s.CellYields n owner c v) : c.eval read owner σ = .ok v σ := by
  cases h with
  | derived hy =>
    rw [Cell.eval, bind_of_ok (Eval.space_run σ), hσ.agree.derivation]
    exact Formula.eval_of_yields hr _ hσ hf hy
  | reference ha hy =>
    rw [Cell.eval, bind_of_ok (by rw [Eval.follow_run hσ.agree, if_pos ha])]
    exact hr hσ hf hy

/-- None of these cells has a value with cells nested up to `n` deep. -/
def Barren (s : Space) (n : Nat) (flight : List (RecordId × Key)) : Prop :=
  ∀ e ∈ flight, ∀ v, ¬ s.Yields n e.1 (.key e.2) v

theorem Barren.of_le {m : Nat} (h : Barren s m flight) (hnm : n ≤ m) : Barren s n flight :=
  fun e he v hv => h e he v (hv.mono hnm)

theorem readBy_of_yields {evaluate : RecordId → Key → Label → Cell → Eval Value} {id : RecordId}
    {p : Place} {σ : Session} {v : Value} (hσ : σ.Over s)
    (he : ∀ {m k l c}, n = m + 1 → s.slot? id p = some (k, ⟨l, .cell c⟩) →
      s.CellYields m id c v → evaluate id k l c σ = .ok v σ)
    (h : s.Yields n id p v) : readBy evaluate id p σ = .ok v σ := by
  cases h with
  | plain hs hv => exact readBy_plain ((hσ.agree.slot? id p).trans hs) hv
  | deeper hs hv =>
    rw [readBy_deeper ((hσ.agree.slot? id p).trans hs), hσ.agree.value, hσ.agree.fields, hv]
  | cell hs hc =>
    rw [readBy_cell ((hσ.agree.slot? id p).trans hs)]
    exact he rfl hs hc

/-- Within `n`, a cell that is not under evaluation and yields a value is read as that value.
The induction is on `n`: where the cell yields its value with less nesting already, the claim
for that nesting applies; where it does not, the cell itself joins those without a value. -/
theorem readWithin_of_yields (limit : Nat) {room : Nat} (hn : n ≤ room)
    (hb : Barren s n flight) : Reader.Answers s n flight (readWithin limit room) := by
  induction n generalizing room flight with
  | zero =>
    intro id p v σ hσ hf h
    cases room <;> exact readBy_of_yields hσ (fun h0 => by cases h0) h
  | succ n ih =>
    intro id p v σ hσ hf h
    obtain ⟨room, rfl⟩ : ∃ r, room = r + 1 := ⟨room - 1, by omega⟩
    have hroom : n ≤ room := Nat.le_of_succ_le_succ hn
    by_cases hless : s.Yields n id p v
    · exact ih (Nat.le_succ_of_le hroom) (hb.of_le (Nat.le_succ n)) hσ hf hless
    · refine readBy_of_yields hσ ?_ h
      intro m k l c hm hs hc
      cases hm
      have hl := Space.alive_of_slot? hs
      have hk : (id, k) ∉ σ.flight := fun hmem =>
        hb (id, k) (hf ▸ hmem) v ((Space.yields_key_iff hs).mpr h)
      have hbarren : Barren s n ((id, k) :: σ.flight) := by
        intro e he w hw
        rcases List.mem_cons.mp he with rfl | he
        · have hw' := (Space.yields_key_iff hs).mp hw
          exact hless (hw'.unique h ▸ hw')
        · exact hb e (hf ▸ he) w (hw.mono (Nat.le_succ n))
      have hover := hσ.enter hl k
      have heval : c.eval (readWithin limit room) id (Eval.enter id k σ) =
          .ok v (Eval.enter id k σ) :=
        Cell.eval_of_yields (ih hroom hbarren) id c hover rfl hc
      have hread := Eval.settling_guarded_of_ok (l := l) hk hover.clear heval
      rwa [Eval.leave_enter hσ.ascending ((hσ.agree.alive id).trans hl)] at hread

end Completeness

section Reads

variable {s t : Space} {id : RecordId} {p : Place} {v : Value}

theorem Eval.run_eq_ok {m : Eval α} {a : α} :
    Eval.run m s = .ok a t ↔ ∃ τ, m { space := s } = .ok a τ ∧ t = τ.space := by
  cases h : m { space := s } with
  | ok b τ =>
    simp only [Eval.run, h, EStateM.Result.ok.injEq]
    constructor
    · rintro ⟨rfl, rfl⟩
      exact ⟨τ, ⟨rfl, rfl⟩, rfl⟩
    · rintro ⟨_, ⟨rfl, rfl⟩, rfl⟩
      exact ⟨rfl, rfl⟩
  | error f τ => simp [Eval.run, h]

theorem RecordId.read_plain {k : Key} {l : Label} (hs : s.slot? id p = some (k, ⟨l, v⟩))
    (hv : v.isCell = false) : id.read p s = .ok v s :=
  Eval.run_eq_ok.mpr ⟨{ space := s }, readWithin_plain hs hv, rfl⟩

theorem Space.Quiet.over (h : s.Quiet) : Session.Over { space := s } s :=
  ⟨.refl s, h.ascending, h.pending⟩

/-- In a space without evaluation under way, a read answers just what plain evaluation yields
within the record's limit, and leaves no trace. -/
theorem Space.Quiet.read_eq_ok_iff (h : s.Quiet) :
    id.read p s = .ok v t ↔ t = s ∧ s.Yields (s.record id).maxDepth id p v := by
  have hread : id.read p s =
      Eval.run (readWithin (s.record id).maxDepth (s.record id).maxDepth id p) s := rfl
  rw [hread, Eval.run_eq_ok]
  have sound := readWithin_sound (s := s) (s.record id).maxDepth (s.record id).maxDepth
  constructor
  · rintro ⟨τ, hτ, rfl⟩
    have hb : Space.Balanced s τ.space := final_of_ok hτ ▸ sound.moves id p { space := s }
    obtain ⟨rfl, hy⟩ := sound.ok h.over (hb.keeps h).pending hτ
    exact ⟨rfl, hy⟩
  · rintro ⟨rfl, hy⟩
    have hb : Barren t (t.record id).maxDepth [] := nofun
    exact ⟨{ space := t }, readWithin_of_yields _ (Nat.le_refl _) hb h.over rfl hy, rfl⟩

end Reads

/-- In every reachable space a read of a field succeeds with a value if and only if plain
evaluation yields that value with no more cells nested in one another than the record read from
allows. -/
theorem Reachable.read_iff_yields {s : Space} (h : Reachable s) (id : RecordId) (p : Place)
    (v : Value) :
    (∃ t, id.read p s = .ok v t) ↔ s.Yields (s.record id).maxDepth id p v := by
  simp only [h.quiet.read_eq_ok_iff, exists_eq_left]

/-- A field of the first record that leads to the second one and from there back to the first. -/
def roundTrip : List Operation :=
  [.newRecord none 3, .newRecord none 0,
    .newDerived { getter := .mk "first" Function.first [.field ⟨⟨"second", ⟨2⟩⟩, .name "b"⟩] },
    .newDerived { getter := .mk "first" Function.first [.nested (.mk "first" Function.first
      [.here (.name "x")])] },
    .record ⟨1⟩ (.add (.name "x") (.bool true)),
    .record ⟨1⟩ (.add (.name "a") (.cell (.derived ⟨1⟩))),
    .record ⟨1⟩ (.add (.name "c") (.cell (.derived ⟨2⟩))),
    .record ⟨2⟩ (.add (.name "b") (.cell (.reference ⟨1⟩ (.name "c"))))]

theorem read_iff_yields_roundTrip :
    (∃ t, RecordId.read ⟨1⟩ (.label (.name "a")) (Space.after roundTrip) = .ok (.bool true) t) ∧
      (Space.after roundTrip).Yields 3 ⟨1⟩ (.label (.name "a")) (.bool true) := by
  have ha : answer (RecordId.read ⟨1⟩ (.label (.name "a"))) (Space.after roundTrip) =
      some (.bool true) := by decide +kernel
  have hread := answer_eq_some_iff.mp ha
  exact ⟨hread, ((Reachable.after roundTrip).read_iff_yields _ _ _).mp hread⟩

end LiveRecords
