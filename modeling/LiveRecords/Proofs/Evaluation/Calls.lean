import Mathlib.Order.RelClasses
import LiveRecords.Proofs.Evaluation.Restoring

/-! # Nested calls

Reads, writes and formulas call one another. The calls that a call comes to make are told here as a
relation, each with the session it is made in; what comes before it in that session is what the
programs themselves do. A fault that is no failure of a formula passes through all callers, and one
that the guard finds is found by a call that reaches a cell.
-/

namespace LiveRecords

open Relation (ReflTransGen)

variable {α β : Type}

inductive Call where
  | read (id : RecordId) (p : Place)
  | write (id : RecordId) (p : Place) (v : Value)
  | formula (f : Formula) (id : RecordId)
  | operand (a : Operand)

/-- Carry out a call with room for so many more nested cells. -/
def Call.run (limit room : Nat) : Call → Eval Unit
  | read id p => discard (readWithin limit room id p)
  | write id p v => discard (writeWithin limit room id p v)
  | formula f id => discard (f.eval (readWithin limit room) id)
  | operand a => discard (a.eval (readWithin limit room))

/-- A call with the session it is made in and the room that it has. -/
structure Moment where
  room : Nat
  session : Session
  call : Call

/-- The fault that the call ends in, if it ends in one. -/
def Moment.fault? (limit : Nat) (M : Moment) : Option Fault :=
  fault (M.call.run limit M.room) M.session

/-- The first call makes the second one. -/
inductive Calls (limit : Nat) : Moment → Moment → Prop where
  | readReference {room σ id p k l target m} :
      σ.space.slot? id p = some (k, ⟨l, .cell (.reference target m)⟩) → (id, k) ∉ σ.flight →
      σ.space.alive target = true →
      Calls limit ⟨room + 1, σ, .read id p⟩ ⟨room, Eval.enter id k σ, .read target (.label m)⟩
  | readDerived {room σ id p k l i} :
      σ.space.slot? id p = some (k, ⟨l, .cell (.derived i)⟩) → (id, k) ∉ σ.flight →
      Calls limit ⟨room + 1, σ, .read id p⟩
        ⟨room, Eval.enter id k σ, .formula (σ.space.derivation i).getter id⟩
  | operand {room σ name apply done a rest id vs τ} :
      Operand.evalAll (readWithin limit room) done { σ with targets := id :: σ.targets } =
        .ok vs τ →
      Calls limit ⟨room, σ, .formula (.mk name apply (done ++ a :: rest)) id⟩
        ⟨room, τ, .operand a⟩
  | here {room σ id targets l} : σ.targets = id :: targets →
      Calls limit ⟨room, σ, .operand (.here l)⟩ ⟨room, σ, .read id (.label l)⟩
  | nested {room σ id targets f} : σ.targets = id :: targets →
      Calls limit ⟨room, σ, .operand (.nested f)⟩ ⟨room, σ, .formula f id⟩
  | field {room σ} {n : FieldName} : σ.space.alive n.record.target = true →
      Calls limit ⟨room, σ, .operand (.field n)⟩ ⟨room, σ, .read n.record.target (.label n.label)⟩
  | writeReference {room σ id p v k l target m} :
      σ.space.slot? id p = some (k, ⟨l, .cell (.reference target m)⟩) → v.isCell = false →
      (id, k) ∉ σ.flight → σ.space.alive target = true →
      Calls limit ⟨room + 1, σ, .write id p v⟩
        ⟨room, { σ with flight := (id, k) :: σ.flight }, .write target (.label m) v⟩
  | reaction {room σ id p v k l i done output f rest ρ} :
      σ.space.slot? id p = some (k, ⟨l, .cell (.derived i)⟩) → v.isCell = false →
      (id, k) ∉ σ.flight → (σ.space.derivation i).reactions = done ++ (output, f) :: rest →
      (Eval.store id k v >>= fun _ =>
        { σ.space.derivation i with reactions := done }.react
          (readWithin limit room) (writeWithin limit room) id)
        { σ with flight := (id, k) :: σ.flight } = .ok () ρ →
      Calls limit ⟨room + 1, σ, .write id p v⟩ ⟨room, ρ, .formula f id⟩
  | output {room σ id p v k l i done output f rest ρ w π} :
      σ.space.slot? id p = some (k, ⟨l, .cell (.derived i)⟩) → v.isCell = false →
      (id, k) ∉ σ.flight → (σ.space.derivation i).reactions = done ++ (output, f) :: rest →
      (Eval.store id k v >>= fun _ =>
        { σ.space.derivation i with reactions := done }.react
          (readWithin limit room) (writeWithin limit room) id)
        { σ with flight := (id, k) :: σ.flight } = .ok () ρ →
      f.eval (readWithin limit room) id ρ = .ok w π →
      Calls limit ⟨room + 1, σ, .write id p v⟩ ⟨room, π, .write id (.label output) w⟩
  | effective {room σ id p v k l c τ} :
      σ.space.slot? id p = some (k, ⟨l, .cell c⟩) → v.isCell = false →
      Eval.guarded id k l (c.assign (readWithin limit room) (writeWithin limit room) id k v) σ =
        .ok () τ →
      Calls limit ⟨room + 1, σ, .write id p v⟩ ⟨room + 1, τ, .read id (.key k)⟩

section Order

/-- How far a call is from being answered, as long as no cell is evaluated. -/
noncomputable def Call.rank : Call → Nat
  | read _ _ => 0
  | write _ _ _ => 1
  | formula f _ => sizeOf f
  | operand a => sizeOf a

theorem Calls.decreases {limit : Nat} {M N : Moment} (h : Calls limit M N) :
    Prod.Lex (· < ·) (· < ·) (N.room, N.call.rank) (M.room, M.call.rank) := by
  cases h with
  | readReference => exact .left _ _ (Nat.lt_succ_self _)
  | readDerived => exact .left _ _ (Nat.lt_succ_self _)
  | @operand _ _ name apply done a rest =>
    refine .right _ ?_
    have ha : a ∈ done ++ a :: rest := List.mem_append_right done List.mem_cons_self
    have hlt := List.sizeOf_lt_of_mem ha
    simp only [Call.rank, Formula.mk.sizeOf_spec]
    omega
  | here =>
    refine .right _ ?_
    simp only [Call.rank, Operand.here.sizeOf_spec]
    omega
  | nested =>
    refine .right _ ?_
    simp only [Call.rank, Operand.nested.sizeOf_spec]
    omega
  | field =>
    refine .right _ ?_
    simp only [Call.rank, Operand.field.sizeOf_spec]
    omega
  | writeReference => exact .left _ _ (Nat.lt_succ_self _)
  | reaction => exact .left _ _ (Nat.lt_succ_self _)
  | output => exact .left _ _ (Nat.lt_succ_self _)
  | effective => exact .right _ Nat.zero_lt_one

/-- No call makes nested calls without end. -/
theorem calls_wellFounded (limit : Nat) : WellFounded (flip (Calls limit)) :=
  Subrelation.wf (fun h => Calls.decreases h)
    (InvImage.wf (fun M : Moment => (M.room, M.call.rank)) (wellFounded_lt.prod_lex wellFounded_lt))

end Order

section Faults

variable {m : Eval α} {f : Fault} {σ τ : Session} {id : RecordId} {k : Key} {l : Label}

theorem fault_edit (e : Edit α) (σ : Session) : fault (Eval.edit e) σ = fault e σ.space := by
  unfold fault Eval.edit
  cases e σ.space <;> rfl

theorem fault_run (m : Eval α) (s : Space) : fault (Eval.run m) s = fault m { space := s } := by
  unfold fault Eval.run
  cases m { space := s } <;> rfl

theorem fault_andThen (m : Eval α) (after : Except Fault α → Session → Session) (σ : Session) :
    fault (m.andThen after) σ = fault m σ := by
  unfold fault Eval.andThen
  cases m σ <;> rfl

theorem fault_onTarget (id : RecordId) (m : Eval α) (σ : Session) :
    fault (Eval.onTarget id m) σ = fault m { σ with targets := id :: σ.targets } := by
  rw [fault, Eval.onTarget_run]
  exact fault_andThen m _ _

theorem fault_guarded_of_mem (m : Eval α) (h : (id, k) ∈ σ.flight) :
    fault (Eval.guarded id k l m) σ = some (.cycle (σ.space.displayName id) l) :=
  fault_of_error (Eval.guarded_of_mem m (List.contains_iff_mem.mpr h))

theorem fault_guarded_of_not_mem (m : Eval α) (h : (id, k) ∉ σ.flight) :
    fault (Eval.guarded id k l m) σ = fault m { σ with flight := (id, k) :: σ.flight } := by
  have hk : ¬ σ.flight.contains (id, k) = true := by simpa using h
  rw [fault, Eval.guarded_of_not_mem m hk]
  exact fault_andThen m _ _

theorem Record.settle_eq_error_iff {r : Record} {outcome : Except Fault Value}
    (hf : ∀ w, f ≠ .failed w) : (r.settle outcome).1 = .error f ↔ outcome = .error f := by
  unfold Record.settle
  split
  · split
    · simp [(hf _).symm]
    · simp
  · split <;> simp [(hf _).symm]
  · exact Iff.rfl

theorem Eval.conclude_eq_error_iff {outcome : Except Fault Value} (hf : ∀ w, f ≠ .failed w) :
    (∃ ρ, Eval.conclude id outcome τ = .error f ρ) ↔ outcome = .error f := by
  let r : Record := { τ.space.record id with depth := (τ.space.record id).depth - 1 }
  rw [← Record.settle_eq_error_iff (r := r) hf]
  unfold Eval.conclude
  dsimp only
  cases (r.settle outcome).1 <;> simp

theorem fault_settling_iff {m : Eval Value} (hf : ∀ w, f ≠ .failed w) :
    fault (Eval.settling id m) σ = some f ↔ fault m (Eval.deepen id σ) = some f := by
  rw [fault_eq_some_iff]
  cases h : m (Eval.deepen id σ) with
  | ok v τ =>
    simp only [Eval.settling, h, Eval.conclude_eq_error_iff hf]
    simp [fault, h]
  | error g τ =>
    simp only [Eval.settling, h, Eval.conclude_eq_error_iff hf]
    simp [fault, h]

theorem fault_followedBy_of_fault {m after : Eval Unit} (h : fault m σ = some f) :
    fault (m.followedBy after) σ = some f := by
  obtain ⟨τ, hτ⟩ := fault_eq_some_iff.mp h
  cases ha : after τ with
  | ok _ ρ => exact fault_of_error (t := ρ) (by simp only [Eval.followedBy, hτ, ha])
  | error _ ρ => exact fault_of_error (t := ρ) (by simp only [Eval.followedBy, hτ, ha])

theorem fault_followedBy_of_ok {m after : Eval Unit} (h : m σ = .ok () τ) :
    fault (m.followedBy after) σ = fault after τ := by
  simp only [fault, Eval.followedBy, h]

theorem fault_follow_bind {target : RecordId} {m : RecordId → Eval α}
    (ha : σ.space.alive target = true) :
    fault (Eval.edit (Edit.follow target l) >>= m) σ = fault (m target) σ := by
  have hrun := Eval.follow_run (.refl σ.space) target l
  rw [if_pos ha] at hrun
  exact fault_bind_of_ok hrun

theorem fault_noteEffective (read : Reader) (id : RecordId) (k : Key) (l : Label) (σ : Session) :
    fault (Eval.noteEffective read id k l) σ = fault (read id (.key k)) σ := by
  rw [Eval.noteEffective, fault_bind]
  cases h : read id (.key k) σ with
  | ok v τ => simp only [fault, h]; rfl
  | error f τ => rw [fault_of_error h]

theorem fault_evalAll_iff {read : Reader} {as : List Operand} {σ : Session} :
    fault (Operand.evalAll read as) σ = some f ↔
      ∃ done a rest vs τ, as = done ++ a :: rest ∧ Operand.evalAll read done σ = .ok vs τ ∧
        fault (a.eval read) τ = some f := by
  induction as generalizing σ with
  | nil => simp [fault, Operand.evalAll, pure, EStateM.pure]
  | cons a as ih =>
    rw [Operand.evalAll]
    cases ha : a.eval read σ with
    | error w τ =>
      rw [fault_of_error (bind_of_error ha)]
      constructor
      · rintro ⟨⟩
        exact ⟨[], a, as, [], σ, rfl, rfl, fault_of_error ha⟩
      · rintro ⟨done, b, rest, vs, ρ, has, hdone, hb⟩
        cases done with
        | nil =>
          cases has
          cases hdone
          exact (fault_of_error ha).symm.trans hb
        | cons c done =>
          cases has
          rw [Operand.evalAll, bind_of_error ha] at hdone
          cases hdone
    | ok v τ =>
      have hrest : fault (Operand.evalAll read as >>= fun vs => pure (v :: vs)) τ =
          fault (Operand.evalAll read as) τ := by
        rw [fault_bind]
        cases h : Operand.evalAll read as τ with
        | ok vs ρ => simp only [fault, h]; rfl
        | error w ρ => rw [fault_of_error h]
      rw [fault_bind_of_ok ha, hrest, ih]
      constructor
      · rintro ⟨done, b, rest, vs, ρ, rfl, hdone, hb⟩
        refine ⟨a :: done, b, rest, v :: vs, ρ, rfl, ?_, hb⟩
        rw [Operand.evalAll, bind_of_ok ha, bind_of_ok hdone]
        rfl
      · rintro ⟨done, b, rest, vs, ρ, has, hdone, hb⟩
        cases done with
        | nil =>
          cases has
          cases hdone
          rw [fault, ha] at hb
          cases hb
        | cons c done =>
          cases has
          rw [Operand.evalAll, bind_of_ok ha, bind_eq_ok_iff] at hdone
          obtain ⟨ws, π, hws, hpure⟩ := hdone
          cases hpure
          exact ⟨done, b, rest, ws, ρ, rfl, hws, hb⟩

end Faults

section Moments

variable {limit room : Nat} {σ : Session} {id : RecordId} {p : Place} {v : Value} {k : Key}
  {l : Label} {c : Cell} {f : Fault}

@[simp] theorem fault?_read :
    (⟨room, σ, .read id p⟩ : Moment).fault? limit = fault (readWithin limit room id p) σ :=
  fault_discard ..

@[simp] theorem fault?_write :
    (⟨room, σ, .write id p v⟩ : Moment).fault? limit = fault (writeWithin limit room id p v) σ :=
  fault_discard ..

@[simp] theorem fault?_formula {g : Formula} :
    (⟨room, σ, .formula g id⟩ : Moment).fault? limit =
      fault (g.eval (readWithin limit room) id) σ :=
  fault_discard ..

@[simp] theorem fault?_operand {a : Operand} :
    (⟨room, σ, .operand a⟩ : Moment).fault? limit = fault (a.eval (readWithin limit room)) σ :=
  fault_discard ..

section Operands

variable {read : Reader} {targets : List RecordId}

theorem fault_here (ht : σ.targets = id :: targets) :
    fault (Operand.eval read (.here l)) σ = fault (read id (.label l)) σ := by
  have htarget : Eval.target σ = .ok id σ := by rw [Eval.target_run, ht]
  rw [Operand.eval, fault_bind_of_ok htarget]

theorem fault_nested {g : Formula} (ht : σ.targets = id :: targets) :
    fault (Operand.eval read (.nested g)) σ = fault (g.eval read id) σ := by
  have htarget : Eval.target σ = .ok id σ := by rw [Eval.target_run, ht]
  rw [Operand.eval, fault_bind_of_ok htarget]

theorem fault_field {n : FieldName} (ha : σ.space.alive n.record.target = true) :
    fault (Operand.eval read (.field n)) σ =
      fault (read n.record.target (.label n.label)) σ := by
  have hrun := Eval.resolve_run (.refl σ.space) n.record
  rw [if_pos ha] at hrun
  rw [Operand.eval, fault_bind_of_ok hrun]

theorem fault_formula_of_operand {name : String} {apply : Function} {done rest : List Operand}
    {a : Operand} {vs : List Value} {τ : Session}
    (hdone : Operand.evalAll read done { σ with targets := id :: σ.targets } = .ok vs τ)
    (ha : fault (a.eval read) τ = some f) :
    fault (Formula.eval read (.mk name apply (done ++ a :: rest)) id) σ = some f := by
  rw [Formula.eval, fault_onTarget]
  exact fault_bind_of_fault (fault_evalAll_iff.mpr ⟨_, _, _, _, _, rfl, hdone, ha⟩)

end Operands

/-- A read that gets past the guard ends in the faults of the cell, failures apart. -/
theorem fault_readWithin_iff (hf : ∀ w, f ≠ .failed w)
    (hs : σ.space.slot? id p = some (k, ⟨l, .cell c⟩)) (hk : (id, k) ∉ σ.flight) :
    fault (readWithin limit (room + 1) id p) σ = some f ↔
      fault (c.eval (readWithin limit room) id) (Eval.enter id k σ) = some f := by
  have hguard := fault_guarded_of_not_mem (l := l) (c.eval (readWithin limit room) id)
    (σ := Eval.deepen id σ) hk
  rw [fault, readWithin, readBy_cell hs]
  exact (fault_settling_iff hf).trans (hguard ▸ Iff.rfl)

/-- A write through a cell ends in the faults of assigning the cell, then in those of reading the
field anew. -/
theorem fault_writeWithin_through (hs : σ.space.slot? id p = some (k, ⟨l, .cell c⟩))
    (hv : v.isCell = false) :
    fault (writeWithin limit (room + 1) id p v) σ =
      fault (Eval.guarded id k l
        (c.assign (readWithin limit room) (writeWithin limit room) id k v) >>= fun _ =>
          Eval.noteEffective (readWithin limit (room + 1)) id k l) σ := by
  rw [fault, writeWithin, writeBy_through hs hv]
  rfl

theorem fault_write_of_assign (hs : σ.space.slot? id p = some (k, ⟨l, .cell c⟩))
    (hv : v.isCell = false) (hk : (id, k) ∉ σ.flight)
    (h : fault (c.assign (readWithin limit room) (writeWithin limit room) id k v)
      { σ with flight := (id, k) :: σ.flight } = some f) :
    fault (writeWithin limit (room + 1) id p v) σ = some f := by
  rw [fault_writeWithin_through hs hv]
  exact fault_bind_of_fault ((fault_guarded_of_not_mem _ hk).trans h)

theorem fault_assign_of_react {i : DerivedId} {done rest : List (Label × Formula)}
    {output : Label} {g : Formula} {ρ : Session}
    (hd : (σ.space.derivation i).reactions = done ++ (output, g) :: rest)
    (hdone : (Eval.store id k v >>= fun _ =>
      { σ.space.derivation i with reactions := done }.react
        (readWithin limit room) (writeWithin limit room) id) σ = .ok () ρ)
    (h : fault (Derived.reactOnce (readWithin limit room) (writeWithin limit room) id output g) ρ =
      some f) :
    fault (Cell.assign (readWithin limit room) (writeWithin limit room) id k v (.derived i)) σ =
      some f := by
  obtain ⟨_, π, hstore, hreact⟩ := bind_eq_ok_iff.mp hdone
  rw [Cell.assign, fault_bind_of_ok (Eval.space_run σ), fault_bind_of_ok hstore]
  refine fault_followedBy_of_fault ?_
  exact fault_forM_iff.mpr ⟨done, (output, g), rest, ρ, hd, hreact, h⟩

theorem alive_enter (id j : RecordId) (k : Key) {σ : Session} (h : σ.space.alive j = true) :
    (Eval.enter id k σ).space.alive j = true := by
  simp [Eval.enter, Eval.deepen, Space.alive_setRecord, h]

/-- What a nested call faults over, its caller faults over, failures apart. -/
theorem Calls.fault? {M N : Moment} (h : Calls limit M N) (hf : ∀ w, f ≠ .failed w)
    (hN : N.fault? limit = some f) : M.fault? limit = some f := by
  cases h with
  | readReference hs hk ha =>
    rw [fault?_read] at hN ⊢
    rw [fault_readWithin_iff hf hs hk, Cell.eval]
    exact (fault_follow_bind (alive_enter _ _ _ ha)).trans hN
  | readDerived hs hk =>
    rw [fault?_formula] at hN
    rw [fault?_read, fault_readWithin_iff hf hs hk, Cell.eval]
    exact (fault_bind_of_ok (Eval.space_run _)).trans hN
  | operand hdone =>
    rw [fault?_operand] at hN
    rw [fault?_formula]
    exact fault_formula_of_operand hdone hN
  | here ht =>
    rw [fault?_read] at hN
    rw [fault?_operand, fault_here ht, hN]
  | nested ht =>
    rw [fault?_formula] at hN
    rw [fault?_operand, fault_nested ht, hN]
  | field ha =>
    rw [fault?_read] at hN
    rw [fault?_operand, fault_field ha, hN]
  | @writeReference _ σ id p v k l target m hs hv hk ha =>
    rw [fault?_write] at hN ⊢
    refine fault_write_of_assign hs hv hk ?_
    rw [Cell.assign, fault_follow_bind (σ := { σ with flight := (id, k) :: σ.flight }) ha,
      fault_discard, hN]
  | reaction hs hv hk hd hdone =>
    rw [fault?_formula] at hN
    rw [fault?_write]
    refine fault_write_of_assign hs hv hk (fault_assign_of_react hd hdone ?_)
    exact fault_bind_of_fault hN
  | output hs hv hk hd hdone hw =>
    rw [fault?_write] at hN ⊢
    refine fault_write_of_assign hs hv hk (fault_assign_of_react hd hdone ?_)
    rw [Derived.reactOnce, fault_bind_of_ok hw, fault_discard, hN]
  | effective hs hv hassign =>
    rw [fault?_read] at hN
    rw [fault?_write, fault_writeWithin_through hs hv, fault_bind_of_ok hassign,
      fault_noteEffective, hN]

end Moments

section Marks

theorem restores_reactions (limit room : Nat) (id : RecordId) (k : Key) (v : Value) (d : Derived) :
    Restores (Eval.store id k v >>= fun _ =>
      d.react (readWithin limit room) (writeWithin limit room) id) :=
  (restores_edit _).bind fun _ =>
    d.react_restores (readWithin_restores limit room) (writeWithin_restores limit room) id

/-- No cell is twice under evaluation, and the room is for those that the limit allows yet. -/
structure Moment.Fits (limit : Nat) (M : Moment) : Prop where
  nodup : M.session.flight.Nodup
  room : M.session.flight.length + M.room = limit

variable {limit : Nat} {M N : Moment}

/-- Of a moment that fits, one more cell under evaluation and one less to come. -/
theorem Moment.Fits.enter {room : Nat} {σ τ : Session} {a b : Call} {e : RecordId × Key}
    (h : (⟨room + 1, σ, a⟩ : Moment).Fits limit) (he : e ∉ σ.flight)
    (hτ : τ.flight = e :: σ.flight) : (⟨room, τ, b⟩ : Moment).Fits limit := by
  obtain ⟨hn, hr⟩ := h
  dsimp only at hn hr
  constructor
  · change τ.flight.Nodup
    rw [hτ]
    exact List.nodup_cons.mpr ⟨he, hn⟩
  · change τ.flight.length + room = limit
    rw [hτ, List.length_cons]
    omega

theorem Moment.Fits.congr {room : Nat} {σ τ : Session} {a b : Call}
    (h : (⟨room, σ, a⟩ : Moment).Fits limit) (hτ : τ.flight = σ.flight) :
    (⟨room, τ, b⟩ : Moment).Fits limit :=
  ⟨by rw [hτ]; exact h.nodup, by rw [hτ]; exact h.room⟩

theorem Calls.fits (h : Calls limit M N) (hM : M.Fits limit) : N.Fits limit := by
  have hread := readWithin_restores limit
  have hwrite := writeWithin_restores limit
  cases h with
  | readReference hs hk ha => exact hM.enter hk rfl
  | readDerived hs hk => exact hM.enter hk rfl
  | operand hdone =>
    exact hM.congr ((Operand.evalAll_restores (hread _) _).of_ok hdone).1
  | here => exact hM.congr rfl
  | nested => exact hM.congr rfl
  | field => exact hM.congr rfl
  | writeReference hs hv hk ha => exact hM.enter hk rfl
  | reaction hs hv hk hd hdone =>
    exact hM.enter hk ((restores_reactions limit _ _ _ _ _).of_ok hdone).1
  | output hs hv hk hd hdone hw =>
    refine hM.enter hk (((Formula.eval_restores (hread _) _ _).of_ok hw).1.trans ?_)
    exact ((restores_reactions limit _ _ _ _ _).of_ok hdone).1
  | effective hs hv hassign =>
    refine hM.congr (((Restores.guarded ?_ _ _ _).of_ok hassign).1)
    exact Cell.assign_restores (hread _) (hwrite _) _ _ _ _

end Marks

theorem Calls.fits_of_reached {limit : Nat} {M N : Moment} (h : ReflTransGen (Calls limit) M N)
    (hM : M.Fits limit) : N.Fits limit := by
  induction h with
  | refl => exact hM
  | tail _ h ih => exact h.fits ih

theorem Calls.fault?_of_reached {limit : Nat} {M N : Moment} {f : Fault}
    (h : ReflTransGen (Calls limit) M N) (hf : ∀ w, f ≠ .failed w) (hN : N.fault? limit = some f) :
    M.fault? limit = some f := by
  induction h with
  | refl => exact hN
  | tail _ h ih => exact ih (h.fault? hf hN)

end LiveRecords
