import LiveRecords.Proofs.Effects
import LiveRecords.Record

/-! # What reads and writes keep to

A read or a write is made of few primitive effects. A preorder on sessions that these effects
keep to holds between the start and the end of every read and write, however deep it goes and
wherever it faults.
-/

namespace LiveRecords

variable {α : Type}

theorem Edit.final_resolve (n : RecordName) (s : Space) : final (Edit.resolve n) s = s := by
  cases h : s.alive n.target <;> simp [final, Edit.resolve_run, h]

theorem Space.alive_of_slot? {s : Space} {id : RecordId} {p : Place} {e : Key × Field}
    (h : s.slot? id p = some e) : s.alive id = true := by
  cases hr : s.records.get? id with
  | none =>
    have hs : s.slot? id p = ({} : Container).slot? p := by simp [slot?, record, hr]
    rw [hs] at h
    cases p <;> cases h
  | some r => simp [alive, Table.contains, hr]

namespace Eval

/-- The effects that evaluation is built from keep to `R`. The cells of live records are all that
is evaluated. -/
structure Closed (R : Session → Session → Prop) : Prop extends IsPreorder Session R where
  onTarget : ∀ {α : Type} (id : RecordId) {m : Eval α}, Moves R m → Moves R (onTarget id m)
  guarded : ∀ {α : Type} (id : RecordId) (k : Key) (l : Label) {m : Eval α},
    Moves R m → Moves R (guarded id k l m)
  settling : ∀ {id : RecordId} {m : Eval Value} {σ : Session}, σ.space.alive id = true →
    Moves R m → R σ (final (settling id m) σ)

/-- The effects that writing adds to those of evaluation keep to `R` as well. -/
structure ClosedForWrites (R : Session → Session → Prop) : Prop extends Closed R where
  assign : ∀ (id : RecordId) (p : Place) (v : Value),
    Moves R (edit ((Holder.record id).assign p v))
  store : ∀ (id : RecordId) (k : Key) (v : Value), Moves R (store id k v)
  note : ∀ (id : RecordId) (k : Key) (l : Label) (v : Value), Moves R (edit (Edit.note id k l v))

section Primitive

variable {R : Session → Session → Prop} [IsPreorder Session R]

theorem moves_space : Moves R space := moves_of_final fun _ => rfl

theorem moves_target : Moves R target := moves_of_final fun σ => by
  simp only [final, target_run]
  cases σ.targets <;> rfl

theorem final_edit (e : Edit α) (σ : Session) :
    final (edit e) σ = { σ with space := final e σ.space } := by
  cases h : e σ.space <;> simp [final, edit, h]

theorem moves_edit {e : Edit α} (h : ∀ s, final e s = s) : Moves R (edit e) :=
  moves_of_final fun σ => by rw [final_edit, h]

theorem moves_resolve (n : RecordName) : Moves R (edit (Edit.resolve n)) :=
  moves_edit (Edit.final_resolve n)

theorem moves_follow (target : RecordId) (l : Label) : Moves R (edit (Edit.follow target l)) :=
  moves_edit fun s => by
    cases h : s.alive target <;> simp [final, Edit.follow_run, h]

end Primitive

end Eval

section Reading

variable {R : Session → Session → Prop} {read : Reader}

mutual

theorem Formula.eval_moves (h : Eval.Closed R) (hread : ∀ id p, Moves R (read id p))
    (f : Formula) (id : RecordId) : Moves R (f.eval read id) := by
  have := h.toIsPreorder
  cases f with
  | mk name apply operands =>
    refine h.onTarget id ?_
    refine (Operand.evalAll_moves h hread operands).bind fun vs => ?_
    refine Eval.moves_space.bind fun s => ?_
    split
    · exact moves_pure _
    · exact moves_throw _

theorem Operand.eval_moves (h : Eval.Closed R) (hread : ∀ id p, Moves R (read id p))
    (a : Operand) : Moves R (a.eval read) := by
  have := h.toIsPreorder
  cases a with
  | constant v => exact moves_pure v
  | here l => exact Eval.moves_target.bind fun id => hread id _
  | nested f => exact Eval.moves_target.bind fun id => Formula.eval_moves h hread f id
  | field n => exact (Eval.moves_resolve n.record).bind fun id => hread id _

theorem Operand.evalAll_moves (h : Eval.Closed R) (hread : ∀ id p, Moves R (read id p))
    (as : List Operand) : Moves R (Operand.evalAll read as) := by
  have := h.toIsPreorder
  cases as with
  | nil => exact moves_pure []
  | cons a as =>
    refine (Operand.eval_moves h hread a).bind fun v => ?_
    exact (Operand.evalAll_moves h hread as).bind fun vs => moves_pure _

end

theorem Cell.eval_moves (h : Eval.Closed R) (hread : ∀ id p, Moves R (read id p))
    (owner : RecordId) (c : Cell) : Moves R (c.eval read owner) := by
  have := h.toIsPreorder
  cases c with
  | derived id =>
    exact Eval.moves_space.bind fun s => (s.derivation id).getter.eval_moves h hread owner
  | reference target l => exact (Eval.moves_follow target l).bind fun id => hread id _

theorem readBy_moves (h : Eval.Closed R) {evaluate : RecordId → Key → Label → Cell → Eval Value}
    (he : ∀ {id k l c σ}, σ.space.alive id = true → R σ (final (evaluate id k l c) σ))
    (id : RecordId) (p : Place) : Moves R (readBy evaluate id p) := by
  have := h.toIsPreorder
  intro σ
  rw [final, readBy, bind_of_ok (Eval.space_run σ)]
  change R σ (final _ σ)
  split
  · exact moves_ofExcept _ σ
  · exact he (Space.alive_of_slot? ‹_›)
  · exact moves_pure _ σ

theorem readWithin_moves (h : Eval.Closed R) (limit room : Nat) (id : RecordId) (p : Place) :
    Moves R (readWithin limit room id p) := by
  have := h.toIsPreorder
  induction room generalizing id p with
  | zero => exact readBy_moves h (fun ha => h.settling ha (moves_throw _)) id p
  | succ room ih =>
    refine readBy_moves h (fun {id k l c _} ha => ?_) id p
    exact h.settling ha (h.guarded id k l (c.eval_moves h ih id))

end Reading

section Writing

variable {R : Session → Session → Prop} {read : Reader} {write : Writer}

theorem Moves.followedBy [IsPreorder Session R] {m after : Eval Unit} (hm : Moves R m)
    (ha : Moves R after) : Moves R (m.followedBy after) := by
  intro σ
  have hσ := hm σ
  cases h : m σ with
  | ok _ τ =>
    rw [final_of_ok h] at hσ
    have he : final (m.followedBy after) σ = final after τ := by
      simp only [final, Eval.followedBy, h]
    rw [he]
    exact trans_of R hσ (ha τ)
  | error f τ =>
    rw [final_of_error h] at hσ
    have he : final (m.followedBy after) σ = final after τ := by
      cases ht : after τ <;> simp only [final, Eval.followedBy, h, ht]
    rw [he]
    exact trans_of R hσ (ha τ)

theorem Derived.react_moves (h : Eval.Closed R) (hread : ∀ id p, Moves R (read id p))
    (hwrite : ∀ id p v, Moves R (write id p v)) (owner : RecordId) (d : Derived) :
    Moves R (d.react read write owner) := by
  have := h.toIsPreorder
  refine moves_forM _ fun r _ => ?_
  exact (r.2.eval_moves h hread owner).bind fun v => (hwrite owner _ v).discard

theorem Cell.assign_moves (h : Eval.Closed R) (hread : ∀ id p, Moves R (read id p))
    (hwrite : ∀ id p v, Moves R (write id p v)) {owner : RecordId} {k : Key}
    (hstore : ∀ v, Moves R (Eval.store owner k v)) (v : Value) (c : Cell) :
    Moves R (c.assign read write owner k v) := by
  have := h.toIsPreorder
  cases c with
  | derived id =>
    refine Eval.moves_space.bind fun s => (hstore v).bind fun _ => ?_
    exact ((s.derivation id).react_moves h hread hwrite owner).followedBy (hstore _)
  | reference target l =>
    exact (Eval.moves_follow target l).bind fun id => (hwrite id _ v).discard

theorem writeBy_moves (h : Eval.ClosedForWrites R)
    {assign : RecordId → Key → Label → Cell → Value → Eval Unit}
    (ha : ∀ id k l c v, Moves R (assign id k l c v)) (hread : ∀ id p, Moves R (read id p))
    (id : RecordId) (p : Place) (v : Value) : Moves R (writeBy assign read id p v) := by
  have := h.toIsPreorder
  refine Eval.moves_space.bind fun s => ?_
  split
  · refine (ha id _ _ _ v).bind fun _ => (hread id _).bind fun w => ?_
    exact (h.note id _ _ _).bind fun _ => moves_pure _
  · refine (h.assign id p v).bind fun k => Eval.moves_space.bind fun t => ?_
    refine (moves_ofExcept _).bind fun f => ?_
    exact (h.note id _ _ _).bind fun _ => moves_pure _

theorem writeWithin_moves (h : Eval.ClosedForWrites R) (limit room : Nat) (id : RecordId)
    (p : Place) (v : Value) : Moves R (writeWithin limit room id p v) := by
  have := h.toIsPreorder
  induction room generalizing id p v with
  | zero =>
    exact writeBy_moves h (fun _ _ _ _ _ => moves_throw _)
      (readWithin_moves h.toClosed limit 0) id p v
  | succ room ih =>
    refine writeBy_moves h (fun id k l c v => ?_)
      (readWithin_moves h.toClosed limit (room + 1)) id p v
    exact h.guarded id k l
      (c.assign_moves h.toClosed (readWithin_moves h.toClosed limit room) ih (h.store id k) v)

end Writing

section Spaces

/-- A relation on spaces, taken of the spaces of two sessions. -/
def OnSpace (R : Space → Space → Prop) (σ τ : Session) : Prop := R σ.space τ.space

variable {R : Space → Space → Prop}

theorem Moves.edit {e : Edit α} (he : Moves R e) : Moves (OnSpace R) (Eval.edit e) := by
  intro σ
  rw [Eval.final_edit]
  exact he σ.space

theorem final_run (m : Eval α) (s : Space) :
    final (Eval.run m) s = (final m { space := s }).space := by
  cases h : m { space := s } <;> simp [final, Eval.run, h]

theorem Moves.run {m : Eval α} (hm : Moves (OnSpace R) m) : Moves R (Eval.run m) := by
  intro s
  have h := hm { space := s }
  cases hr : m { space := s } with
  | ok a τ =>
    rw [final_of_ok hr] at h
    simpa [final, Eval.run, hr, OnSpace] using h
  | error f τ =>
    rw [final_of_error hr] at h
    simpa [final, Eval.run, hr, OnSpace] using h

theorem space_final_andThen (m : Eval α) {after : Except Fault α → Session → Session}
    (h : ∀ o τ, (after o τ).space = τ.space) (σ : Session) :
    (final (m.andThen after) σ).space = (final m σ).space := by
  cases hm : m σ <;> simp [final, Eval.andThen, hm, h]

theorem Moves.onTarget {m : Eval α} (hm : Moves (OnSpace R) m) (id : RecordId) :
    Moves (OnSpace R) (Eval.onTarget id m) := by
  intro σ
  have h := hm { σ with targets := id :: σ.targets }
  rw [OnSpace, final, Eval.onTarget_run]
  change R σ.space (final (m.andThen _) _).space
  rw [space_final_andThen m]
  · exact h
  · exact fun _ _ => rfl

theorem space_final_guarded {P : Space → Prop} {m : Eval α} {id : RecordId} {k : Key} (l : Label)
    {σ : Session} (hσ : P σ.space) (hm : (id, k) ∉ σ.flight →
      P (final m { σ with flight := (id, k) :: σ.flight }).space) :
    P (final (Eval.guarded id k l m) σ).space := by
  by_cases hk : σ.flight.contains (id, k) = true
  · rwa [final_of_error (Eval.guarded_of_mem m hk)]
  · rw [final, Eval.guarded_of_not_mem m hk]
    change P (final (m.andThen _) _).space
    rw [space_final_andThen m]
    · exact hm (by simpa using hk)
    · intro o τ; split <;> rfl

variable [IsPreorder Space R]

instance : IsPreorder Session (OnSpace R) where
  refl σ := refl_of R σ.space
  trans _ _ _ h h' := trans_of R h h'

theorem Moves.guarded {m : Eval α} (hm : Moves (OnSpace R) m) (id : RecordId) (k : Key)
    (l : Label) : Moves (OnSpace R) (Eval.guarded id k l m) := fun σ =>
  space_final_guarded (P := R σ.space) l (refl_of R σ.space) fun _ =>
    hm { σ with flight := (id, k) :: σ.flight }

theorem Eval.closed_onSpace
    (h : ∀ {id : RecordId} {m : Eval Value} {σ : Session}, σ.space.alive id = true →
      Moves (OnSpace R) m → OnSpace R σ (final (Eval.settling id m) σ)) :
    Eval.Closed (OnSpace R) where
  onTarget id _ hm := hm.onTarget id
  guarded id k l _ hm := hm.guarded id k l
  settling := h

theorem Eval.final_settling_space (id : RecordId) (m : Eval Value) (σ : Session) :
    ∃ outcome, (final (Eval.settling id m) σ).space =
      let t := (final m (Eval.deepen id σ)).space
      t.setRecord id
        ({ t.record id with depth := (t.record id).depth - 1 }.settle outcome).2 := by
  have key : ∀ (o : Except Fault Value) (τ : Session),
      (final (fun _ => Eval.conclude id o τ) σ).space =
        τ.space.setRecord id
          ({ τ.space.record id with depth := (τ.space.record id).depth - 1 }.settle o).2 := by
    intro o τ
    simp only [final, Eval.conclude]
    split <;> rename_i h <;> split at h <;> cases h <;> rfl
  cases h : m (Eval.deepen id σ) with
  | ok v τ => exact ⟨.ok v, by simpa only [final, Eval.settling, h] using key (.ok v) τ⟩
  | error f τ => exact ⟨.error f, by simpa only [final, Eval.settling, h] using key (.error f) τ⟩

/-- Evaluation itself changes no more of a record than its depth and its pending failure. -/
theorem Eval.closed_of_marks
    (hr : ∀ (s : Space) (id : RecordId) (depth : Nat) (pending : Option Failure),
      R s (s.setRecord id { s.record id with depth, pending })) :
    Eval.Closed (OnSpace R) := by
  refine Eval.closed_onSpace fun {id m σ} _ hm => ?_
  obtain ⟨outcome, h⟩ := Eval.final_settling_space id m σ
  rw [OnSpace, h]
  refine trans_of R (hr σ.space id _ _) (trans_of R (hm (Eval.deepen id σ)) ?_)
  dsimp only
  rw [Record.settle_record]
  exact hr _ id _ _

end Spaces

section Records

variable {R : Space → Space → Prop} [IsPreorder Space R]

theorem RecordId.limit_moves (id : RecordId) : Moves R id.limit := moves_of_final fun _ => rfl

theorem RecordId.read_moves (h : Eval.Closed (OnSpace R)) (id : RecordId) (p : Place) :
    Moves R (id.read p) :=
  (id.limit_moves).bind fun limit => (readWithin_moves h limit limit id p).run

theorem RecordId.evaluate_moves (h : Eval.Closed (OnSpace R)) (id : RecordId) (f : Formula) :
    Moves R (id.evaluate f) :=
  (id.limit_moves).bind fun limit => (f.eval_moves h (readWithin_moves h limit limit) id).run

theorem RecordId.write_moves (h : Eval.ClosedForWrites (OnSpace R)) (id : RecordId) (p : Place)
    (v : Value) : Moves R (id.write p v) :=
  (id.limit_moves).bind fun limit => (writeWithin_moves h limit limit id p v).run

end Records

end LiveRecords
