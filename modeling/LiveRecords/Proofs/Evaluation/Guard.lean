import LiveRecords.Proofs.Evaluation.Faulting

/-! # What the guard stops

A read or a write faults over a cycle, or for being too deep, only where a call nested in it
reaches a cell and the guard stops it there. The limit is looked at before the marks: with as many
cells under evaluation as the limit allows, a cell is too deep even if it is one of these.
-/

namespace LiveRecords

open Relation (ReflTransGen)

variable {α β : Type}

/-- A fault that the guard finds. -/
def Fault.ofGuard : Fault → Bool
  | cycle _ _ => true
  | tooDeep _ => true
  | _ => false

theorem Fault.not_failed_of_guard {f : Fault} (h : f.ofGuard = true) (w : Failure) :
    f ≠ .failed w := by
  rintro rfl
  cases h

/-- The call is to evaluate, or to assign, the cell in the field of `id` at `k`, labelled `l`. -/
inductive Moment.Reaches : Moment → RecordId → Key → Label → Prop where
  | read {room σ id p k l c} : σ.space.slot? id p = some (k, ⟨l, .cell c⟩) →
      Reaches ⟨room, σ, .read id p⟩ id k l
  | write {room σ id p v k l c} : σ.space.slot? id p = some (k, ⟨l, .cell c⟩) →
      v.isCell = false → Reaches ⟨room, σ, .write id p v⟩ id k l

/-- The guard stops the call itself with a fault. -/
inductive Moment.Stops (limit : Nat) (M : Moment) : Fault → Prop where
  | cycle {id k l} : M.Reaches id k l → (id, k) ∈ M.session.flight → M.room ≠ 0 →
      Stops limit M (.cycle (M.session.space.displayName id) l)
  | tooDeep {id k l} : M.Reaches id k l → M.room = 0 → Stops limit M (.tooDeep limit)

section Unguarded

/-- The program finds no fault of the guard. -/
def Unguarded {σ : Type} (m : EStateM Fault σ α) : Prop :=
  ∀ s f, fault m s = some f → f.ofGuard = false

theorem Fault.not_ofGuard_of_edit {f : Fault} (h : f.ofEdit = true) : f.ofGuard = false := by
  cases f with
  | cycle | tooDeep => cases h
  | _ => rfl

theorem unguarded_writePlain (id : RecordId) (p : Place) (v : Value) :
    Unguarded (Eval.writePlain id p v) :=
  (faulting_writePlain id p v).mono fun _ => Fault.not_ofGuard_of_edit

theorem unguarded_store (id : RecordId) (k : Key) (v : Value) : Unguarded (Eval.store id k v) :=
  (faulting_store id k v).mono fun _ => Fault.not_ofGuard_of_edit

end Unguarded

section Origins

variable {limit room : Nat} {σ : Session} {id : RecordId} {p : Place} {v : Value} {k : Key}
  {l : Label} {c : Cell} {f : Fault} {M : Moment}

theorem displayName_deepen (hs : σ.space.slot? id p = some (k, ⟨l, v⟩)) :
    (Eval.deepen id σ).space.displayName id = σ.space.displayName id := by
  have agree : σ.space.Agree (Eval.deepen id σ).space :=
    .setRecord (Space.alive_of_slot? hs) rfl rfl
  exact agree.displayName id

theorem fault_readWithin_zero_iff (hf : ∀ w, f ≠ .failed w)
    (hs : σ.space.slot? id p = some (k, ⟨l, .cell c⟩)) :
    fault (readWithin limit 0 id p) σ = some f ↔ f = .tooDeep limit := by
  have hdeep : fault (throw (.tooDeep limit) : Eval Value) (Eval.deepen id σ) =
      some (.tooDeep limit) := rfl
  have hiff : fault (Eval.settling id (throw (.tooDeep limit))) σ = some f ↔
      fault (throw (.tooDeep limit) : Eval Value) (Eval.deepen id σ) = some f :=
    fault_settling_iff hf
  rw [hdeep, Option.some.injEq] at hiff
  rw [fault, readWithin, readBy_cell hs]
  exact hiff.trans eq_comm

theorem Moment.Stops.fault? (h : M.Stops limit f) : M.fault? limit = some f := by
  cases h with
  | @cycle id k l hr hk hroom =>
    cases hr with
    | @read room σ _ p _ _ c hs =>
      obtain ⟨room, rfl⟩ := Nat.exists_eq_succ_of_ne_zero hroom
      have hk' : (id, k) ∈ (Eval.deepen id σ).flight := hk
      rw [fault?_read, fault, readWithin, readBy_cell hs]
      refine (fault_settling_iff (Fault.not_failed_of_guard rfl)).mpr ?_
      rw [fault_guarded_of_mem _ hk', displayName_deepen hs]
    | @write room σ _ p v _ _ c hs hv =>
      obtain ⟨room, rfl⟩ := Nat.exists_eq_succ_of_ne_zero hroom
      rw [fault?_write, fault_writeWithin_through hs hv]
      exact fault_bind_of_fault (fault_guarded_of_mem _ hk)
  | tooDeep hr hroom =>
    cases hr with
    | @read room σ id p k l c hs =>
      obtain rfl : room = 0 := hroom
      have hguard : (Fault.tooDeep limit).ofGuard = true := rfl
      exact fault?_read.trans
        ((fault_readWithin_zero_iff (Fault.not_failed_of_guard hguard) hs).mpr rfl)
    | @write room σ id p v k l c hs hv =>
      obtain rfl : room = 0 := hroom
      rw [fault?_write, fault, writeWithin, writeBy_through hs hv]
      rfl

/-- A fault of the guard over an operand, a formula, a read or a write comes from a call that this
makes, unless the guard stops the read or the write itself. -/
theorem calls_of_operand {a : Operand} (hf : f.ofGuard = true)
    (h : fault (a.eval (readWithin limit room)) σ = some f) :
    ∃ N, Calls limit ⟨room, σ, .operand a⟩ N ∧ N.fault? limit = some f := by
  have target {g : RecordId → Eval Value} (h : fault (Eval.target >>= g) σ = some f) :
      ∃ id targets, σ.targets = id :: targets ∧ fault (g id) σ = some f := by
    rw [fault_bind, Eval.target_run] at h
    cases ht : σ.targets with
    | nil =>
      rw [ht] at h
      cases h
      cases hf
    | cons id targets =>
      rw [ht] at h
      exact ⟨id, targets, rfl, h⟩
  cases a with
  | constant v => cases h
  | here l =>
    obtain ⟨id, targets, ht, h⟩ := target h
    exact ⟨_, .here ht, fault?_read.trans h⟩
  | nested g =>
    obtain ⟨id, targets, ht, h⟩ := target h
    exact ⟨_, .nested ht, fault?_formula.trans h⟩
  | field n =>
    have hrun := Eval.resolve_run (.refl σ.space) n.record
    rw [Operand.eval, fault_bind, hrun] at h
    by_cases ha : σ.space.alive n.record.target = true
    · rw [if_pos ha] at h
      exact ⟨_, .field ha, fault?_read.trans h⟩
    · rw [if_neg ha] at h
      cases h
      cases hf

theorem calls_of_formula {g : Formula} (hf : f.ofGuard = true)
    (h : fault (g.eval (readWithin limit room) id) σ = some f) :
    ∃ N, Calls limit ⟨room, σ, .formula g id⟩ N ∧ N.fault? limit = some f := by
  cases g with
  | mk name apply operands =>
    rw [Formula.eval, fault_onTarget, fault_bind] at h
    cases hall : Operand.evalAll (readWithin limit room) operands
        { σ with targets := id :: σ.targets } with
    | ok vs τ =>
      rw [hall] at h
      dsimp only at h
      rw [fault_bind_of_ok (Eval.space_run τ)] at h
      cases hv : apply τ.space.plainText vs <;> rw [hv] at h <;> cases h
      cases hf
    | error w τ =>
      rw [hall] at h
      cases h
      obtain ⟨done, a, rest, vs, ρ, rfl, hdone, ha⟩ := fault_evalAll_iff.mp (fault_of_error hall)
      exact ⟨_, .operand hdone, fault?_operand.trans ha⟩

theorem calls_of_cell (hf : f.ofGuard = true)
    (hs : σ.space.slot? id p = some (k, ⟨l, .cell c⟩)) (hk : (id, k) ∉ σ.flight)
    (h : fault (c.eval (readWithin limit room) id) (Eval.enter id k σ) = some f) :
    ∃ N, Calls limit ⟨room + 1, σ, .read id p⟩ N ∧ N.fault? limit = some f := by
  cases c with
  | derived i =>
    rw [Cell.eval, fault_bind_of_ok (Eval.space_run _)] at h
    exact ⟨_, .readDerived hs hk, fault?_formula.trans h⟩
  | reference target m =>
    have agree : σ.space.Agree (Eval.enter id k σ).space :=
      .setRecord (Space.alive_of_slot? hs) rfl rfl
    rw [Cell.eval, fault_bind, Eval.follow_run agree] at h
    by_cases ha : σ.space.alive target = true
    · rw [if_pos ha] at h
      exact ⟨_, .readReference hs hk ha, fault?_read.trans h⟩
    · rw [if_neg ha] at h
      cases h
      cases hf

theorem stops_or_calls_of_read (hf : f.ofGuard = true)
    (h : fault (readWithin limit room id p) σ = some f) :
    (⟨room, σ, .read id p⟩ : Moment).Stops limit f ∨
      ∃ N, Calls limit ⟨room, σ, .read id p⟩ N ∧ N.fault? limit = some f := by
  have hpass := Fault.not_failed_of_guard hf
  cases hs : σ.space.slot? id p with
  | none =>
    have hdeep : ∀ evaluate, fault (readBy evaluate id p) σ ≠ some f := by
      intro evaluate h
      rw [fault, readBy_deeper hs] at h
      cases hv : σ.space.value (σ.space.record id).fields p with
      | ok v =>
        rw [hv] at h
        cases h
      | error w =>
        obtain ⟨sought, rfl⟩ := Space.notFound_of_value hv
        rw [hv] at h
        cases h
        cases hf
    cases room <;> exact absurd h (hdeep _)
  | some entry =>
    obtain ⟨k, l, v⟩ := entry
    cases hv : v.isCell with
    | false =>
      have hplain : ∀ evaluate, fault (readBy evaluate id p) σ ≠ some f := by
        intro evaluate h
        rw [fault, readBy_plain hs hv] at h
        cases h
      cases room <;> exact absurd h (hplain _)
    | true =>
      cases v with
      | cell c =>
        cases room with
        | zero =>
          cases (fault_readWithin_zero_iff hpass hs).mp h
          exact .inl (.tooDeep (.read hs) rfl)
        | succ room =>
          by_cases hk : (id, k) ∈ σ.flight
          · have hstop : (⟨room + 1, σ, .read id p⟩ : Moment).Stops limit
                (.cycle (σ.space.displayName id) l) := .cycle (.read hs) hk (Nat.succ_ne_zero room)
            have hcycle := hstop.fault?
            rw [fault?_read, h] at hcycle
            cases hcycle
            exact .inl hstop
          · exact .inr (calls_of_cell hf hs hk ((fault_readWithin_iff hpass hs hk).mp h))
      | _ => cases hv

theorem calls_of_assign {τ : Session} (hf : f.ofGuard = true)
    (hs : σ.space.slot? id p = some (k, ⟨l, .cell c⟩)) (hv : v.isCell = false)
    (hk : (id, k) ∉ σ.flight) (hτ : τ = { σ with flight := (id, k) :: σ.flight })
    (h : fault (c.assign (readWithin limit room) (writeWithin limit room) id k v) τ = some f) :
    ∃ N, Calls limit ⟨room + 1, σ, .write id p v⟩ N ∧ N.fault? limit = some f := by
  subst hτ
  cases c with
  | reference target m =>
    have hrun := Eval.follow_run (σ := { σ with flight := (id, k) :: σ.flight })
      (.refl σ.space) target m
    rw [Cell.assign, fault_bind, hrun] at h
    by_cases ha : σ.space.alive target = true
    · rw [if_pos ha] at h
      exact ⟨_, .writeReference hs hv hk ha, fault?_write.trans ((fault_discard _ _).symm.trans h)⟩
    · rw [if_neg ha] at h
      cases h
      cases hf
  | derived i =>
    rw [Cell.assign, fault_bind_of_ok (Eval.space_run _), fault_bind] at h
    cases hstore : Eval.store id k v { σ with flight := (id, k) :: σ.flight } with
    | error w ρ =>
      rw [hstore] at h
      cases h
      have := unguarded_store id k v _ _ (fault_of_error hstore)
      rw [this] at hf
      cases hf
    | ok _ ρ =>
      rw [hstore] at h
      dsimp only at h
      cases hreact : (σ.space.derivation i).react (readWithin limit room)
          (writeWithin limit room) id ρ with
      | ok _ π =>
        rw [fault_followedBy_of_ok hreact] at h
        rw [unguarded_store _ _ _ _ _ h] at hf
        cases hf
      | error w π =>
        rw [fault_followedBy_of_fault (fault_of_error hreact)] at h
        cases h
        obtain ⟨done, ⟨output, g⟩, rest, ξ, hd, hdone, honce⟩ :=
          fault_forM_iff.mp (fault_of_error hreact)
        have hbefore : (Eval.store id k v >>= fun _ =>
            { σ.space.derivation i with reactions := done }.react
              (readWithin limit room) (writeWithin limit room) id)
            { σ with flight := (id, k) :: σ.flight } = .ok () ξ := (bind_of_ok hstore).trans hdone
        change fault (Derived.reactOnce (readWithin limit room) (writeWithin limit room) id output
          g) ξ = some f at honce
        rw [Derived.reactOnce, fault_bind] at honce
        cases hg : g.eval (readWithin limit room) id ξ with
        | error e υ =>
          rw [hg] at honce
          cases honce
          exact ⟨_, .reaction hs hv hk hd hbefore, fault?_formula.trans (fault_of_error hg)⟩
        | ok w υ =>
          rw [hg] at honce
          dsimp only at honce
          rw [fault_discard] at honce
          exact ⟨_, .output hs hv hk hd hbefore hg, fault?_write.trans honce⟩

theorem stops_or_calls_of_write (hf : f.ofGuard = true)
    (h : fault (writeWithin limit room id p v) σ = some f) :
    (⟨room, σ, .write id p v⟩ : Moment).Stops limit f ∨
      ∃ N, Calls limit ⟨room, σ, .write id p v⟩ N ∧ N.fault? limit = some f := by
  rcases through_or_plain σ.space id p v with ⟨k, l, c, hs, hv⟩ | hv
  · cases room with
    | zero =>
      rw [fault, writeWithin, writeBy_through hs hv] at h
      cases h
      exact .inl (.tooDeep (.write hs hv) rfl)
    | succ room =>
      by_cases hk : (id, k) ∈ σ.flight
      · have hstop : (⟨room + 1, σ, .write id p v⟩ : Moment).Stops limit
            (.cycle (σ.space.displayName id) l) := .cycle (.write hs hv) hk (Nat.succ_ne_zero room)
        have hcycle := hstop.fault?
        rw [fault?_write, h] at hcycle
        cases hcycle
        exact .inl hstop
      · refine .inr ?_
        rw [fault_writeWithin_through hs hv, fault_bind] at h
        cases hassign : Eval.guarded id k l
            (c.assign (readWithin limit room) (writeWithin limit room) id k v) σ with
        | error w τ =>
          rw [hassign] at h
          cases h
          refine calls_of_assign hf hs hv hk rfl ?_
          rw [← fault_guarded_of_not_mem (l := l) _ hk, fault_of_error hassign]
        | ok _ τ =>
          rw [hassign] at h
          dsimp only at h
          rw [fault_noteEffective] at h
          exact ⟨_, .effective hs hv hassign, fault?_read.trans h⟩
  · have hplain : ∀ assign read, fault (writeBy assign read id p v) σ ≠ some f := by
      intro assign read h
      rw [fault, writeBy_plain hv] at h
      rw [unguarded_writePlain id p v σ f h] at hf
      cases hf
    cases room <;> exact absurd h (hplain _ _)

theorem Moment.stops_or_calls (hf : f.ofGuard = true) (h : M.fault? limit = some f) :
    M.Stops limit f ∨ ∃ N, Calls limit M N ∧ N.fault? limit = some f := by
  obtain ⟨room, σ, call⟩ := M
  cases call with
  | read id p => exact stops_or_calls_of_read hf (fault?_read.symm.trans h)
  | write id p v => exact stops_or_calls_of_write hf (fault?_write.symm.trans h)
  | formula g id => exact .inr (calls_of_formula hf (fault?_formula.symm.trans h))
  | operand a => exact .inr (calls_of_operand hf (fault?_operand.symm.trans h))

/-- A call faults over the guard just where the guard stops it or a call nested in it. The
induction is along nested calls, which come to an end. -/
theorem Moment.fault?_iff_stops (hf : f.ofGuard = true) :
    M.fault? limit = some f ↔ ∃ N, ReflTransGen (Calls limit) M N ∧ N.Stops limit f := by
  constructor
  · intro h
    induction M using (calls_wellFounded limit).induction with
    | h M ih =>
      rcases M.stops_or_calls hf h with hstop | ⟨N, hcall, hN⟩
      · exact ⟨M, .refl, hstop⟩
      · obtain ⟨L, hreached, hstop⟩ := ih N hcall hN
        exact ⟨L, .head hcall hreached, hstop⟩
  · rintro ⟨N, hreached, hstop⟩
    exact Calls.fault?_of_reached hreached (Fault.not_failed_of_guard hf) hstop.fault?

end Origins

end LiveRecords
