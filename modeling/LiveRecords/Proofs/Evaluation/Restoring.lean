import LiveRecords.Proofs.Evaluation.Cycles
import LiveRecords.Proofs.Evaluation.Writing

/-! # What a session is left with

Each formula takes its record off the targets again and each cell its mark off the cells under
evaluation, whatever comes of them. Only a cycle leaves marks behind.
-/

namespace LiveRecords

variable {α β : Type}

/-- How an outcome leaves the session `σ`: the formulas under evaluation are those of before, and
so are the cells, but for a cycle. -/
inductive Session.Restored (σ : Session) : EStateM.Result Fault Session α → Prop where
  | ok {a τ} : τ.flight = σ.flight → τ.targets = σ.targets → Restored σ (.ok a τ)
  | fault {f τ} : f.isCycle = false → τ.flight = σ.flight → τ.targets = σ.targets →
      Restored σ (.error f τ)
  | cycle {name l τ} : τ.targets = σ.targets → Restored σ (.error (.cycle name l) τ)

/-- Whichever session it runs in, the program restores it. -/
def Restores (m : Eval α) : Prop := ∀ σ : Session, σ.Restored (m σ)

section Outcomes

variable {σ ρ τ : Session} {m : Eval α}

theorem Session.Restored.of_ok {a : α} (h : σ.Restored (.ok a τ)) :
    τ.flight = σ.flight ∧ τ.targets = σ.targets := by
  cases h with
  | ok hf ht => exact ⟨hf, ht⟩

theorem Session.Restored.after {r : EStateM.Result Fault Session α} (hf : ρ.flight = σ.flight)
    (ht : ρ.targets = σ.targets) (h : ρ.Restored r) : σ.Restored r := by
  cases h with
  | ok hf' ht' => exact .ok (hf'.trans hf) (ht'.trans ht)
  | fault hc hf' ht' => exact .fault hc (hf'.trans hf) (ht'.trans ht)
  | cycle ht' => exact .cycle (ht'.trans ht)

theorem Session.restored_error (f : Fault) (hf : τ.flight = σ.flight)
    (ht : τ.targets = σ.targets) : σ.Restored (.error f τ : EStateM.Result Fault Session α) := by
  cases f with
  | cycle => exact .cycle ht
  | _ => exact .fault rfl hf ht

theorem Restores.of_ok {a : α} (hm : Restores m) (h : m σ = .ok a τ) :
    τ.flight = σ.flight ∧ τ.targets = σ.targets := by
  have hσ := hm σ
  rw [h] at hσ
  exact hσ.of_ok

theorem Restores.final_targets (hm : Restores m) (σ : Session) :
    (final m σ).targets = σ.targets := by
  have h := hm σ
  unfold final
  generalize m σ = r at h
  cases h with
  | ok _ ht => exact ht
  | fault _ _ ht => exact ht
  | cycle ht => exact ht

theorem Restores.final_flight (hm : Restores m)
    (hc : ∀ name l, fault m σ ≠ some (.cycle name l)) : (final m σ).flight = σ.flight := by
  have h := hm σ
  unfold fault at hc
  unfold final
  generalize m σ = r at h hc
  cases h with
  | ok hf _ => exact hf
  | fault _ hf _ => exact hf
  | cycle _ => exact absurd rfl (hc _ _)

end Outcomes

section Programs

variable {m : Eval α}

theorem restores_pure (a : α) : Restores (pure a : Eval α) := fun _ => .ok rfl rfl

theorem restores_throw (f : Fault) : Restores (throw f : Eval α) := fun _ =>
  Session.restored_error f rfl rfl

theorem restores_ofExcept (r : Except Fault α) :
    Restores (MonadExcept.ofExcept r : Eval α) := by
  cases r with
  | ok a => exact restores_pure a
  | error f => exact restores_throw f

theorem Restores.bind {f : α → Eval β} (hm : Restores m) (hf : ∀ a, Restores (f a)) :
    Restores (m >>= f) := by
  intro σ
  have hσ := hm σ
  cases h : m σ with
  | ok a τ =>
    rw [h] at hσ
    obtain ⟨hflight, htargets⟩ := hσ.of_ok
    rw [bind_of_ok h]
    exact (hf a τ).after hflight htargets
  | error w τ =>
    rw [h] at hσ
    rw [bind_of_error h]
    cases hσ with
    | fault hc hflight htargets => exact .fault hc hflight htargets
    | cycle htargets => exact .cycle htargets

theorem Restores.discard (hm : Restores m) : Restores (discard m) :=
  hm.bind fun _ => restores_pure _

theorem restores_forM {f : α → Eval Unit} (l : List α) (h : ∀ a ∈ l, Restores (f a)) :
    Restores (l.forM f) := by
  induction l with
  | nil => exact restores_pure ()
  | cons a l ih =>
    refine (h a List.mem_cons_self).bind fun _ => ?_
    exact ih fun b hb => h b (List.mem_cons_of_mem _ hb)

theorem restores_edit (e : Edit α) : Restores (Eval.edit e) := by
  intro σ
  rw [Eval.edit]
  split
  · exact .ok rfl rfl
  · exact Session.restored_error _ rfl rfl

theorem restores_space : Restores Eval.space := fun _ => .ok rfl rfl

theorem restores_target : Restores Eval.target := by
  intro σ
  rw [Eval.target_run]
  split
  · exact .ok rfl rfl
  · exact .fault rfl rfl rfl

theorem Restores.onTarget (hm : Restores m) (id : RecordId) : Restores (Eval.onTarget id m) := by
  intro σ
  have h := hm { σ with targets := id :: σ.targets }
  rw [Eval.onTarget_run, Eval.andThen]
  cases hr : m { σ with targets := id :: σ.targets } with
  | ok a τ =>
    rw [hr] at h
    exact .ok h.of_ok.1 (congrArg List.tail h.of_ok.2)
  | error f τ =>
    rw [hr] at h
    cases h with
    | fault hc hf ht => exact .fault hc hf (congrArg List.tail ht)
    | cycle ht => exact .cycle (congrArg List.tail ht)

theorem Restores.guarded (hm : Restores m) (id : RecordId) (k : Key) (l : Label) :
    Restores (Eval.guarded id k l m) := by
  intro σ
  by_cases hk : σ.flight.contains (id, k) = true
  · rw [Eval.guarded_of_mem m hk]
    exact .cycle rfl
  · have h := hm { σ with flight := (id, k) :: σ.flight }
    have back : ∀ {τ : Session}, τ.flight = (id, k) :: σ.flight →
        τ.flight.erase (id, k) = σ.flight := by
      intro τ hτ
      rw [hτ, List.erase_cons_head]
    rw [Eval.guarded_of_not_mem m hk, Eval.andThen]
    cases hr : m { σ with flight := (id, k) :: σ.flight } with
    | ok a τ =>
      rw [hr] at h
      exact .ok (back h.of_ok.1) h.of_ok.2
    | error f τ =>
      rw [hr] at h
      cases h with
      | cycle ht => exact .cycle ht
      | fault hc hf ht =>
        cases f with
        | cycle => cases hc
        | _ => exact .fault rfl (back hf) ht

theorem Session.Restored.conclude {σ τ : Session} {id : RecordId} {outcome : Except Fault Value}
    (ht : τ.targets = σ.targets)
    (hf : (∀ f, outcome = .error f → f.isCycle = false) → τ.flight = σ.flight) :
    σ.Restored (Eval.conclude id outcome τ) := by
  unfold Eval.conclude
  dsimp only
  split
  · rename_i v hv
    refine .ok (hf fun f ho => ?_) ht
    cases f with
    | cycle =>
      rw [ho] at hv
      cases hv
    | _ => rfl
  · rename_i f hv
    cases hc : f.isCycle with
    | true =>
      cases f with
      | cycle => exact .cycle ht
      | _ => cases hc
    | false =>
      refine .fault hc (hf fun g ho => ?_) ht
      cases g with
      | cycle =>
        rw [ho] at hv
        cases hv
        cases hc
      | _ => rfl

theorem Restores.settling {m : Eval Value} (hm : Restores m) (id : RecordId) :
    Restores (Eval.settling id m) := by
  intro σ
  have h := hm (Eval.deepen id σ)
  rw [Eval.settling]
  cases hr : m (Eval.deepen id σ) with
  | ok v τ =>
    rw [hr] at h
    exact .conclude h.of_ok.2 fun _ => h.of_ok.1
  | error f τ =>
    rw [hr] at h
    cases h with
    | fault hc hf ht => exact .conclude ht fun _ => hf
    | cycle ht => exact .conclude ht fun hc => Bool.noConfusion (hc _ rfl)

/-- Putting a value back after `m` does not hide how `m` left the session. -/
theorem Restores.followedBy {m : Eval Unit} (hm : Restores m) (e : Edit Unit) :
    Restores (m.followedBy (Eval.edit e)) := by
  intro σ
  have h := hm σ
  rw [Eval.followedBy]
  cases hr : m σ with
  | ok _ τ =>
    rw [hr] at h
    exact (restores_edit e τ).after h.of_ok.1 h.of_ok.2
  | error f τ =>
    rw [hr] at h
    dsimp only
    rw [Eval.edit]
    cases e τ.space <;> cases h with
    | fault hc hf ht => exact .fault hc hf ht
    | cycle ht => exact .cycle ht

end Programs

section Reading

variable {read : Reader}

mutual

theorem Formula.eval_restores (hread : ∀ id p, Restores (read id p)) (f : Formula)
    (id : RecordId) : Restores (f.eval read id) := by
  cases f with
  | mk name apply operands =>
    refine Restores.onTarget ?_ id
    refine (Operand.evalAll_restores hread operands).bind fun vs => restores_space.bind fun s => ?_
    split
    · exact restores_pure _
    · exact restores_throw _

theorem Operand.eval_restores (hread : ∀ id p, Restores (read id p)) (a : Operand) :
    Restores (a.eval read) := by
  cases a with
  | constant v => exact restores_pure v
  | here l => exact restores_target.bind fun id => hread id _
  | nested f => exact restores_target.bind fun id => Formula.eval_restores hread f id
  | field n => exact (restores_edit _).bind fun id => hread id _

theorem Operand.evalAll_restores (hread : ∀ id p, Restores (read id p)) (as : List Operand) :
    Restores (Operand.evalAll read as) := by
  cases as with
  | nil => exact restores_pure []
  | cons a as =>
    refine (Operand.eval_restores hread a).bind fun v => ?_
    exact (Operand.evalAll_restores hread as).bind fun vs => restores_pure _

end

theorem Cell.eval_restores (hread : ∀ id p, Restores (read id p)) (owner : RecordId) (c : Cell) :
    Restores (c.eval read owner) := by
  cases c with
  | derived i => exact restores_space.bind fun s => Formula.eval_restores hread _ owner
  | reference target l => exact (restores_edit _).bind fun id => hread id _

theorem readBy_restores {evaluate : RecordId → Key → Label → Cell → Eval Value}
    (he : ∀ id k l c, Restores (evaluate id k l c)) (id : RecordId) (p : Place) :
    Restores (readBy evaluate id p) := by
  refine restores_space.bind fun s => ?_
  split
  · exact restores_ofExcept _
  · exact he id _ _ _
  · exact restores_pure _

theorem readWithin_restores (limit room : Nat) (id : RecordId) (p : Place) :
    Restores (readWithin limit room id p) := by
  induction room generalizing id p with
  | zero => exact readBy_restores (fun id _ _ _ => (restores_throw _).settling id) id p
  | succ room ih =>
    refine readBy_restores (fun id k l c => ?_) id p
    exact ((c.eval_restores ih id).guarded id k l).settling id

end Reading

section Writing

variable {read : Reader} {write : Writer}

theorem Derived.react_restores (hread : ∀ id p, Restores (read id p))
    (hwrite : ∀ id p v, Restores (write id p v)) (owner : RecordId) (d : Derived) :
    Restores (d.react read write owner) := by
  refine restores_forM _ fun r _ => ?_
  exact (r.2.eval_restores hread owner).bind fun v => (hwrite owner _ v).discard

theorem Cell.assign_restores (hread : ∀ id p, Restores (read id p))
    (hwrite : ∀ id p v, Restores (write id p v)) (owner : RecordId) (k : Key) (v : Value)
    (c : Cell) : Restores (c.assign read write owner k v) := by
  cases c with
  | derived i =>
    refine restores_space.bind fun s => (restores_edit _).bind fun _ => ?_
    exact ((s.derivation i).react_restores hread hwrite owner).followedBy _
  | reference target l => exact (restores_edit _).bind fun id => (hwrite id _ v).discard

theorem writeBy_restores {assign : RecordId → Key → Label → Cell → Value → Eval Unit}
    (ha : ∀ id k l c v, Restores (assign id k l c v)) (hread : ∀ id p, Restores (read id p))
    (id : RecordId) (p : Place) (v : Value) : Restores (writeBy assign read id p v) := by
  refine restores_space.bind fun s => ?_
  split
  · refine (ha id _ _ _ v).bind fun _ => (hread id _).bind fun w => ?_
    exact (restores_edit _).bind fun _ => restores_pure _
  · refine (restores_edit _).bind fun k => restores_space.bind fun t => ?_
    refine (restores_ofExcept _).bind fun f => ?_
    exact (restores_edit _).bind fun _ => restores_pure _

theorem writeWithin_restores (limit room : Nat) (id : RecordId) (p : Place) (v : Value) :
    Restores (writeWithin limit room id p v) := by
  induction room generalizing id p v with
  | zero =>
    exact writeBy_restores (fun _ _ _ _ _ => restores_throw _) (readWithin_restores limit 0) id p v
  | succ room ih =>
    refine writeBy_restores (fun id k l c v => ?_) (readWithin_restores limit (room + 1)) id p v
    exact (c.assign_restores (readWithin_restores limit room) ih id k v).guarded id k l

end Writing

end LiveRecords
