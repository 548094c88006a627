import LiveRecords.Proofs.Evaluation.Calls

/-! # The faults that programs end in

A bound on the faults that a program may end in is one for its parts. Edits of a space fault only
where something is not found or a field is refused; the guard adds its own faults, and evaluating
cells adds failures.
-/

namespace LiveRecords

variable {α β : Type}

/-- The program faults only as `P` says. -/
def Faulting {σ : Type} (P : Fault → Prop) (m : EStateM Fault σ α) : Prop :=
  ∀ s f, fault m s = some f → P f

section Programs

variable {σ : Type} {P : Fault → Prop} {m : EStateM Fault σ α}

theorem Faulting.mono {Q : Fault → Prop} (hm : Faulting P m) (h : ∀ f, P f → Q f) :
    Faulting Q m :=
  fun s f hf => h f (hm s f hf)

theorem faulting_of_fault_eq_none (h : ∀ s, fault m s = none) : Faulting P m := by
  intro s f hf
  rw [h s] at hf
  cases hf

theorem faulting_pure (a : α) : Faulting P (pure a : EStateM Fault σ α) :=
  faulting_of_fault_eq_none fun _ => rfl

theorem faulting_throw {f : Fault} (hf : P f) : Faulting P (throw f : EStateM Fault σ α) := by
  rintro s _ ⟨⟩
  exact hf

theorem faulting_ofExcept {r : Except Fault α} (h : ∀ f, r = .error f → P f) :
    Faulting P (MonadExcept.ofExcept r : EStateM Fault σ α) := by
  cases r with
  | ok a => exact faulting_pure a
  | error f => exact faulting_throw (h f rfl)

theorem Faulting.bind {f : α → EStateM Fault σ β} (hm : Faulting P m)
    (hf : ∀ a, Faulting P (f a)) : Faulting P (m >>= f) := by
  intro s e he
  rw [fault_bind] at he
  cases h : m s with
  | ok a t =>
    rw [h] at he
    exact hf a t e he
  | error w t =>
    rw [h] at he
    cases he
    exact hm s _ (fault_of_error h)

theorem Faulting.discard (hm : Faulting P m) : Faulting P (discard m) :=
  hm.bind fun _ => faulting_pure _

theorem faulting_forM {f : β → EStateM Fault σ Unit} (l : List β)
    (h : ∀ b ∈ l, Faulting P (f b)) : Faulting P (l.forM f) := by
  intro s e he
  obtain ⟨done, b, rest, t, rfl, -, hb⟩ := fault_forM_iff.mp he
  exact h b (List.mem_append_right done List.mem_cons_self) t e hb

end Programs

namespace Fault

/-- A fault of an edit: nothing is found there, or a field is refused. -/
def ofEdit : Fault → Bool
  | notFound _ => true
  | refused (.labelInUse _) => true
  | refused .selfNesting => true
  | _ => false

end Fault

section Edits

theorem faulting_resolve (n : RecordName) :
    Faulting (fun f => f.ofEdit = true) (Edit.resolve n) := by
  intro s f hf
  rw [fault, Edit.resolve_run] at hf
  cases ha : s.alive n.target <;> rw [ha] at hf <;> cases hf
  rfl

theorem faulting_follow (target : RecordId) (l : Label) :
    Faulting (fun f => f.ofEdit = true) (Edit.follow target l) := by
  intro s f hf
  rw [fault, Edit.follow_run] at hf
  cases ha : s.alive target <;> rw [ha] at hf <;> cases hf
  rfl

theorem faulting_replaceWithin (opened : List ContainerId) (h : Holder) (k : Key) (v : Value) :
    Faulting (fun f => f.ofEdit = true) (h.replaceWithin opened k v) := by
  intro s f hf
  rw [fault, Holder.replaceWithin_run] at hf
  cases hk : (s.contents h).field? k <;> cases hn : s.nests opened v <;>
    simp only [hk, hn] at hf <;> cases hf <;> rfl

theorem faulting_insert (h : Holder) (l : Label) (v : Value)
    (arrange : Key → List Key → List Key) :
    Faulting (fun f => f.ofEdit = true) (h.insert l v arrange) := by
  intro s f hf
  rw [fault, Holder.insert_run] at hf
  cases hl : (s.contents h).hasLabel l <;> cases hn : s.nests h.opened v <;>
    simp only [hl, hn] at hf <;> cases hf <;> rfl

theorem faulting_assign (h : Holder) (p : Place) (v : Value) :
    Faulting (fun f => f.ofEdit = true) (h.assign p v) := by
  refine Faulting.bind (faulting_of_fault_eq_none fun _ => rfl) fun c => ?_
  cases p with
  | label l =>
    dsimp only
    cases c.key? l with
    | some k => exact (faulting_replaceWithin _ _ k v).discard.bind fun _ => faulting_pure k
    | none => exact faulting_insert h l v _
  | key k =>
    refine Faulting.bind (faulting_of_fault_eq_none fun _ => rfl) fun s => ?_
    cases s.locate c k with
    | none => exact faulting_throw rfl
    | some path => exact (faulting_replaceWithin _ _ k v).discard.bind fun _ => faulting_pure k

end Edits

section Sessions

variable {P : Fault → Prop}

theorem Faulting.edit {e : Edit α} (he : Faulting P e) : Faulting P (Eval.edit e) :=
  fun σ f hf => he σ.space f (fault_edit e σ ▸ hf)

theorem faulting_space : Faulting P Eval.space := faulting_of_fault_eq_none fun _ => rfl

theorem faulting_store (id : RecordId) (k : Key) (v : Value) :
    Faulting (fun f => f.ofEdit = true) (Eval.store id k v) :=
  (faulting_replaceWithin _ _ k v).discard.edit

theorem faulting_writePlain (id : RecordId) (p : Place) (v : Value) :
    Faulting (fun f => f.ofEdit = true) (Eval.writePlain id p v) := by
  refine (faulting_assign _ p v).edit.bind fun k => faulting_space.bind fun s => ?_
  refine (faulting_ofExcept fun f hf => ?_).bind fun g => ?_
  · rw [Space.field] at hf
    cases hk : s.field? (s.record id).fields k <;> rw [hk] at hf <;> cases hf
    rfl
  · exact Faulting.bind (faulting_of_fault_eq_none fun _ => rfl) fun _ => faulting_pure k

theorem Faulting.guarded {m : Eval α} (hm : Faulting P m) (hc : ∀ name l, P (.cycle name l))
    (id : RecordId) (k : Key) (l : Label) : Faulting P (Eval.guarded id k l m) := by
  intro σ f hf
  by_cases hk : (id, k) ∈ σ.flight
  · rw [fault_guarded_of_mem m hk] at hf
    cases hf
    exact hc _ _
  · exact hm _ f ((fault_guarded_of_not_mem m hk).symm.trans hf)

/-- Where failures are put off, the record's outermost cell may end in any of them. -/
theorem Faulting.settling {m : Eval Value} (hm : Faulting P m) (hw : ∀ w, P (.failed w))
    (id : RecordId) : Faulting P (Eval.settling id m) := by
  intro σ f hf
  by_cases hfailed : ∃ w, f = .failed w
  · obtain ⟨w, rfl⟩ := hfailed
    exact hw w
  · exact hm _ f ((fault_settling_iff fun w h => hfailed ⟨w, h⟩).mp hf)

theorem Faulting.followedBy {m after : Eval Unit} (hm : Faulting P m) (ha : Faulting P after) :
    Faulting P (m.followedBy after) := by
  intro σ f hf
  cases h : m σ with
  | ok _ τ => exact ha τ f ((fault_followedBy_of_ok h).symm.trans hf)
  | error w τ =>
    rw [fault_followedBy_of_fault (fault_of_error h)] at hf
    cases hf
    exact hm σ f (fault_of_error h)

end Sessions

end LiveRecords
