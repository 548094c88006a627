import Mathlib.Order.Defs.Unbundled
import LiveRecords.Fault

/-! # Effects of programs that may fault

What a program did before it faulted stays done, so a law about states has to hold wherever
the program ends. A preorder that every step keeps to leads from the start of a run to its end.
-/

namespace LiveRecords

variable {σ α β : Type}

/-- The state in which a program ends, with a fault or without. -/
def final (m : EStateM Fault σ α) (s : σ) : σ :=
  match m s with
  | .ok _ t => t
  | .error _ t => t

/-- What a program answers, if it does not fault. -/
def answer (m : EStateM Fault σ α) (s : σ) : Option α :=
  match m s with
  | .ok a _ => some a
  | .error _ _ => none

/-- The fault in which a program ends, if it ends in one. -/
def fault (m : EStateM Fault σ α) (s : σ) : Option Fault :=
  match m s with
  | .ok _ _ => none
  | .error e _ => some e

/-- From wherever `m` starts, `R` leads to where it ends. -/
def Moves (R : σ → σ → Prop) (m : EStateM Fault σ α) : Prop := ∀ s, R s (final m s)

section Outcomes

variable {m : EStateM Fault σ α} {f : α → EStateM Fault σ β} {s t : σ} {a : α} {e : Fault}

theorem final_of_ok (h : m s = .ok a t) : final m s = t := by simp [final, h]

theorem final_of_error (h : m s = .error e t) : final m s = t := by simp [final, h]

theorem answer_eq_some_iff : answer m s = some a ↔ ∃ t, m s = .ok a t := by
  cases h : m s <;> simp [answer, h]

theorem fault_eq_some_iff : fault m s = some e ↔ ∃ t, m s = .error e t := by
  cases h : m s <;> simp [fault, h]

theorem bind_of_ok (h : m s = .ok a t) : (m >>= f) s = f a t := by
  simp [bind, EStateM.bind, h]

theorem bind_of_error (h : m s = .error e t) : (m >>= f) s = .error e t := by
  simp [bind, EStateM.bind, h]

theorem bind_eq_ok_iff {b : β} {u : σ} :
    (m >>= f) s = .ok b u ↔ ∃ a t, m s = .ok a t ∧ f a t = .ok b u := by
  constructor
  · intro hb
    cases h : m s with
    | ok a t => exact ⟨a, t, rfl, by rwa [bind_of_ok h] at hb⟩
    | error e t => rw [bind_of_error h] at hb; cases hb
  · rintro ⟨a, t, h, ht⟩
    rwa [bind_of_ok h]

theorem discard_of_ok (h : m s = .ok a t) : discard m s = .ok () t := by
  change (Function.const α PUnit.unit <$> m) s = _
  simp [Functor.map, EStateM.map, h]

theorem discard_of_error (h : m s = .error e t) : discard m s = .error e t := by
  change (Function.const α PUnit.unit <$> m) s = _
  simp [Functor.map, EStateM.map, h]

theorem discard_eq_ok_iff {u : PUnit} : discard m s = .ok u t ↔ ∃ a, m s = .ok a t := by
  cases h : m s with
  | ok a t' => simp [discard_of_ok h]
  | error e t' => simp [discard_of_error h]

theorem discard_map (f : α → β) (m : EStateM Fault σ α) : discard (f <$> m) = discard m := by
  funext s
  cases h : m s <;> simp [discard, Functor.mapConst, Functor.map, EStateM.map, h]

theorem discard_unit (m : EStateM Fault σ Unit) : discard m = m := by
  funext s
  cases h : m s with
  | ok a t => exact discard_of_ok h
  | error e t => exact discard_of_error h

theorem final_bind (m : EStateM Fault σ α) (f : α → EStateM Fault σ β) (s : σ) :
    final (m >>= f) s =
      match m s with
      | .ok a t => final (f a) t
      | .error _ t => t := by
  cases h : m s with
  | ok a t => simp only [final, bind_of_ok h]
  | error e t => exact final_of_error (bind_of_error h)

theorem final_bind_pure (m : EStateM Fault σ α) (g : α → β) (s : σ) :
    final (m >>= fun a => pure (g a)) s = final m s := by
  rw [final_bind]
  cases h : m s with
  | ok a t => rw [final_of_ok h]; rfl
  | error e t => rw [final_of_error h]

theorem final_discard (m : EStateM Fault σ α) (s : σ) : final (discard m) s = final m s := by
  cases h : m s with
  | ok a t => rw [final_of_ok h, final_of_ok (discard_of_ok h)]
  | error e t => rw [final_of_error h, final_of_error (discard_of_error h)]

theorem fault_of_error (h : m s = .error e t) : fault m s = some e := by simp [fault, h]

theorem fault_bind (m : EStateM Fault σ α) (f : α → EStateM Fault σ β) (s : σ) :
    fault (m >>= f) s =
      match m s with
      | .ok a t => fault (f a) t
      | .error e _ => some e := by
  cases h : m s with
  | ok a t => simp only [fault, bind_of_ok h]
  | error e t => exact fault_of_error (bind_of_error h)

theorem fault_bind_of_ok (h : m s = .ok a t) : fault (m >>= f) s = fault (f a) t := by
  rw [fault_bind, h]

theorem fault_bind_of_fault (h : fault m s = some e) : fault (m >>= f) s = some e := by
  obtain ⟨t, ht⟩ := fault_eq_some_iff.mp h
  rw [fault_bind, ht]

theorem fault_discard (m : EStateM Fault σ α) (s : σ) : fault (discard m) s = fault m s := by
  cases h : m s with
  | ok a t => simp only [fault, discard_of_ok h, h]
  | error e t => rw [fault_of_error h, fault_of_error (discard_of_error h)]

/-- A loop ends in the fault of the first pass that faults. -/
theorem fault_forM_iff {f : α → EStateM Fault σ Unit} {l : List α} {s : σ} {e : Fault} :
    fault (l.forM f) s = some e ↔
      ∃ done a rest t, l = done ++ a :: rest ∧ done.forM f s = .ok () t ∧
        fault (f a) t = some e := by
  constructor
  · intro h
    induction l generalizing s with
    | nil => cases h
    | cons a l ih =>
      have hcons : (a :: l).forM f = (f a >>= fun _ => l.forM f) := rfl
      rw [hcons] at h
      cases ha : f a s with
      | ok _ t =>
        rw [fault_bind_of_ok ha] at h
        obtain ⟨done, b, rest, u, rfl, hdone, hb⟩ := ih h
        exact ⟨a :: done, b, rest, u, rfl, (bind_of_ok ha).trans hdone, hb⟩
      | error w t =>
        rw [fault_of_error (bind_of_error ha)] at h
        exact ⟨[], a, l, s, rfl, rfl, (fault_of_error ha).trans h⟩
  · rintro ⟨done, a, rest, t, rfl, hdone, ha⟩
    have happend : (done ++ a :: rest).forM f =
        (done.forM f >>= fun _ => (a :: rest).forM f) := List.forM_append
    rw [happend, fault_bind_of_ok hdone]
    exact fault_bind_of_fault ha

end Outcomes

section Moving

variable {R : σ → σ → Prop} [IsPreorder σ R]

theorem moves_of_final {m : EStateM Fault σ α} (h : ∀ s, final m s = s) : Moves R m := by
  intro s
  rw [h s]
  exact refl_of R s

theorem moves_pure (a : α) : Moves R (pure a : EStateM Fault σ α) :=
  moves_of_final fun _ => rfl

theorem moves_throw (e : Fault) : Moves R (throw e : EStateM Fault σ α) :=
  moves_of_final fun _ => rfl

theorem moves_get : Moves R (get : EStateM Fault σ σ) := moves_of_final fun _ => rfl

theorem moves_ofExcept (r : Except Fault α) :
    Moves R (MonadExcept.ofExcept r : EStateM Fault σ α) :=
  moves_of_final fun _ => by cases r <;> rfl

/-- What leads to where the first part ends, and on from anywhere, leads to where both end. -/
theorem leads_bind {m : EStateM Fault σ α} {f : α → EStateM Fault σ β} {s : σ}
    (hm : R s (final m s)) (hf : ∀ a, Moves R (f a)) : R s (final (m >>= f) s) := by
  rw [final_bind]
  cases h : m s with
  | ok a t =>
    rw [final_of_ok h] at hm
    exact trans_of R hm (hf a t)
  | error e t => rwa [final_of_error h] at hm

theorem Moves.bind {m : EStateM Fault σ α} {f : α → EStateM Fault σ β} (hm : Moves R m)
    (hf : ∀ a, Moves R (f a)) : Moves R (m >>= f) := fun s => leads_bind (hm s) hf

theorem Moves.map {m : EStateM Fault σ α} (f : α → β) (hm : Moves R m) : Moves R (f <$> m) :=
  hm.bind fun a => moves_pure (f a)

theorem Moves.discard {m : EStateM Fault σ α} (hm : Moves R m) : Moves R (discard m) :=
  hm.map _

omit [IsPreorder σ R] in
theorem Moves.of_discard {m : EStateM Fault σ α} (hm : Moves R (Functor.discard m)) :
    Moves R m := fun s => final_discard m s ▸ hm s

theorem moves_forM {f : α → EStateM Fault σ Unit} (l : List α) (h : ∀ a ∈ l, Moves R (f a)) :
    Moves R (l.forM f) := by
  induction l with
  | nil => exact moves_pure ()
  | cons a l ih =>
    refine Moves.bind (h a List.mem_cons_self) fun _ => ?_
    exact ih fun b hb => h b (List.mem_cons_of_mem _ hb)

theorem moves_mapM {f : α → EStateM Fault σ β} (l : List α) (h : ∀ a ∈ l, Moves R (f a)) :
    Moves R (l.mapM f) := by
  induction l with
  | nil => exact moves_pure []
  | cons a l ih =>
    rw [List.mapM_cons]
    refine (h a List.mem_cons_self).bind fun _ => Moves.bind ?_ fun _ => moves_pure _
    exact ih fun b hb => h b (List.mem_cons_of_mem _ hb)

end Moving

end LiveRecords
