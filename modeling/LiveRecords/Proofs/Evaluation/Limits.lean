import LiveRecords.Proofs.Evaluation.Relays

/-! # Limits make no difference until they are met

Reads and writes are run side by side in two spaces that differ at most in how many nested cells
their records allow. Only the limit of the record that is asked counts, and a higher one changes
nothing unless the lower one is met: then the run ends in being too deep, whatever else is under
way.
-/

namespace LiveRecords

variable {α β σ : Type}

/-- The record without its limit. -/
def Record.unlimited (r : Record) : Record := { r with maxDepth := 0 }

theorem Record.settle_unlimited (r : Record) (outcome : Except Fault Value) :
    r.unlimited.settle outcome = ((r.settle outcome).1, (r.settle outcome).2.unlimited) := by
  unfold settle unlimited
  split
  · dsimp only
    split <;> rfl
  · dsimp only
    split <;> rfl
  · dsimp only
    split <;> rfl

namespace Space

/-- The same space but for the limits of records. -/
structure Relimited (s t : Space) : Prop where
  containers : t.containers = s.containers
  derived : t.derived = s.derived
  nextKey : t.nextKey = s.nextKey
  nextContainer : t.nextContainer = s.nextContainer
  nextDerived : t.nextDerived = s.nextDerived
  nextRecord : t.nextRecord = s.nextRecord
  alive : ∀ id, t.alive id = s.alive id
  record : ∀ id, (t.record id).unlimited = (s.record id).unlimited

variable {s t : Space} {r q : Record}

theorem relimited_setRecord {id : RecordId} (ha : s.alive id = true) (maxDepth : Nat) :
    s.Relimited (s.setRecord id { s.record id with maxDepth }) := by
  refine ⟨rfl, rfl, rfl, rfl, rfl, rfl, fun j => ?_, fun j => ?_⟩
  · rw [alive_setRecord]
    by_cases hj : j = id <;> simp [hj, ha]
  · rw [record_setRecord]
    split
    · rename_i hj
      rw [hj]
      rfl
    · rfl

namespace Relimited

variable (h : s.Relimited t)
include h

theorem agree : s.Agree t :=
  ⟨h.containers, h.derived, h.nextKey, h.alive, fun id => (congrArg Record.name (h.record id) :),
    fun id => (congrArg Record.fields (h.record id) :)⟩

theorem setRecord (id : RecordId) (hr : q.unlimited = r.unlimited) :
    (s.setRecord id r).Relimited (t.setRecord id q) := by
  refine ⟨h.containers, h.derived, h.nextKey, h.nextContainer, h.nextDerived, h.nextRecord,
    fun j => ?_, fun j => ?_⟩
  · rw [alive_setRecord, alive_setRecord, h.alive]
  · rw [record_setRecord, record_setRecord]
    split
    · exact hr
    · exact h.record j

theorem setContents (g : Holder) (c : Container) :
    (s.setContents g c).Relimited (t.setContents g c) := by
  cases g with
  | shared id =>
    refine ⟨?_, h.derived, h.nextKey, h.nextContainer, h.nextDerived, h.nextRecord, h.alive,
      h.record⟩
    simp only [Space.setContents, setContainer, h.containers]
  | record id =>
    exact h.setRecord id (congrArg (fun r : Record => { r with fields := c }) (h.record id) :)

theorem setNextKey (n : Nat) : { s with nextKey := n }.Relimited { t with nextKey := n } :=
  ⟨h.containers, h.derived, rfl, h.nextContainer, h.nextDerived, h.nextRecord, h.alive, h.record⟩

end Relimited

end Space

/-- The same session but for the limits of records. -/
structure Session.Relimited (σ τ : Session) : Prop where
  space : σ.space.Relimited τ.space
  flight : τ.flight = σ.flight
  targets : τ.targets = σ.targets

/-- Two outcomes are the same in states that `R` relates. If `raised`, the second one is free where
the first is too deep. -/
inductive Matched (R : σ → σ → Prop) (raised : Prop) :
    EStateM.Result Fault σ α → EStateM.Result Fault σ α → Prop where
  | ok {a s t} : R s t → Matched R raised (.ok a s) (.ok a t)
  | error {f s t} : R s t → Matched R raised (.error f s) (.error f t)
  | tooDeep {n s r} : raised → Matched R raised (.error (.tooDeep n) s) r

theorem Matched.of_strict {R : σ → σ → Prop} {raised : Prop} {r q : EStateM.Result Fault σ α}
    (h : Matched R False r q) : Matched R raised r q := by
  cases h with
  | ok h => exact .ok h
  | error h => exact .error h
  | tooDeep hx => exact hx.elim

/-- Run in related states, two programs end the same, unless the first is too deep. -/
def Parallel (R : σ → σ → Prop) (raised : Prop) (m m' : EStateM Fault σ α) : Prop :=
  ∀ s t, R s t → Matched R raised (m s) (m' t)

section Programs

variable {R : σ → σ → Prop} {raised : Prop} {m m' : EStateM Fault σ α}
  {f f' : α → EStateM Fault σ β}

theorem parallel_pure (a : α) : Parallel R raised (pure a) (pure a) := fun _ _ h => .ok h

theorem parallel_throw (e : Fault) :
    Parallel R raised (throw e : EStateM Fault σ α) (throw e) := fun _ _ h => .error h

theorem parallel_ofExcept (r : Except Fault α) :
    Parallel R raised (MonadExcept.ofExcept r : EStateM Fault σ α) (MonadExcept.ofExcept r) := by
  cases r with
  | ok a => exact parallel_pure a
  | error e => exact parallel_throw e

theorem Parallel.bind (hm : Parallel R raised m m') (hf : ∀ a, Parallel R raised (f a) (f' a)) :
    Parallel R raised (m >>= f) (m' >>= f') := by
  intro s t h
  have hst := hm s t h
  generalize hr : m s = r at hst
  generalize hq : m' t = q at hst
  cases hst with
  | ok h' =>
    rw [bind_of_ok hr, bind_of_ok hq]
    exact hf _ _ _ h'
  | error h' =>
    rw [bind_of_error hr, bind_of_error hq]
    exact .error h'
  | tooDeep hx =>
    rw [bind_of_error hr]
    exact .tooDeep hx

theorem Parallel.discard (hm : Parallel R raised m m') :
    Parallel R raised (discard m) (discard m') :=
  hm.bind fun _ => parallel_pure _

theorem parallel_forM {f f' : α → EStateM Fault σ Unit} (l : List α)
    (h : ∀ a, Parallel R raised (f a) (f' a)) : Parallel R raised (l.forM f) (l.forM f') := by
  induction l with
  | nil => exact parallel_pure ()
  | cons a l ih => exact (h a).bind fun _ => ih

end Programs

open Space (Relimited)

section Edits

variable {raised : Prop} {e e' : Edit α}

theorem parallel_get_bind {f f' : Space → Edit β}
    (h : ∀ s t, Relimited s t → Parallel Relimited raised (f s) (f' t)) :
    Parallel Relimited raised (get >>= f) (get >>= f') :=
  fun s t hst => h s t hst s t hst

theorem Holder.contents_bind_parallel (h : Holder) {f f' : Container → Edit β}
    (hf : ∀ c, Parallel Relimited raised (f c) (f' c)) :
    Parallel Relimited raised (h.contents >>= f) (h.contents >>= f') := by
  intro s t hst
  rw [bind_of_ok (h.contents_run s), bind_of_ok (h.contents_run t), hst.agree.contents]
  exact hf _ s t hst

theorem Holder.add_parallel (h : Holder) (l : Label) (v : Value) :
    Parallel Relimited raised (h.add l v) (h.add l v) := by
  intro s t hst
  rw [add, insert_run, insert_run, hst.agree.contents, hst.agree.nests, hst.nextKey]
  split
  · exact .error hst
  · split
    · exact .error hst
    · exact .ok ((hst.setNextKey _).setContents h _)

theorem Holder.replaceWithin_parallel (opened : List ContainerId) (h : Holder) (k : Key)
    (v : Value) :
    Parallel Relimited raised (replaceWithin opened h k v) (replaceWithin opened h k v) := by
  intro s t hst
  rw [replaceWithin_run, replaceWithin_run, hst.agree.contents, hst.agree.nests]
  split
  · exact .error hst
  · split
    · exact .error hst
    · exact .ok (hst.setContents h _)

theorem Holder.assign_parallel (h : Holder) (p : Place) (v : Value) :
    Parallel Relimited raised (h.assign p v) (h.assign p v) := by
  refine h.contents_bind_parallel fun c => ?_
  cases p with
  | label l =>
    dsimp only
    split
    · exact (replaceWithin_parallel _ h _ v).discard.bind fun _ => parallel_pure _
    · exact h.add_parallel l v
  | key k =>
    refine parallel_get_bind fun s t hst => ?_
    rw [hst.agree.locate]
    split
    · exact parallel_throw _
    · exact (replaceWithin_parallel _ _ k v).discard.bind fun _ => parallel_pure _

theorem Edit.note_parallel (id : RecordId) (k : Key) (l : Label) (v : Value) :
    Parallel Relimited raised (note id k l v) (note id k l v) := by
  intro s t hst
  rw [note_run, note_run]
  refine .ok (hst.setRecord id ?_)
  exact (congrArg (fun r : Record => { r with changes := r.changes.record k l v })
    (hst.record id) :)

theorem Edit.resolve_parallel (n : RecordName) :
    Parallel Relimited raised (resolve n) (resolve n) := by
  intro s t hst
  rw [resolve_run, resolve_run, hst.alive]
  split
  · exact .ok hst
  · exact .error hst

theorem Edit.follow_parallel (target : RecordId) (l : Label) :
    Parallel Relimited raised (follow target l) (follow target l) := by
  intro s t hst
  rw [follow_run, follow_run, hst.alive]
  split
  · exact .ok hst
  · exact .error hst

end Edits

namespace Eval

variable {raised : Prop} {m m' : Eval α}

theorem parallel_space_bind {f f' : Space → Eval β}
    (h : ∀ s t, Relimited s t → Parallel Session.Relimited raised (f s) (f' t)) :
    Parallel Session.Relimited raised (space >>= f) (space >>= f') := by
  intro σ τ hst
  rw [bind_of_ok (space_run σ), bind_of_ok (space_run τ)]
  exact h _ _ hst.space σ τ hst

theorem parallel_target : Parallel Session.Relimited raised target target := by
  intro σ τ hst
  rw [target_run, target_run, hst.targets]
  split
  · exact .ok hst
  · exact .error hst

theorem parallel_edit {e e' : Edit α} (he : Parallel Relimited raised e e') :
    Parallel Session.Relimited raised (edit e) (edit e') := by
  intro σ τ hst
  have h := he _ _ hst.space
  unfold edit
  generalize e σ.space = r at h
  generalize e' τ.space = q at h
  cases h with
  | ok hs => exact .ok ⟨hs, hst.flight, hst.targets⟩
  | error hs => exact .error ⟨hs, hst.flight, hst.targets⟩
  | tooDeep hx => exact .tooDeep hx

theorem parallel_run (hm : Parallel Session.Relimited raised m m') :
    Parallel Relimited raised (run m) (run m') := by
  intro s t hst
  have h := hm { space := s } { space := t } ⟨hst, rfl, rfl⟩
  unfold run
  generalize m { space := s } = r at h
  generalize m' { space := t } = q at h
  cases h with
  | ok hs => exact .ok hs.space
  | error hs => exact .error hs.space
  | tooDeep hx => exact .tooDeep hx

theorem matched_andThen {σ τ : Session} {after : Except Fault α → Session → Session}
    (ha : ∀ o σ τ, Session.Relimited σ τ → Session.Relimited (after o σ) (after o τ))
    (h : Matched Session.Relimited raised (m σ) (m' τ)) :
    Matched Session.Relimited raised (m.andThen after σ) (m'.andThen after τ) := by
  unfold andThen
  generalize m σ = r at h
  generalize m' τ = q at h
  cases h with
  | ok hs => exact .ok (ha _ _ _ hs)
  | error hs => exact .error (ha _ _ _ hs)
  | tooDeep hx => exact .tooDeep hx

theorem parallel_onTarget (id : RecordId) (hm : Parallel Session.Relimited raised m m') :
    Parallel Session.Relimited raised (onTarget id m) (onTarget id m') := by
  intro σ τ hst
  rw [onTarget_run, onTarget_run]
  exact matched_andThen (fun _ _ _ h => ⟨h.space, h.flight, congrArg List.tail h.targets⟩)
    (hm _ _ ⟨hst.space, hst.flight, congrArg (id :: ·) hst.targets⟩)

theorem parallel_guarded (id : RecordId) (k : Key) (l : Label)
    (hm : Parallel Session.Relimited raised m m') :
    Parallel Session.Relimited raised (guarded id k l m) (guarded id k l m') := by
  intro σ τ hst
  by_cases hk : σ.flight.contains (id, k) = true
  · rw [guarded_of_mem m hk, guarded_of_mem m' (hst.flight ▸ hk), hst.space.agree.displayName]
    exact .error hst
  · rw [guarded_of_not_mem m hk, guarded_of_not_mem m' (hst.flight ▸ hk)]
    refine matched_andThen (fun o _ _ h => ?_)
      (hm _ _ ⟨hst.space, congrArg ((id, k) :: ·) hst.flight, hst.targets⟩)
    split
    · exact h
    · exact ⟨h.space, congrArg (List.erase · (id, k)) h.flight, h.targets⟩

theorem deepen_relimited {σ τ : Session} (h : σ.Relimited τ) (id : RecordId) :
    (deepen id σ).Relimited (deepen id τ) :=
  ⟨h.space.setRecord id
    (congrArg (fun r : Record => { r with depth := r.depth + 1 }) (h.space.record id) :),
    h.flight, h.targets⟩

theorem matched_conclude {σ τ : Session} (h : σ.Relimited τ) (id : RecordId)
    (o : Except Fault Value) :
    Matched Session.Relimited raised (conclude id o σ) (conclude id o τ) := by
  have hopen := congrArg (fun r : Record => { r with depth := r.depth - 1 }) (h.space.record id)
  have hsettle := congrArg (Record.settle · o) hopen
  have hunlimited : ∀ r : Record, { r.unlimited with depth := r.unlimited.depth - 1 } =
      { r with depth := r.depth - 1 }.unlimited := fun _ => rfl
  rw [hunlimited, hunlimited, Record.settle_unlimited, Record.settle_unlimited,
    Prod.mk.injEq] at hsettle
  have hs := h.space.setRecord id hsettle.2
  unfold conclude
  dsimp only
  rw [hsettle.1]
  cases ({ σ.space.record id with depth := (σ.space.record id).depth - 1 }.settle o).1 with
  | ok v => exact .ok ⟨hs, h.flight, h.targets⟩
  | error e => exact .error ⟨hs, h.flight, h.targets⟩

/-- Being too deep is never put off. -/
theorem parallel_settling (id : RecordId) {m m' : Eval Value}
    (hm : Parallel Session.Relimited raised m m') :
    Parallel Session.Relimited raised (settling id m) (settling id m') := by
  intro σ τ hst
  have h := hm _ _ (deepen_relimited hst id)
  unfold settling
  generalize m (deepen id σ) = r at h
  generalize m' (deepen id τ) = q at h
  cases h with
  | ok hs => exact matched_conclude hs id _
  | error hs => exact matched_conclude hs id _
  | tooDeep hx => exact .tooDeep hx

theorem parallel_followedBy {m m' after after' : Eval Unit}
    (hm : Parallel Session.Relimited raised m m')
    (ha : Parallel Session.Relimited False after after') :
    Parallel Session.Relimited raised (m.followedBy after) (m'.followedBy after') := by
  intro σ τ hst
  have h := hm σ τ hst
  unfold followedBy
  generalize m σ = r at h
  generalize m' τ = q at h
  cases h with
  | ok hs => exact (ha _ _ hs).of_strict
  | @error f s t hs =>
    have hafter := ha _ _ hs
    dsimp only
    generalize after s = r at hafter
    generalize after' t = q at hafter
    cases hafter with
    | ok hs' => exact .error hs'
    | error hs' => exact .error hs'
    | tooDeep hx => exact hx.elim
  | @tooDeep n s r hx =>
    dsimp only
    cases after s with
    | ok _ _ => exact .tooDeep hx
    | error _ _ => exact .tooDeep hx

end Eval

section Room

/-- What the first run has, limit and room, the second one has too, or no less room if `raised`. -/
def Raises (raised : Prop) (limit room limit' room' : Nat) : Prop :=
  raised ∧ room ≤ room' ∨ limit = limit' ∧ room = room'

theorem Raises.of_succ {raised : Prop} {limit room limit' room' : Nat}
    (h : Raises raised limit (room + 1) limit' room') :
    ∃ r, room' = r + 1 ∧ Raises raised limit room limit' r := by
  rcases h with ⟨hx, hle⟩ | ⟨hl, rfl⟩
  · exact ⟨room' - 1, by omega, .inl ⟨hx, by omega⟩⟩
  · exact ⟨room, rfl, .inr ⟨hl, rfl⟩⟩

theorem parallel_tooDeep {R : σ → σ → Prop} {raised : Prop} (hx : raised) (n : Nat)
    (m : EStateM Fault σ α) : Parallel R raised (throw (.tooDeep n)) m := fun _ _ _ => .tooDeep hx

end Room

section Reading

variable {raised : Prop} {read read' : Reader}

mutual

theorem Formula.eval_parallel
    (hread : ∀ id p, Parallel Session.Relimited raised (read id p) (read' id p)) (f : Formula)
    (id : RecordId) : Parallel Session.Relimited raised (f.eval read id) (f.eval read' id) := by
  cases f with
  | mk name apply operands =>
    refine Eval.parallel_onTarget id ((Operand.evalAll_parallel hread operands).bind fun vs => ?_)
    refine Eval.parallel_space_bind fun s t h => ?_
    rw [h.agree.plainText]
    split
    · exact parallel_pure _
    · exact parallel_throw _

theorem Operand.eval_parallel
    (hread : ∀ id p, Parallel Session.Relimited raised (read id p) (read' id p)) (a : Operand) :
    Parallel Session.Relimited raised (a.eval read) (a.eval read') := by
  cases a with
  | constant v => exact parallel_pure v
  | here l => exact Eval.parallel_target.bind fun id => hread id _
  | nested f => exact Eval.parallel_target.bind fun id => Formula.eval_parallel hread f id
  | field n =>
    exact (Eval.parallel_edit (Edit.resolve_parallel n.record)).bind fun id => hread id _

theorem Operand.evalAll_parallel
    (hread : ∀ id p, Parallel Session.Relimited raised (read id p) (read' id p))
    (as : List Operand) :
    Parallel Session.Relimited raised (Operand.evalAll read as) (Operand.evalAll read' as) := by
  cases as with
  | nil => exact parallel_pure []
  | cons a as =>
    exact (Operand.eval_parallel hread a).bind fun v =>
      (Operand.evalAll_parallel hread as).bind fun vs => parallel_pure _

end

theorem Cell.eval_parallel
    (hread : ∀ id p, Parallel Session.Relimited raised (read id p) (read' id p))
    (owner : RecordId) (c : Cell) :
    Parallel Session.Relimited raised (c.eval read owner) (c.eval read' owner) := by
  cases c with
  | derived i =>
    refine Eval.parallel_space_bind fun s t h => ?_
    rw [h.agree.derivation]
    exact (s.derivation i).getter.eval_parallel hread owner
  | reference target l =>
    exact (Eval.parallel_edit (Edit.follow_parallel target l)).bind fun id => hread id _

theorem readBy_parallel {evaluate evaluate' : RecordId → Key → Label → Cell → Eval Value}
    (he : ∀ id k l c,
      Parallel Session.Relimited raised (evaluate id k l c) (evaluate' id k l c))
    (id : RecordId) (p : Place) :
    Parallel Session.Relimited raised (readBy evaluate id p) (readBy evaluate' id p) := by
  refine Eval.parallel_space_bind fun s t h => ?_
  rw [h.agree.slot?, h.agree.fields, h.agree.value]
  split
  · exact parallel_ofExcept _
  · exact he id _ _ _
  · exact parallel_pure _

/-- The induction is on the room of the first run: when that has come to its end, the first is too
deep, and so is the second unless its limit is raised. -/
theorem readWithin_parallel {limit room limit' room' : Nat}
    (h : Raises raised limit room limit' room') (id : RecordId) (p : Place) :
    Parallel Session.Relimited raised (readWithin limit room id p)
      (readWithin limit' room' id p) := by
  induction room generalizing room' id p with
  | zero =>
    rcases h with ⟨hx, -⟩ | ⟨rfl, rfl⟩
    · cases room' <;> exact readBy_parallel
        (fun id _ _ _ => Eval.parallel_settling id (parallel_tooDeep hx _ _)) id p
    · exact readBy_parallel (fun id _ _ _ => Eval.parallel_settling id (parallel_throw _)) id p
  | succ room ih =>
    obtain ⟨room', rfl, hless⟩ := h.of_succ
    refine readBy_parallel (fun id k l c => Eval.parallel_settling id ?_) id p
    exact Eval.parallel_guarded id k l (c.eval_parallel (ih hless) id)

end Reading

section Writing

variable {raised : Prop} {read read' : Reader} {write write' : Writer}

theorem Eval.store_parallel (id : RecordId) (k : Key) (v : Value) :
    Parallel Session.Relimited raised (store id k v) (store id k v) :=
  Eval.parallel_edit (Holder.replaceWithin_parallel _ _ k v).discard

theorem Derived.react_parallel
    (hread : ∀ id p, Parallel Session.Relimited raised (read id p) (read' id p))
    (hwrite : ∀ id p v, Parallel Session.Relimited raised (write id p v) (write' id p v))
    (owner : RecordId) (d : Derived) :
    Parallel Session.Relimited raised (d.react read write owner) (d.react read' write' owner) := by
  refine parallel_forM _ fun r => ?_
  exact (r.2.eval_parallel hread owner).bind fun v => (hwrite owner _ v).discard

theorem Cell.assign_parallel
    (hread : ∀ id p, Parallel Session.Relimited raised (read id p) (read' id p))
    (hwrite : ∀ id p v, Parallel Session.Relimited raised (write id p v) (write' id p v))
    (owner : RecordId) (k : Key) (v : Value) (c : Cell) :
    Parallel Session.Relimited raised (c.assign read write owner k v)
      (c.assign read' write' owner k v) := by
  cases c with
  | derived i =>
    refine Eval.parallel_space_bind fun s t h => ?_
    rw [h.agree.derivation]
    refine (Eval.store_parallel owner k v).bind fun _ => ?_
    exact Eval.parallel_followedBy ((s.derivation i).react_parallel hread hwrite owner)
      (Eval.store_parallel owner k _)
  | reference target l =>
    exact (Eval.parallel_edit (Edit.follow_parallel target l)).bind fun id =>
      (hwrite id _ v).discard

theorem writeBy_parallel {assign assign' : RecordId → Key → Label → Cell → Value → Eval Unit}
    (ha : ∀ id k l c v,
      Parallel Session.Relimited raised (assign id k l c v) (assign' id k l c v))
    (hread : ∀ id p, Parallel Session.Relimited raised (read id p) (read' id p))
    (id : RecordId) (p : Place) (v : Value) :
    Parallel Session.Relimited raised (writeBy assign read id p v)
      (writeBy assign' read' id p v) := by
  refine Eval.parallel_space_bind fun s t h => ?_
  rw [h.agree.slot?]
  split
  · refine (ha id _ _ _ v).bind fun _ => (hread id _).bind fun w => ?_
    exact (Eval.parallel_edit (Edit.note_parallel id _ _ w)).bind fun _ => parallel_pure _
  · refine (Eval.parallel_edit (Holder.assign_parallel _ p v)).bind fun k => ?_
    refine Eval.parallel_space_bind fun s t h => ?_
    rw [h.agree.fields, h.agree.field]
    refine (parallel_ofExcept _).bind fun f => ?_
    exact (Eval.parallel_edit (Edit.note_parallel id k _ v)).bind fun _ => parallel_pure _

theorem writeWithin_parallel {limit room limit' room' : Nat}
    (h : Raises raised limit room limit' room') (id : RecordId) (p : Place) (v : Value) :
    Parallel Session.Relimited raised (writeWithin limit room id p v)
      (writeWithin limit' room' id p v) := by
  induction room generalizing room' id p v with
  | zero =>
    have hread := readWithin_parallel h
    rcases h with ⟨hx, -⟩ | ⟨rfl, rfl⟩
    · cases room' <;> exact writeBy_parallel (fun _ _ _ _ _ => parallel_tooDeep hx _ _) hread id p v
    · exact writeBy_parallel (fun _ _ _ _ _ => parallel_throw _) hread id p v
  | succ room ih =>
    have hread := readWithin_parallel h
    obtain ⟨room', rfl, hless⟩ := h.of_succ
    refine writeBy_parallel (fun id k l c v => ?_) hread id p v
    exact Eval.parallel_guarded id k l
      (c.assign_parallel (readWithin_parallel hless) (ih hless) id k v)

end Writing

section Accesses

variable {s t : Space} {id : RecordId} {raised : Prop} {m : Edit α}

/-- Run in either space, the program answers the same, or faults the same, and leaves the same
containers, fields and changes behind. -/
structure Space.RunAlike (m : Edit α) (s t : Space) : Prop where
  answer : answer m t = answer m s
  fault : fault m t = fault m s
  left : (final m s).Relimited (final m t)

theorem Matched.runAlike (h : Matched Relimited raised (m s) (m t))
    (hd : raised → ∀ n, fault m s ≠ some (.tooDeep n)) : s.RunAlike m t := by
  generalize hr : m s = r at h
  generalize hq : m t = q at h
  cases h with
  | ok h => exact ⟨by simp [answer, hr, hq], by simp [fault, hr, hq], by simpa [final, hr, hq]⟩
  | error h => exact ⟨by simp [answer, hr, hq], by simp [fault, hr, hq], by simpa [final, hr, hq]⟩
  | tooDeep hx => exact absurd (fault_of_error hr) (hd hx _)

theorem Space.Relimited.read (h : s.Relimited t)
    (hl : Raises raised (s.record id).maxDepth (s.record id).maxDepth (t.record id).maxDepth
      (t.record id).maxDepth) (p : Place) :
    Matched Relimited raised (id.read p s) (id.read p t) :=
  Eval.parallel_run (readWithin_parallel hl id p) s t h

theorem Space.Relimited.write (h : s.Relimited t)
    (hl : Raises raised (s.record id).maxDepth (s.record id).maxDepth (t.record id).maxDepth
      (t.record id).maxDepth) (p : Place) (v : Value) :
    Matched Relimited raised (id.write p v s) (id.write p v t) :=
  Eval.parallel_run (writeWithin_parallel hl id p v) s t h

end Accesses

/-- In two spaces that differ at most in the limits of their records, a read or a write comes to
the same if the record that is asked has the same limit in both. It comes to the same as well if the
record has a higher limit in the second space, unless the run in the first one is too deep. -/
theorem Space.Relimited.limit_matters_when_met {s t : Space} (h : s.Relimited t) (id : RecordId) :
    ((s.record id).maxDepth = (t.record id).maxDepth →
      (∀ p, s.RunAlike (id.read p) t) ∧ ∀ p v, s.RunAlike (id.write p v) t) ∧
    ((s.record id).maxDepth ≤ (t.record id).maxDepth →
      (∀ p, (∀ n, fault (id.read p) s ≠ some (.tooDeep n)) → s.RunAlike (id.read p) t) ∧
      ∀ p v, (∀ n, fault (id.write p v) s ≠ some (.tooDeep n)) → s.RunAlike (id.write p v) t) := by
  constructor
  · intro heq
    have hl : Raises False (s.record id).maxDepth (s.record id).maxDepth (t.record id).maxDepth
        (t.record id).maxDepth := .inr ⟨heq, heq⟩
    exact ⟨fun p => (h.read hl p).runAlike False.elim,
      fun p v => (h.write hl p v).runAlike False.elim⟩
  · intro hle
    have hl : Raises True (s.record id).maxDepth (s.record id).maxDepth (t.record id).maxDepth
        (t.record id).maxDepth := .inl ⟨trivial, hle⟩
    exact ⟨fun p hd => (h.read hl p).runAlike fun _ => hd,
      fun p v hd => (h.write hl p v).runAlike fun _ => hd⟩

/-- The two aliases, the record of the first one with another limit. -/
def Space.twoAliasesWithin (maxDepth : Nat) : Space :=
  let s := Space.after twoAliases
  s.setRecord ⟨1⟩ { s.record ⟨1⟩ with maxDepth }

/-- Assigning along two aliases takes two nested cells: that more are allowed makes no difference,
but with one it is too deep. -/
theorem limit_matters_when_met_twoAliases :
    fault (RecordId.write ⟨1⟩ (.label (.name "a")) (.bool true)) (Space.after twoAliases) = none ∧
      (Space.after twoAliases).RunAlike (RecordId.write ⟨1⟩ (.label (.name "a")) (.bool true))
        (Space.twoAliasesWithin 7) ∧
      fault (RecordId.write ⟨1⟩ (.label (.name "a")) (.bool true)) (Space.twoAliasesWithin 1) =
        some (.tooDeep 1) := by
  have hrun : fault (RecordId.write ⟨1⟩ (.label (.name "a")) (.bool true))
      (Space.after twoAliases) = none := by decide +kernel
  have hsame : (Space.after twoAliases).Relimited (Space.twoAliasesWithin 7) :=
    Space.relimited_setRecord (by decide +kernel) 7
  have hle : ((Space.after twoAliases).record ⟨1⟩).maxDepth ≤
      ((Space.twoAliasesWithin 7).record ⟨1⟩).maxDepth := by decide +kernel
  refine ⟨hrun, ((hsame.limit_matters_when_met ⟨1⟩).2 hle).2 _ _ fun n hn => ?_, by decide +kernel⟩
  rw [hrun] at hn
  cases hn

end LiveRecords
