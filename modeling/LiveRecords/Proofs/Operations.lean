import LiveRecords.Proofs.Evaluation.Moves

/-! # Operations and reachable spaces

All that can be done to containers, cells and records. A space is reachable if some run of
operations leads to it from the empty space, whichever of them fault. What every primitive edit
keeps to, every operation keeps to, and so does every run.
-/

namespace LiveRecords

/-- Neither a cell nor a container. -/
def Value.IsPlain (v : Value) : Prop := v.isCell = false ∧ v.tree? = none

theorem Value.isPlain_empty : Value.empty.IsPlain := ⟨rfl, rfl⟩

/-- An operation on the fields of one holder. -/
inductive ContainerOp where
  | add (l : Label) (v : Value)
  | addBefore (next : Key) (l : Label) (v : Value)
  | assign (p : Place) (v : Value)
  | replace (k : Key) (v : Value)
  | clear (p : Place)
  | remove (k : Key)
  | relabel (k : Key) (l : Label)
  | change (k : Key) (l : Label) (v : Value)
  | assignAll (fields : List (Label × Value)) (ignore : List Label)

def ContainerOp.run (h : Holder) : ContainerOp → Edit Unit
  | add l v => discard (h.add l v)
  | addBefore next l v => discard (h.addBefore next l v)
  | assign p v => discard (h.assign p v)
  | replace k v => discard (h.replace k v)
  | clear p => discard (h.clear p)
  | remove k => discard (h.remove k)
  | relabel k l => h.relabel k l
  | change k l v => h.change k l v
  | assignAll fields ignore => h.assignAll fields ignore

/-- An operation on a record. -/
inductive RecordOp where
  | read (p : Place)
  | fields
  | render
  | evaluate (f : Formula)
  | write (p : Place) (v : Value)
  | add (l : Label) (v : Value)
  | addBefore (next : Key) (l : Label) (v : Value)
  | writeAll (fields : List (Label × Value))
  | clear (p : Place)
  | remove (k : Key)
  | relabel (k : Key) (l : Label)
  | detach (p : Place)
  | takeChanges
  | derive (name : Option String)

def RecordOp.run (id : RecordId) : RecordOp → Edit Unit
  | read p => discard (id.read p)
  | fields => discard id.fields
  | render => discard id.render
  | evaluate f => discard (id.evaluate f)
  | write p v => discard (id.write p v)
  | add l v => discard (id.add l v)
  | addBefore next l v => discard (id.addBefore next l v)
  | writeAll entries => id.writeAll entries
  | clear p => discard (id.clear p)
  | remove k => discard (id.remove k)
  | relabel k l => id.relabel k l
  | detach p => discard (id.detach p)
  | takeChanges => discard id.takeChanges
  | derive name => discard (id.derive name)

/-- An operation on a space. Names, packets and sensors act on spaces through these. -/
inductive Operation where
  | mintKey
  | newContainer
  | ofFields (fields : List (Label × Value))
  | copy (id : ContainerId)
  | newDerived (d : Derived)
  | newRecord (name : Option String) (maxDepth : Nat)
  | retain (held : RecordId → Bool)
  | container (id : ContainerId) (op : ContainerOp)
  | record (id : RecordId) (op : RecordOp)

def Operation.run : Operation → Edit Unit
  | mintKey => discard Edit.mintKey
  | newContainer => discard Edit.newContainer
  | ofFields fields => discard (ContainerId.ofFields fields)
  | copy id => discard id.copy
  | newDerived d => discard (Edit.newDerived d)
  | newRecord name maxDepth => discard (RecordId.fresh name maxDepth)
  | retain held => modify (·.retain held)
  | container id op => op.run (.shared id)
  | record id op => op.run id

/-- Runs need not use the handles they were given: what holds of all of them holds of those that
do. -/
inductive Reachable : Space → Prop where
  | empty : Reachable {}
  | next {s : Space} (op : Operation) : Reachable s → Reachable (final op.run s)

/-- The space that a run of operations leads to. -/
def Space.after (ops : List Operation) : Space := ops.foldl (fun s op => final op.run s) {}

theorem Reachable.foldl {s : Space} (h : Reachable s) (ops : List Operation) :
    Reachable (ops.foldl (fun s op => final op.run s) s) := by
  induction ops generalizing s with
  | nil => exact h
  | cons op ops ih => exact ih (h.next op)

theorem Reachable.after (ops : List Operation) : Reachable (Space.after ops) :=
  Reachable.empty.foldl ops

/-- The edits of a holder's fields keep to `R`, the holder being among those that are open. -/
structure Holder.Closed (R : Space → Space → Prop) : Prop extends IsPreorder Space R where
  add : ∀ (h : Holder) l v, Moves R (h.add l v)
  addBefore : ∀ (h : Holder) next l v, Moves R (h.addBefore next l v)
  replaceWithin : ∀ opened (h : Holder) k v, h.opened ⊆ opened →
    Moves R (Holder.replaceWithin opened h k v)
  remove : ∀ (h : Holder) k, Moves R (h.remove k)
  relabel : ∀ (h : Holder) k l, Moves R (h.relabel k l)

/-- The primitive edits keep to `R`, and so do evaluation sessions. -/
structure Edit.Closed (R : Space → Space → Prop) : Prop extends Holder.Closed R where
  mintKey : Moves R Edit.mintKey
  newContainer : Moves R Edit.newContainer
  newDerived : ∀ d, Moves R (Edit.newDerived d)
  newRecord : ∀ name maxDepth, Moves R (Edit.newRecord name maxDepth)
  retain : ∀ s held, R s (Space.retain s held)
  setChanges : ∀ (s : Space) (id : RecordId) (c : Changes),
    R s (s.setRecord id { s.record id with changes := c })
  read : ∀ (id : RecordId) p, Moves R (id.read p)
  evaluate : ∀ (id : RecordId) f, Moves R (id.evaluate f)
  write : ∀ (id : RecordId) p v, Moves R (id.write p v)

namespace Holder

section Finals

variable (h : Holder) (k : Key) (l : Label) (v : Value) (s : Space)

theorem final_insert (arrange : Key → List Key → List Key) :
    final (h.insert l v arrange) s = s ∨
      (s.contents h).key? l = none ∧ s.nests h.opened v = false ∧
      final (h.insert l v arrange) s = { s with nextKey := s.nextKey + 1 }.setContents h
        ((s.contents h).insert ⟨s.nextKey⟩ ⟨l, v⟩
          (arrange ⟨s.nextKey⟩ (s.contents h).order)) := by
  cases hl : (s.contents h).hasLabel l with
  | true => exact .inl (by simp [final, insert_run, hl])
  | false =>
    cases hn : s.nests h.opened v with
    | true => exact .inl (by simp [final, insert_run, hl, hn])
    | false =>
      exact .inr ⟨(Container.hasLabel_eq_false _ l).mp hl, rfl,
        by simp [final, insert_run, hl, hn]⟩

theorem final_addBefore (next : Key) :
    final (h.addBefore next l v) s = s ∨ next ∈ (s.contents h).order ∧
      final (h.addBefore next l v) s =
        final (h.insert l v fun k order => order.flatMap fun j =>
          if j = next then [k, j] else [j]) s := by
  by_cases hn : next ∈ (s.contents h).order
  · exact .inr ⟨hn, by simp only [final, addBefore_run, if_pos hn]⟩
  · exact .inl (by simp only [final, addBefore_run, if_neg hn])

theorem final_replaceWithin (opened : List ContainerId) :
    final (replaceWithin opened h k v) s = s ∨ ∃ f,
      (s.contents h).field? k = some f ∧ s.nests opened v = false ∧
      final (replaceWithin opened h k v) s = s.setContents h ((s.contents h).assign k f v) := by
  cases hf : (s.contents h).field? k with
  | none => exact .inl (by simp [final, replaceWithin_run, hf])
  | some f =>
    cases hn : s.nests opened v with
    | true => exact .inl (by simp [final, replaceWithin_run, hf, hn])
    | false => exact .inr ⟨f, rfl, rfl, by simp [final, replaceWithin_run, hf, hn]⟩

theorem final_remove :
    final (h.remove k) s = s ∨ ∃ f, (s.contents h).field? k = some f ∧
      final (h.remove k) s = s.setContents h ((s.contents h).remove k f) := by
  cases hf : (s.contents h).field? k with
  | none => exact .inl (by simp [final, remove_run, hf])
  | some f => exact .inr ⟨f, rfl, by simp [final, remove_run, hf]⟩

theorem final_relabel :
    final (h.relabel k l) s = s ∨ ∃ f, (s.contents h).field? k = some f ∧
      (s.contents h).key? l = none ∧
      final (h.relabel k l) s = s.setContents h ((s.contents h).rename k f l) := by
  cases hf : (s.contents h).field? k with
  | none => exact .inl (by simp [final, relabel_run, hf])
  | some f =>
    by_cases hl : f.label = l
    · exact .inl (by simp [final, relabel_run, hf, hl])
    · cases hn : (s.contents h).hasLabel l with
      | true => exact .inl (by simp [final, relabel_run, hf, hl, hn])
      | false =>
        exact .inr ⟨f, rfl, (Container.hasLabel_eq_false _ l).mp hn,
          by simp [final, relabel_run, hf, hl, hn]⟩

end Finals

theorem opened_subset_of_path (h : Holder) (path : List ContainerId) :
    ((path.getLast?.map shared).getD h).opened ⊆ h.opened ++ path := by
  cases hp : path.getLast? with
  | none => exact List.subset_append_left ..
  | some id =>
    intro g hg
    obtain rfl : g = id := List.mem_singleton.mp hg
    exact List.mem_append_right _ (List.mem_of_getLast? hp)

theorem assign_moves {R : Space → Space → Prop} [IsPreorder Space R] (h : Holder)
    (ha : ∀ l v, Moves R (h.add l v))
    (hr : ∀ opened (g : Holder) k v, g.opened ⊆ opened → Moves R (replaceWithin opened g k v))
    (p : Place) (v : Value) : Moves R (h.assign p v) := by
  have hc : Moves R h.contents := moves_of_final fun _ => rfl
  refine hc.bind fun c => ?_
  cases p with
  | label l =>
    dsimp only
    split
    · exact (hr _ h _ v (List.Subset.refl _)).discard.bind fun _ => moves_pure _
    · exact ha l v
  | key k =>
    refine moves_get.bind fun s => ?_
    split
    · exact moves_throw _
    · exact (hr _ _ k v (h.opened_subset_of_path _)).discard.bind fun _ => moves_pure _

end Holder

/-- Writing keeps to what evaluation, adding fields, replacing values and noting changes
keep to. -/
theorem Eval.Closed.forWrites {R : Space → Space → Prop} [IsPreorder Space R]
    (he : Eval.Closed (OnSpace R)) (ha : ∀ (h : Holder) l v, Moves R (h.add l v))
    (hr : ∀ opened (h : Holder) k v, h.opened ⊆ opened →
      Moves R (Holder.replaceWithin opened h k v))
    (hn : ∀ (s : Space) (id : RecordId) (changes : Changes),
      R s (s.setRecord id { s.record id with changes })) :
    Eval.ClosedForWrites (OnSpace R) :=
  { he with
    assign := fun id p v => (Holder.assign_moves (.record id) (ha _) hr p v).edit
    store := fun id k v => (hr _ (.record id) k v (List.Subset.refl _)).discard.edit
    note := fun id _ _ _ => Moves.edit fun s => hn s id _ }

namespace Holder

theorem closed_of_setContents {R : Space → Space → Prop} [IsPreorder Space R]
    (hc : ∀ s h c, R s (Space.setContents s h c))
    (hk : ∀ s : Space, R s { s with nextKey := s.nextKey + 1 }) : Holder.Closed R := by
  have hi : ∀ (h : Holder) l v arrange, Moves R (h.insert l v arrange) := by
    intro h l v arrange s
    rcases h.final_insert l v s arrange with he | ⟨-, -, he⟩ <;> rw [he]
    · exact refl_of R s
    · exact trans_of R (hk s) (hc _ h _)
  constructor
  · infer_instance
  · exact fun h l v => hi h l v _
  · intro h next l v s
    rcases h.final_addBefore l v s next with he | ⟨-, he⟩ <;> rw [he]
    · exact refl_of R s
    · exact hi h l v _ s
  · intro opened h k v _ s
    rcases h.final_replaceWithin k v s opened with he | ⟨f, -, -, he⟩ <;> rw [he]
    · exact refl_of R s
    · exact hc s h _
  · intro h k s
    rcases h.final_remove k s with he | ⟨f, -, he⟩ <;> rw [he]
    · exact refl_of R s
    · exact hc s h _
  · intro h k l s
    rcases h.final_relabel k l s with he | ⟨f, -, -, he⟩ <;> rw [he]
    · exact refl_of R s
    · exact hc s h _

end Holder

namespace Holder.Closed

variable {R : Space → Space → Prop} (c : Holder.Closed R) (h : Holder)
include c

theorem contents : Moves R h.contents :=
  have := c.toIsPreorder
  moves_of_final fun _ => rfl

theorem replace (k : Key) (v : Value) : Moves R (h.replace k v) :=
  c.replaceWithin _ h k v (List.Subset.refl _)

theorem assign (p : Place) (v : Value) : Moves R (h.assign p v) :=
  have := c.toIsPreorder
  h.assign_moves (c.add h) c.replaceWithin p v

theorem clear (p : Place) : Moves R (h.clear p) := by
  have := c.toIsPreorder
  cases p with
  | label l =>
    refine (c.contents h).bind fun b => (moves_ofExcept _).bind fun k => ?_
    exact (c.replace h k .empty).discard.bind fun _ => moves_pure _
  | key k => exact c.assign h (.key k) .empty

theorem change (k : Key) (l : Label) (v : Value) : Moves R (h.change k l v) :=
  have := c.toIsPreorder
  (c.relabel h k l).bind fun _ => (c.replace h k v).discard

theorem assignAll (fields : List (Label × Value)) (ignore : List Label) :
    Moves R (h.assignAll fields ignore) := by
  have := c.toIsPreorder
  refine moves_forM _ fun e _ => ?_
  dsimp only
  split
  · exact moves_pure _
  · exact (c.assign h _ e.2).discard

theorem containerOp (op : ContainerOp) : Moves R (op.run h) := by
  have := c.toIsPreorder
  cases op with
  | add l v => exact (c.add h l v).discard
  | addBefore next l v => exact (c.addBefore h next l v).discard
  | assign p v => exact (c.assign h p v).discard
  | replace k v => exact (c.replace h k v).discard
  | clear p => exact (c.clear h p).discard
  | remove k => exact (c.remove h k).discard
  | relabel k l => exact c.relabel h k l
  | change k l v => exact c.change h k l v
  | assignAll fields ignore => exact c.assignAll h fields ignore

omit h in
theorem mono {Q : Space → Space → Prop} [IsPreorder Space Q] (hq : ∀ s t, R s t → Q s t) :
    Holder.Closed Q where
  add g l v s := hq _ _ (c.add g l v s)
  addBefore g next l v s := hq _ _ (c.addBefore g next l v s)
  replaceWithin opened g k v hg s := hq _ _ (c.replaceWithin opened g k v hg s)
  remove g k s := hq _ _ (c.remove g k s)
  relabel g k l s := hq _ _ (c.relabel g k l s)

end Holder.Closed

section Copying

variable {R : Space → Space → Prop} [IsPreorder Space R]

theorem Holder.addCopies_moves (h : Holder) (ha : ∀ l v, Moves R (h.add l v))
    {copyTree : ContainerId → Edit ContainerId} (hc : ∀ id, Moves R (copyTree id))
    (entries : List (Key × Field)) : Moves R (h.addCopies copyTree entries) := by
  refine moves_forM _ fun e _ => ?_
  dsimp only
  split
  · exact ((hc _).map _).bind fun v => (ha _ v).discard
  · exact (moves_pure _).bind fun v => (ha _ v).discard

theorem ContainerId.copyWithin_moves (hn : Moves R Edit.newContainer)
    (ha : ∀ i l v, Moves R ((Holder.shared i).add l v)) (d : Nat) (id : ContainerId) :
    Moves R (id.copyWithin d) := by
  induction d generalizing id with
  | zero => exact moves_pure id
  | succ d ih =>
    refine moves_get.bind fun s => hn.bind fun copy => ?_
    exact ((Holder.shared copy).addCopies_moves (ha copy) ih _).bind fun _ => moves_pure _

theorem ContainerId.copy_moves (hn : Moves R Edit.newContainer)
    (ha : ∀ i l v, Moves R ((Holder.shared i).add l v)) (id : ContainerId) : Moves R id.copy :=
  moves_get.bind fun _ => id.copyWithin_moves hn ha _

theorem RecordId.copyValue_moves (hc : ∀ i : ContainerId, Moves R i.copy)
    (hd : ∀ d, Moves R (Edit.newDerived d)) (v : Value) : Moves R (RecordId.copyValue v) := by
  unfold RecordId.copyValue
  split
  · exact (hc _).map _
  · refine moves_get.bind fun s => ?_
    split
    · exact (hd _).bind fun _ => moves_pure _
    · exact moves_pure _
  · exact moves_pure _

end Copying

theorem RecordId.detach_moves {R : Space → Space → Prop} [IsPreorder Space R] {id : RecordId}
    {p : Place} (hr : Moves R (id.read p)) (hs : ∀ v, Moves R (id.supplant p v)) :
    Moves R (id.detach p) := by
  have hraw : Moves R (id.raw p) :=
    moves_get.bind fun _ => (moves_of_final fun _ => rfl).bind fun _ => moves_ofExcept _
  refine moves_get.bind fun s => hraw.bind fun w => ?_
  split
  · exact hs .empty
  · exact hr.bind hs

namespace Edit.Closed

variable {R : Space → Space → Prop}

section Containers

variable (c : Edit.Closed R)
include c

theorem ofFields (fields : List (Label × Value)) : Moves R (ContainerId.ofFields fields) := by
  have := c.toIsPreorder
  refine c.newContainer.bind fun id => ?_
  exact (c.toClosed.assignAll (.shared id) fields []).bind fun _ => moves_pure _

theorem copy (id : ContainerId) : Moves R id.copy :=
  have := c.toIsPreorder
  id.copy_moves c.newContainer fun i => c.add (.shared i)

end Containers

section Records

variable (c : Edit.Closed R)
include c

theorem note (id : RecordId) (k : Key) (l : Label) (v : Value) : Moves R (Edit.note id k l v) :=
  fun s => c.setChanges s id _

theorem field (id : RecordId) (k : Key) : Moves R (id.field k) :=
  have := c.toIsPreorder
  moves_get.bind fun _ => (c.toClosed.contents _).bind fun _ => moves_ofExcept _

theorem raw (id : RecordId) (p : Place) : Moves R (id.raw p) :=
  have := c.toIsPreorder
  moves_get.bind fun _ => (c.toClosed.contents _).bind fun _ => moves_ofExcept _

theorem fields (id : RecordId) : Moves R id.fields := by
  have := c.toIsPreorder
  refine (c.toClosed.contents _).bind fun b => moves_mapM _ fun e _ => ?_
  exact (c.read id _).bind fun v => moves_pure _

theorem supplant (id : RecordId) (p : Place) (v : Value) : Moves R (id.supplant p v) := by
  have := c.toIsPreorder
  refine (c.toClosed.contents _).bind fun b => ?_
  split
  · exact moves_throw _
  · refine (c.raw id _).bind fun w => ?_
    split
    · refine (c.toClosed.replace _ _ v).discard.bind fun _ => (c.field id _).bind fun f => ?_
      exact (c.note id _ _ v).bind fun _ => moves_pure _
    · exact moves_pure _

theorem detach (id : RecordId) (p : Place) : Moves R (id.detach p) :=
  have := c.toIsPreorder
  RecordId.detach_moves (c.read id p) (c.supplant id p)

theorem copyValue (v : Value) : Moves R (RecordId.copyValue v) :=
  have := c.toIsPreorder
  RecordId.copyValue_moves c.copy c.newDerived v

theorem derive (id : RecordId) (name : Option String) : Moves R (id.derive name) := by
  have := c.toIsPreorder
  refine moves_get.bind fun s => (c.newRecord name _).bind fun copy => ?_
  refine (c.toClosed.contents _).bind fun b => Moves.bind ?_ fun _ => moves_pure _
  refine moves_forM _ fun e _ => (c.copyValue _).bind fun v => ?_
  exact ((c.add _ _ v).bind fun k => (c.note copy k _ v).bind fun _ => moves_pure _).discard

theorem recordOp (id : RecordId) (op : RecordOp) : Moves R (op.run id) := by
  have := c.toIsPreorder
  cases op with
  | read p => exact (c.read id p).discard
  | fields => exact (c.fields id).discard
  | render =>
    exact ((c.fields id).bind fun es => moves_get.bind fun s => moves_pure _).discard
  | evaluate f => exact (c.evaluate id f).discard
  | write p v => exact (c.write id p v).discard
  | add l v =>
    exact ((c.add _ l v).bind fun k => (c.note id k l v).bind fun _ => moves_pure _).discard
  | addBefore next l v =>
    exact ((c.addBefore _ next l v).bind fun k =>
      (c.note id k l v).bind fun _ => moves_pure _).discard
  | writeAll entries => exact moves_forM _ fun e _ => (c.write id _ e.2).discard
  | clear p =>
    exact ((c.toClosed.clear _ p).bind fun k => (c.field id k).bind fun f =>
      (c.note id k _ _).bind fun _ => moves_pure _).discard
  | remove k =>
    exact ((c.remove _ k).bind fun f => (c.note id k _ _).bind fun _ => moves_pure _).discard
  | relabel k l =>
    exact (c.relabel _ k l).bind fun _ => (c.raw id _).bind fun v => c.note id k l v
  | detach p => exact (c.detach id p).discard
  | takeChanges => exact Moves.discard (m := id.takeChanges) fun s => c.setChanges s id ∅
  | derive name => exact (c.derive id name).discard

theorem operation (op : Operation) : Moves R op.run := by
  have := c.toIsPreorder
  cases op with
  | mintKey => exact c.mintKey.discard
  | newContainer => exact c.newContainer.discard
  | ofFields fields => exact (c.ofFields fields).discard
  | copy id => exact (c.copy id).discard
  | newDerived d => exact (c.newDerived d).discard
  | newRecord name maxDepth => exact (c.newRecord name maxDepth).discard
  | retain held => exact fun s => c.retain s held
  | container id op => exact c.toClosed.containerOp (.shared id) op
  | record id op => exact c.recordOp id op

end Records

end Edit.Closed

/-- If `I` holds of a space, it goes on to hold of another. -/
def Keeps (I : Space → Prop) (s t : Space) : Prop := I s → I t

instance (I : Space → Prop) : IsPreorder Space (Keeps I) where
  refl _ h := h
  trans _ _ _ h h' hs := h' (h hs)

/-- What holds of the empty space and is kept by every primitive edit holds of all reachable
spaces. -/
theorem Reachable.of_closed {I : Space → Prop} (c : Edit.Closed (Keeps I)) (h0 : I {})
    {s : Space} (h : Reachable s) : I s := by
  induction h with
  | empty => exact h0
  | next op _ ih => exact c.operation op _ ih

end LiveRecords
