import LiveRecords.Proofs.Evaluation.Oblivious
import LiveRecords.Proofs.Operations

/-! # Operations do not look at changes

Edits of fields, evaluation and writing come to the same whatever changes are there already. Of the
operations on records only taking the changes of one tells them, and letting records go drops them.
-/

namespace LiveRecords

namespace Space.Alike

variable {s t : Space} (h : s.Alike t)
include h

theorem setNextKey (n : Nat) :
    { s with nextKey := n }.Alike { t with nextKey := n } :=
  ⟨h.containers, h.derived, rfl, h.nextContainer, h.nextDerived, h.nextRecord, h.alive, h.record⟩

end Space.Alike

namespace Holder

variable (h : Holder) (k : Key) (l : Label) (v : Value)

theorem contents_oblivious : Oblivious h.contents :=
  oblivious_of_outcome (fun s => .ok (s.contents h)) (fun _ => rfl) fun s t (ht : s.Alike t) => by
    rw [ht.agree.contents]

theorem insert_oblivious (arrange : Key → List Key → List Key) :
    Oblivious (h.insert l v arrange) := by
  refine fun s => ⟨[], fun t (ht : s.Alike t) => ?_⟩
  rw [insert_run, insert_run, ht.agree.contents, ht.agree.nests, ht.nextKey]
  split
  · exact .error ht (.refl t)
  · split
    · exact .error ht (.refl t)
    · have hg : t.Gains [] { t with nextKey := s.nextKey + 1 } :=
        Space.gains_of_record (fun _ => rfl) rfl
      exact .ok ((ht.setNextKey _).setContents h _) (hg.trans (Space.gains_setContents h _))

theorem add_oblivious : Oblivious (h.add l v) := h.insert_oblivious l v _

theorem addBefore_oblivious (next : Key) : Oblivious (h.addBefore next l v) := by
  refine h.contents_oblivious.bind fun c => ?_
  split
  · exact h.insert_oblivious l v _
  · exact (oblivious_throw _).bind fun _ => h.insert_oblivious l v _

theorem replaceWithin_oblivious (opened : List ContainerId) :
    Oblivious (replaceWithin opened h k v) := by
  refine fun s => ⟨[], fun t (ht : s.Alike t) => ?_⟩
  rw [replaceWithin_run, replaceWithin_run, ht.agree.contents, ht.agree.nests]
  split
  · exact .error ht (.refl t)
  · split
    · exact .error ht (.refl t)
    · exact .ok (ht.setContents h _) (Space.gains_setContents h _)

theorem remove_oblivious : Oblivious (h.remove k) := by
  refine fun s => ⟨[], fun t (ht : s.Alike t) => ?_⟩
  rw [remove_run, remove_run, ht.agree.contents]
  split
  · exact .error ht (.refl t)
  · exact .ok (ht.setContents h _) (Space.gains_setContents h _)

theorem relabel_oblivious : Oblivious (h.relabel k l) := by
  refine fun s => ⟨[], fun t (ht : s.Alike t) => ?_⟩
  rw [relabel_run, relabel_run, ht.agree.contents]
  split
  · exact .error ht (.refl t)
  · split
    · exact .ok ht (.refl t)
    · split
      · exact .error ht (.refl t)
      · exact .ok (ht.setContents h _) (Space.gains_setContents h _)

theorem replace_oblivious : Oblivious (h.replace k v) := h.replaceWithin_oblivious k v _

theorem assign_oblivious (p : Place) : Oblivious (h.assign p v) := by
  refine h.contents_oblivious.bind fun c => ?_
  cases p with
  | label l =>
    dsimp only
    split
    · exact (h.replace_oblivious _ v).discard.bind fun _ => oblivious_pure _
    · exact h.add_oblivious l v
  | key k =>
    refine oblivious_get_bind (fun s => ?_) fun s t (ht : s.Alike t) => by rw [ht.agree.locate]
    split
    · exact oblivious_throw _
    · exact (replaceWithin_oblivious _ k v _).discard.bind fun _ => oblivious_pure _

theorem clear_oblivious (p : Place) : Oblivious (h.clear p) := by
  cases p with
  | label l =>
    refine h.contents_oblivious.bind fun c => (oblivious_ofExcept _).bind fun k => ?_
    exact (h.replace_oblivious k .empty).discard.bind fun _ => oblivious_pure _
  | key k => exact h.assign_oblivious .empty (.key k)

theorem assignAll_oblivious (fields : List (Label × Value)) (ignore : List Label) :
    Oblivious (h.assignAll fields ignore) := by
  refine oblivious_forM _ fun e => ?_
  dsimp only
  split
  · exact oblivious_pure _
  · exact (h.assign_oblivious _ _).discard

theorem containerOp_oblivious (op : ContainerOp) : Oblivious (op.run h) := by
  cases op with
  | add l v => exact (h.add_oblivious l v).discard
  | addBefore next l v => exact (h.addBefore_oblivious l v next).discard
  | assign p v => exact (h.assign_oblivious v p).discard
  | replace k v => exact (h.replace_oblivious k v).discard
  | clear p => exact (h.clear_oblivious p).discard
  | remove k => exact (h.remove_oblivious k).discard
  | relabel k l => exact h.relabel_oblivious k l
  | change k l v =>
    exact (h.relabel_oblivious k l).bind fun _ => (h.replace_oblivious k v).discard
  | assignAll fields ignore => exact h.assignAll_oblivious fields ignore

end Holder

namespace Edit

theorem note_oblivious (id : RecordId) (k : Key) (l : Label) (v : Value) :
    Oblivious (note id k l v) := by
  refine fun s => ⟨s.notes id k ⟨l, v⟩, fun t (ht : s.Alike t) => ?_⟩
  rw [note_run, note_run, ← ht.notes]
  exact .ok (ht.setRecord id (ht.record id)) (Space.gains_note id k l v)

theorem mintKey_oblivious : Oblivious mintKey := by
  refine fun s => ⟨[], fun t (ht : s.Alike t) => ?_⟩
  have hrun : ∀ u : Space, mintKey u = .ok ⟨u.nextKey⟩ { u with nextKey := u.nextKey + 1 } :=
    fun _ => rfl
  rw [hrun, hrun, ht.nextKey]
  exact .ok (ht.setNextKey _) (Space.gains_of_record (fun _ => rfl) rfl)

theorem newContainer_oblivious : Oblivious newContainer := by
  refine fun s => ⟨[], fun t (ht : s.Alike t) => ?_⟩
  have hrun : ∀ u : Space, newContainer u = .ok ⟨u.nextContainer⟩
      { u.setContainer ⟨u.nextContainer⟩ {} with nextContainer := u.nextContainer + 1 } :=
    fun _ => rfl
  have hc := (ht.setContents (.shared ⟨s.nextContainer⟩) {}).containers
  rw [hrun, hrun, ht.nextContainer]
  exact .ok ⟨hc, ht.derived, ht.nextKey, rfl, ht.nextDerived, ht.nextRecord, ht.alive, ht.record⟩
    (Space.gains_of_record (fun _ => rfl) rfl)

theorem newDerived_oblivious (d : Derived) : Oblivious (newDerived d) := by
  refine fun s => ⟨[], fun t (ht : s.Alike t) => ?_⟩
  have hrun : ∀ u : Space, newDerived d u = .ok ⟨u.nextDerived⟩
      { u with derived := u.derived.put ⟨u.nextDerived⟩ d, nextDerived := u.nextDerived + 1 } :=
    fun _ => rfl
  rw [hrun, hrun, ht.nextDerived, ht.derived]
  exact .ok ⟨ht.containers, rfl, ht.nextKey, ht.nextContainer, rfl, ht.nextRecord, ht.alive,
    ht.record⟩ (Space.gains_of_record (fun _ => rfl) rfl)

theorem gains_newRecord (s : Space) (name : Option String) (maxDepth : Nat) :
    s.Gains [] { s.setRecord ⟨s.nextRecord⟩ { name, maxDepth } with
      nextRecord := s.nextRecord + 1 } := by
  have hother : ∀ id : RecordId, id.number ≠ s.nextRecord →
      (s.setRecord ⟨s.nextRecord⟩ { name, maxDepth }).record id = s.record id := by
    intro id hid
    rw [Space.record_setRecord, if_neg fun h => hid (congrArg RecordId.number h)]
  refine ⟨⟨Nat.le_succ _, fun id hid => ?_, fun h id hid => ?_⟩, fun id => ?_⟩
  · exact congrArg Record.name (hother id (Nat.ne_of_lt hid))
  · have hlt : s.nextRecord < id.number := hid
    exact (congrArg Record.name (hother id (Nat.ne_of_gt hlt))).trans (h id (Nat.le_of_lt hlt))
  · change (if id.number < s.nextRecord + 1 then
      ((s.setRecord ⟨s.nextRecord⟩ { name, maxDepth }).record id).changes else ∅) = s.changesOf id
    unfold Space.changesOf
    by_cases hid : id.number = s.nextRecord
    · obtain rfl : id = ⟨s.nextRecord⟩ := congrArg RecordId.mk hid
      simp
    · rw [hother id hid]
      have hiff : id.number < s.nextRecord + 1 ↔ id.number < s.nextRecord := by omega
      simp only [hiff]

theorem newRecord_oblivious (name : Option String) (maxDepth : Nat) :
    Oblivious (newRecord name maxDepth) := by
  refine fun s => ⟨[], fun t (ht : s.Alike t) => ?_⟩
  have hrun : ∀ u : Space, newRecord name maxDepth u = .ok ⟨u.nextRecord⟩
      { u.setRecord ⟨u.nextRecord⟩ { name, maxDepth } with nextRecord := u.nextRecord + 1 } :=
    fun _ => rfl
  have hr := ht.setRecord ⟨s.nextRecord⟩ (r := { name, maxDepth }) rfl
  have hg := gains_newRecord t name maxDepth
  rw [ht.nextRecord] at hg
  rw [hrun, hrun, ht.nextRecord]
  exact .ok ⟨hr.containers, hr.derived, hr.nextKey, hr.nextContainer, hr.nextDerived, rfl,
    hr.alive, hr.record⟩ hg

end Edit

section Writing

variable {read : Reader} {write : Writer}

theorem Eval.oblivious_store (id : RecordId) (k : Key) (v : Value) :
    Oblivious (Eval.store id k v) :=
  Eval.oblivious_edit ((Holder.record id).replace_oblivious k v).discard

theorem Derived.react_oblivious (hread : ∀ id p, Oblivious (read id p))
    (hwrite : ∀ id p v, Oblivious (write id p v)) (owner : RecordId) (d : Derived) :
    Oblivious (d.react read write owner) := by
  refine oblivious_forM _ fun r => ?_
  exact (r.2.eval_oblivious hread owner).bind fun v => (hwrite owner _ v).discard

theorem Cell.assign_oblivious (hread : ∀ id p, Oblivious (read id p))
    (hwrite : ∀ id p v, Oblivious (write id p v)) (owner : RecordId) (k : Key) (v : Value)
    (c : Cell) : Oblivious (c.assign read write owner k v) := by
  cases c with
  | derived id =>
    refine Eval.oblivious_space_bind (fun s => ?_) fun s t h => by rw [h.agree.derivation]
    refine (Eval.oblivious_store owner k v).bind fun _ => ?_
    refine Eval.oblivious_followedBy ?_ (Eval.oblivious_store owner k _)
    exact (s.derivation id).react_oblivious hread hwrite owner
  | reference target l =>
    exact (Eval.oblivious_edit (Eval.oblivious_follow target l)).bind fun id =>
      (hwrite id _ v).discard

theorem writeBy_oblivious {assign : RecordId → Key → Label → Cell → Value → Eval Unit}
    (ha : ∀ id k l c v, Oblivious (assign id k l c v)) (hread : ∀ id p, Oblivious (read id p))
    (id : RecordId) (p : Place) (v : Value) : Oblivious (writeBy assign read id p v) := by
  refine Eval.oblivious_space_bind (fun s => ?_) fun s t h => by rw [h.agree.slot?]
  split
  · refine (ha id _ _ _ v).bind fun _ => (hread id _).bind fun w => ?_
    exact (Eval.oblivious_edit (Edit.note_oblivious id _ _ w)).bind fun _ => oblivious_pure _
  · refine (Eval.oblivious_edit ((Holder.record id).assign_oblivious v p)).bind fun k => ?_
    refine Eval.oblivious_space_bind (fun s => (oblivious_ofExcept _).bind fun f => ?_)
      fun s t h => by rw [h.agree.fields, h.agree.field]
    exact (Eval.oblivious_edit (Edit.note_oblivious id k _ v)).bind fun _ => oblivious_pure _

theorem writeWithin_oblivious (limit room : Nat) (id : RecordId) (p : Place) (v : Value) :
    Oblivious (writeWithin limit room id p v) := by
  induction room generalizing id p v with
  | zero =>
    exact writeBy_oblivious (fun _ _ _ _ _ => oblivious_throw _) (readWithin_oblivious limit 0)
      id p v
  | succ room ih =>
    refine writeBy_oblivious (fun id k l c v => ?_) (readWithin_oblivious limit (room + 1)) id p v
    exact Eval.oblivious_guarded id k l
      (c.assign_oblivious (readWithin_oblivious limit room) ih id k v)

end Writing

namespace ContainerId

theorem ofFields_oblivious (fields : List (Label × Value)) : Oblivious (ofFields fields) :=
  Edit.newContainer_oblivious.bind fun id =>
    ((Holder.shared id).assignAll_oblivious fields []).bind fun _ => oblivious_pure _

end ContainerId

theorem Holder.addCopies_oblivious (h : Holder) {copyTree : ContainerId → Edit ContainerId}
    (hc : ∀ id, Oblivious (copyTree id)) (entries : List (Key × Field)) :
    Oblivious (h.addCopies copyTree entries) := by
  refine oblivious_forM _ fun e => ?_
  dsimp only
  split
  · exact ((hc _).map _).bind fun v => (h.add_oblivious _ v).discard
  · exact (oblivious_pure _).bind fun v => (h.add_oblivious _ v).discard

namespace ContainerId

theorem copyWithin_oblivious (d : Nat) (id : ContainerId) : Oblivious (id.copyWithin d) := by
  induction d generalizing id with
  | zero => exact oblivious_pure id
  | succ d ih =>
    refine oblivious_get_bind (fun s => Edit.newContainer_oblivious.bind fun copy => ?_)
      fun s t (ht : s.Alike t) => by rw [ht.agree.container]
    exact ((Holder.shared copy).addCopies_oblivious ih _).bind fun _ => oblivious_pure _

theorem copy_oblivious (id : ContainerId) : Oblivious id.copy :=
  oblivious_get_bind (fun s => id.copyWithin_oblivious _)
    fun s t (ht : s.Alike t) => by rw [ht.agree.nestingBound]

end ContainerId

namespace RecordId

variable (id : RecordId) (k : Key) (l : Label) (p : Place) (v : Value)

theorem limit_oblivious : Oblivious id.limit :=
  oblivious_of_outcome (fun s => .ok (s.record id).maxDepth) (fun _ => rfl)
    fun s t (ht : s.Alike t) => by rw [ht.maxDepth]

theorem read_oblivious : Oblivious (id.read p) :=
  id.limit_oblivious.bind fun limit => Eval.oblivious_run (readWithin_oblivious limit limit id p)

theorem write_oblivious : Oblivious (id.write p v) :=
  id.limit_oblivious.bind fun limit =>
    Eval.oblivious_run (writeWithin_oblivious limit limit id p v)

theorem evaluate_oblivious (f : Formula) : Oblivious (id.evaluate f) :=
  id.limit_oblivious.bind fun limit =>
    Eval.oblivious_run (f.eval_oblivious (readWithin_oblivious limit limit) id)

theorem contents_oblivious : Oblivious id.contents := (Holder.record id).contents_oblivious

theorem field_oblivious : Oblivious (id.field k) :=
  oblivious_get_bind (fun s => id.contents_oblivious.bind fun c => oblivious_ofExcept _)
    fun s t (ht : s.Alike t) => by simp only [ht.agree.field]

theorem raw_oblivious : Oblivious (id.raw p) :=
  oblivious_get_bind (fun s => id.contents_oblivious.bind fun c => oblivious_ofExcept _)
    fun s t (ht : s.Alike t) => by simp only [ht.agree.value]

theorem fields_oblivious : Oblivious id.fields :=
  id.contents_oblivious.bind fun _ => oblivious_mapM _ fun _ =>
    (id.read_oblivious _).bind fun _ => oblivious_pure _

theorem render_oblivious : Oblivious id.render := by
  refine id.fields_oblivious.bind fun es => ?_
  exact oblivious_get_bind (fun s => oblivious_pure _) fun s t (ht : s.Alike t) => by
    rw [Space.fieldsText?, ht.agree.listing_ofSpace, Space.fieldsText?]

theorem supplant_oblivious : Oblivious (id.supplant p v) := by
  refine id.contents_oblivious.bind fun c => ?_
  split
  · exact oblivious_throw _
  · refine (id.raw_oblivious _).bind fun w => ?_
    split
    · refine ((Holder.record id).replace_oblivious _ v).discard.bind fun _ => ?_
      exact (id.field_oblivious _).bind fun f =>
        (Edit.note_oblivious id _ _ v).bind fun _ => oblivious_pure _
    · exact oblivious_pure _

theorem dangling_alike {s t : Space} (h : s.Alike t) : dangling t = dangling s := by
  funext v
  cases v with
  | cell c => cases c <;> simp only [dangling, h.alive]
  | _ => rfl

theorem detach_oblivious : Oblivious (id.detach p) := by
  refine oblivious_get_bind (fun s => (id.raw_oblivious p).bind fun w => ?_)
    fun s t (ht : s.Alike t) => by rw [dangling_alike ht]
  split
  · exact id.supplant_oblivious p .empty
  · exact (id.read_oblivious p).bind fun v => id.supplant_oblivious p v

theorem copyValue_oblivious : Oblivious (copyValue v) := by
  unfold copyValue
  split
  · exact (ContainerId.copy_oblivious _).map _
  · refine oblivious_get_bind (fun s => ?_) fun s t (ht : s.Alike t) => by rw [ht.derived]
    split
    · exact (Edit.newDerived_oblivious _).bind fun _ => oblivious_pure _
    · exact oblivious_pure _
  · exact oblivious_pure _

theorem oblivious_noting {m : Edit Key} (hm : Oblivious m) :
    Oblivious (do let k ← m; Edit.note id k l v; return k) :=
  hm.bind fun k => (Edit.note_oblivious id k l v).bind fun _ => oblivious_pure _

theorem derive_oblivious (name : Option String) : Oblivious (id.derive name) := by
  refine id.limit_oblivious.bind fun limit => (Edit.newRecord_oblivious name limit).bind fun copy =>
    id.contents_oblivious.bind fun c => Oblivious.bind ?_ fun _ => oblivious_pure _
  refine oblivious_forM _ fun e => (copyValue_oblivious _).bind fun v => ?_
  exact (copy.oblivious_noting _ v ((Holder.record copy).add_oblivious _ v)).discard

end RecordId

/-- An operation that takes no changes and lets go of no record. -/
def Operation.Notes : Operation → Prop
  | retain _ => False
  | record _ .takeChanges => False
  | _ => True

theorem Operation.notes_or (op : Operation) :
    op.Notes ∨ (∃ kept, op = .retain kept) ∨ ∃ id, op = .record id .takeChanges := by
  cases op with
  | retain kept => exact .inr (.inl ⟨kept, rfl⟩)
  | record id op =>
    cases op with
    | takeChanges => exact .inr (.inr ⟨id, rfl⟩)
    | _ => exact .inl trivial
  | _ => exact .inl trivial

theorem RecordOp.oblivious (id : RecordId) {op : RecordOp} (ho : op ≠ .takeChanges) :
    Oblivious (op.run id) := by
  cases op with
  | read p => exact (id.read_oblivious p).discard
  | fields => exact id.fields_oblivious.discard
  | render => exact id.render_oblivious.discard
  | evaluate f => exact (id.evaluate_oblivious f).discard
  | write p v => exact (id.write_oblivious p v).discard
  | add l v => exact (id.oblivious_noting l v ((Holder.record id).add_oblivious l v)).discard
  | addBefore next l v =>
    exact (id.oblivious_noting l v ((Holder.record id).addBefore_oblivious l v next)).discard
  | writeAll entries => exact oblivious_forM _ fun e => (id.write_oblivious _ e.2).discard
  | clear p =>
    exact (((Holder.record id).clear_oblivious p).bind fun k => (id.field_oblivious k).bind fun f =>
      (Edit.note_oblivious id k _ _).bind fun _ => oblivious_pure _).discard
  | remove k =>
    exact (((Holder.record id).remove_oblivious k).bind fun f =>
      (Edit.note_oblivious id k _ _).bind fun _ => oblivious_pure _).discard
  | relabel k l =>
    exact ((Holder.record id).relabel_oblivious k l).bind fun _ =>
      (id.raw_oblivious _).bind fun v => Edit.note_oblivious id k l v
  | detach p => exact (id.detach_oblivious p).discard
  | takeChanges => exact absurd rfl ho
  | derive name => exact (id.derive_oblivious name).discard

theorem Operation.oblivious {op : Operation} (ho : op.Notes) : Oblivious op.run := by
  cases op with
  | mintKey => exact Edit.mintKey_oblivious.discard
  | newContainer => exact Edit.newContainer_oblivious.discard
  | ofFields fields => exact (ContainerId.ofFields_oblivious fields).discard
  | copy id => exact id.copy_oblivious.discard
  | newDerived d => exact (Edit.newDerived_oblivious d).discard
  | newRecord name maxDepth => exact (Edit.newRecord_oblivious name maxDepth).discard
  | retain held => exact ho.elim
  | container id op => exact (Holder.shared id).containerOp_oblivious op
  | record id op =>
    refine RecordOp.oblivious id ?_
    rintro rfl
    exact ho

end LiveRecords
