import LiveRecords.Proofs.Container.Mirror

/-! # What a holder comprises

A holder comprises the containers that one gets to from its fields, be it through the members of
lists and sets, where keys do not lead. What it comprises is told by the fields of what it
comprises, so it is the same wherever these are.
-/

namespace LiveRecords

/-- The value is this container, or has it among its members, at whatever depth. -/
inductive Value.Contains (i : ContainerId) : Value → Prop where
  | tree : Contains i (.tree i)
  | list {vs v} : v ∈ vs → Contains i v → Contains i (.list vs)
  | set {vs v} : v ∈ vs → Contains i v → Contains i (.set vs)

theorem Value.Contains.eq {i j : ContainerId} (h : (Value.tree j).Contains i) : i = j := by
  cases h
  rfl

/-- Containers are values of the fields, and no members of lists or sets. -/
def Container.Direct (c : Container) : Prop :=
  ∀ {k f i}, c.field? k = some f → f.value.Contains i → f.value = .tree i

namespace Space

inductive Comprises (s : Space) (g : Holder) : Holder → Prop where
  | here : Comprises s g g
  | inside {h k f i} : Comprises s g h → (s.contents h).field? k = some f → f.value.Contains i →
      Comprises s g (.shared i)

/-- Containers and records that have been made, and not only named. -/
def Made (s : Space) : Holder → Prop
  | .shared i => s.containers.contains i = true ∧ i.number < s.nextContainer
  | .record id => id.number < s.nextRecord

/-- What `g` comprises has been made, and none of it is comprised by the record `b`. -/
def Free (s : Space) (b : RecordId) (g : Holder) : Prop :=
  ∀ h, s.Comprises g h → s.Made h ∧ ¬ s.Comprises (.record b) h

/-- As much is made in `t` as in `s`, or more. -/
structure Grows (s t : Space) : Prop where
  nextContainer : s.nextContainer ≤ t.nextContainer
  nextRecord : s.nextRecord ≤ t.nextRecord
  containers : ∀ {i}, s.containers.contains i = true → t.containers.contains i = true

/-- Only `d` changes, and the values in it are those that it had, or such as `P` allows. -/
structure Takes (d : Holder) (P : Value → Prop) (s t : Space) : Prop where
  spares : Spares d s t
  field? : ∀ {k f}, (t.contents d).field? k = some f →
    P f.value ∨ ∃ j g, (s.contents d).field? j = some g ∧ g.value = f.value

variable {s t : Space} {g h : Holder} {i j : ContainerId} {id : RecordId} {k : Key} {f : Field}

namespace Comprises

theorem trans (hg : s.Comprises g h) {d : Holder} (hd : s.Comprises h d) : s.Comprises g d := by
  induction hd with
  | here => exact hg
  | inside _ hf hi ih => exact .inside ih hf hi

theorem eq_of_record (hg : s.Comprises g (.record id)) : g = .record id := by
  cases hg
  rfl

theorem of_leads (hl : s.Leads g h) : s.Comprises g h := by
  induction hl with
  | here => exact .here
  | field hf _ ih => exact (inside .here hf .tree).trans ih

/-- What is comprised in `t` is comprised in `s` if the fields have no more containers in them. -/
theorem of_fields
    (hf : ∀ {h k f i}, s.Comprises g h → (t.contents h).field? k = some f → f.value.Contains i →
      s.Comprises g (.shared i)) (ht : t.Comprises g h) : s.Comprises g h := by
  induction ht with
  | here => exact .here
  | inside _ hk hi ih => exact hf ih hk hi

theorem of_contents (hc : ∀ h, s.Comprises g h → t.contents h = s.contents h ∨ t.contents h = {})
    (ht : t.Comprises g h) : s.Comprises g h := by
  refine ht.of_fields fun {h k f i} hh hf hi => ?_
  rcases hc h hh with he | he
  · exact hh.inside (he ▸ hf) hi
  · rw [he] at hf
    cases hf

end Comprises

theorem comprises_congr (hc : ∀ h, s.Comprises g h → t.contents h = s.contents h) :
    t.Comprises g h ↔ s.Comprises g h := by
  refine ⟨.of_contents fun h hh => .inl (hc h hh), fun hs => ?_⟩
  induction hs with
  | here => exact .here
  | inside hh hf hi ih => exact .inside ih ((hc _ hh).symm ▸ hf) hi

section Growing

theorem contains_setContainer (s : Space) (j i : ContainerId) (c : Container) :
    (s.setContainer j c).containers.contains i = (decide (i = j) || s.containers.contains i) := by
  by_cases hi : i = j <;> simp [setContainer, Table.contains, Table.get?_put_if, hi]

instance : IsPreorder Space Grows where
  refl _ := ⟨Nat.le_refl _, Nat.le_refl _, fun hi => hi⟩
  trans _ _ _ h h' := ⟨Nat.le_trans h.nextContainer h'.nextContainer,
    Nat.le_trans h.nextRecord h'.nextRecord, fun hi => h'.containers (h.containers hi)⟩

theorem Grows.made (h : s.Grows t) (hg : s.Made g) : t.Made g := by
  cases g with
  | shared i => exact ⟨h.containers hg.1, Nat.lt_of_lt_of_le hg.2 h.nextContainer⟩
  | record id => exact Nat.lt_of_lt_of_le hg h.nextRecord

theorem grows_of_eq (hc : t.containers = s.containers) (hn : t.nextContainer = s.nextContainer)
    (hr : t.nextRecord = s.nextRecord) : s.Grows t :=
  ⟨Nat.le_of_eq hn.symm, Nat.le_of_eq hr.symm, fun hi => hc.symm ▸ hi⟩

theorem grows_setContents (s : Space) (h : Holder) (c : Container) :
    s.Grows (s.setContents h c) := by
  cases h with
  | record id => exact grows_of_eq rfl rfl rfl
  | shared j =>
    refine ⟨Nat.le_refl _, Nat.le_refl _, fun {i} hi => ?_⟩
    rw [setContents, contains_setContainer, hi, Bool.or_true]

theorem holderClosed_grows : Holder.Closed Grows :=
  Holder.closed_of_setContents grows_setContents fun _ => grows_of_eq rfl rfl rfl

theorem evalClosed_grows : Eval.Closed (OnSpace Grows) :=
  Eval.closed_of_marks fun _ _ _ _ => grows_of_eq rfl rfl rfl

theorem closed_grows : Edit.Closed Grows where
  toClosed := holderClosed_grows
  mintKey _ := grows_of_eq rfl rfl rfl
  newContainer s := by
    refine ⟨Nat.le_succ _, Nat.le_refl _, fun {i} hi => ?_⟩
    exact (contains_setContainer s ⟨s.nextContainer⟩ i {}).trans (by rw [hi, Bool.or_true])
  newDerived _ _ := grows_of_eq rfl rfl rfl
  newRecord _ _ _ := ⟨Nat.le_refl _, Nat.le_succ _, fun hi => hi⟩
  retain _ _ := grows_of_eq rfl rfl rfl
  setChanges _ _ _ := grows_of_eq rfl rfl rfl
  read id p := id.read_moves evalClosed_grows p
  evaluate id f := id.evaluate_moves evalClosed_grows f
  write id p v := id.write_moves
    (evalClosed_grows.forWrites holderClosed_grows.add holderClosed_grows.replaceWithin
      fun _ _ _ => grows_of_eq rfl rfl rfl) p v

end Growing

section Taking

variable {d : Holder} {P : Value → Prop} {v : Value}

instance : IsPreorder Space (Takes d P) where
  refl s := ⟨refl_of (Spares d) s, fun hf => .inr ⟨_, _, hf, rfl⟩⟩
  trans s t u h h' := by
    refine ⟨trans_of (Spares d) h.spares h'.spares, fun {k f} hf => ?_⟩
    rcases h'.field? hf with hp | ⟨j, g, hg, he⟩
    · exact .inl hp
    · exact he ▸ h.field? hg

theorem takes_of_contents (hc : ∀ h, t.contents h = s.contents h) : Takes d P s t :=
  ⟨fun h _ => hc h, fun hf => .inr ⟨_, _, hc d ▸ hf, rfl⟩⟩

theorem takes_setContents (n : Nat) {c : Container}
    (hc : ∀ {k f}, c.field? k = some f →
      P f.value ∨ ∃ j g, (s.contents d).field? j = some g ∧ g.value = f.value) :
    Takes d P s ({ s with nextKey := n }.setContents d c) where
  spares h hd := (spares_setContents _ d c h hd).trans (s.contents_setNextKey n h)
  field? {k f} hf := by
    rw [contents_setContents, if_pos rfl] at hf
    exact hc hf

theorem insert_takes (hv : P v) (d : Holder) (l : Label) (arrange : Key → List Key → List Key) :
    Moves (Takes d P) (d.insert l v arrange) := by
  intro s
  rcases d.final_insert l v s arrange with he | ⟨-, -, he⟩ <;> rw [he]
  · exact refl_of (Takes d P) s
  · refine takes_setContents _ fun {k f} hf => ?_
    rw [Container.field?_insert] at hf
    split at hf
    · cases hf
      exact .inl hv
    · exact .inr ⟨k, f, hf, rfl⟩

theorem add_takes (hv : P v) (d : Holder) (l : Label) : Moves (Takes d P) (d.add l v) :=
  insert_takes hv d l _

theorem addBefore_takes (hv : P v) (d : Holder) (next : Key) (l : Label) :
    Moves (Takes d P) (d.addBefore next l v) := by
  intro s
  rcases d.final_addBefore l v s next with he | ⟨-, he⟩ <;> rw [he]
  · exact refl_of (Takes d P) s
  · exact insert_takes hv d l _ s

theorem replaceWithin_takes (hv : P v) (opened : List ContainerId) (d : Holder) (k : Key) :
    Moves (Takes d P) (Holder.replaceWithin opened d k v) := by
  intro s
  rcases d.final_replaceWithin k v s opened with he | ⟨f, -, -, he⟩ <;> rw [he]
  · exact refl_of (Takes d P) s
  · refine takes_setContents s.nextKey fun {j g} hg => ?_
    rw [Container.field?_assign] at hg
    split at hg
    · cases hg
      exact .inl hv
    · exact .inr ⟨j, g, hg, rfl⟩

theorem remove_takes (d : Holder) (k : Key) : Moves (Takes d P) (d.remove k) := by
  intro s
  rcases d.final_remove k s with he | ⟨f, -, he⟩ <;> rw [he]
  · exact refl_of (Takes d P) s
  · refine takes_setContents s.nextKey fun {j g} hg => ?_
    rw [Container.field?_remove] at hg
    split at hg
    · cases hg
    · exact .inr ⟨j, g, hg, rfl⟩

theorem relabel_takes (d : Holder) (k : Key) (l : Label) : Moves (Takes d P) (d.relabel k l) := by
  intro s
  rcases d.final_relabel k l s with he | ⟨f, hf, -, he⟩ <;> rw [he]
  · exact refl_of (Takes d P) s
  · refine takes_setContents s.nextKey fun {j g} hg => ?_
    rw [Container.field?_rename] at hg
    split at hg
    · cases hg
      exact .inr ⟨k, f, hf, rfl⟩
    · exact .inr ⟨j, g, hg, rfl⟩

theorem contents_note (s : Space) (id : RecordId) (k : Key) (l : Label) (v : Value) (h : Holder) :
    (final (Edit.note id k l v) s).contents h = s.contents h := by
  have hr : ({ s.record id with changes := (s.record id).changes.record k l v } : Record).fields =
      (s.record id).fields := rfl
  exact contents_setRecord_of_fields hr h

theorem note_takes (d : Holder) (P : Value → Prop) (id : RecordId) (k : Key) (l : Label)
    (v : Value) : Moves (Takes d P) (Edit.note id k l v) := fun s =>
  takes_of_contents (contents_note s id k l v)

/-- What a holder comprises, then, it comprised before, or a value that was let in does. -/
theorem Takes.comprises (hs : Takes d P s t) (ht : t.Comprises g h) :
    s.Comprises g h ∨ ∃ v i, P v ∧ v.Contains i ∧ s.Comprises (.shared i) h := by
  induction ht with
  | here => exact .inl .here
  | @inside e k f i _ hf hi ih =>
    have hfield : P f.value ∨ ∃ j g, (s.contents e).field? j = some g ∧ g.value = f.value := by
      by_cases hed : e = d
      · exact hed ▸ hs.field? (hed ▸ hf)
      · exact .inr ⟨k, f, hs.spares e hed ▸ hf, rfl⟩
    rcases hfield with hp | ⟨j, f', hf', he⟩
    · exact .inr ⟨f.value, i, hp, hi, .here⟩
    · rw [← he] at hi
      refine ih.imp (fun hc => hc.inside hf' hi) fun hv => ?_
      obtain ⟨v, a, hv, ha, hc⟩ := hv
      exact ⟨v, a, hv, ha, hc.inside hf' hi⟩

end Taking

end Space

end LiveRecords
