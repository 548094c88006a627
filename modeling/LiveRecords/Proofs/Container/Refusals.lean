import LiveRecords.Proofs.Container.Lookup

/-! # Refused edits of containers

An edit of one field goes through, or it faults and leaves everything as it was, however far down
it has come. To change label and value of a field at once is to make two such edits: where the
second one is refused, the first one stays.
-/

namespace LiveRecords

open Relation (ReflTransGen)

variable {α β : Type}

/-- An operation on a single field of a holder, its label or its value. -/
def ContainerOp.IsSingle : ContainerOp → Prop
  | change _ _ _ => False
  | assignAll _ _ => False
  | _ => True

namespace Space

/-- Run in `s`, the edit leaves everything as it was if it faults. -/
def Atomic (s : Space) (m : Edit α) : Prop := ∀ e t, m s = .error e t → t = s

variable {s t : Space} {g : Holder} {k : Key} {f : Field} {l : Label} {v : Value}

namespace Atomic

theorem throw (e : Fault) : s.Atomic (MonadExcept.throw e : Edit α) := by
  rintro _ _ ⟨⟩
  rfl

theorem congr {m n : Edit α} (hn : s.Atomic n) (h : m s = n s) : s.Atomic m :=
  fun e t he => hn e t (h ▸ he)

theorem after {m : Edit α} {f : α → Edit β} {a : α} (hm : m s = .ok a s)
    (hf : s.Atomic (f a)) : s.Atomic (m >>= f) :=
  hf.congr (bind_of_ok hm)

theorem andThen {m : Edit α} {f : α → Edit β} (hm : s.Atomic m)
    (hf : ∀ a t, m s = .ok a t → ∃ b u, f a t = .ok b u) : s.Atomic (m >>= f) := by
  intro e t he
  cases h : m s with
  | ok a u =>
    obtain ⟨b, w, hw⟩ := hf a u h
    rw [bind_of_ok h, hw] at he
    cases he
  | error e' u =>
    rw [bind_of_error h] at he
    cases he
    exact hm _ _ h

theorem map {m : Edit α} (hm : s.Atomic m) (c : α → β) :
    s.Atomic (m >>= fun a => Pure.pure (c a)) :=
  hm.andThen fun a t _ => ⟨c a, t, rfl⟩

theorem discard {m : Edit α} (hm : s.Atomic m) : s.Atomic (discard m) := hm.map _

end Atomic

section Edits

theorem atomic_insert (g : Holder) (l : Label) (v : Value)
    (arrange : Key → List Key → List Key) : s.Atomic (g.insert l v arrange) := by
  intro e t he
  rw [Holder.insert_run] at he
  split at he
  · cases he
    rfl
  · split at he <;> cases he
    rfl

theorem atomic_addBefore (g : Holder) (next : Key) (l : Label) (v : Value) :
    s.Atomic (g.addBefore next l v) := by
  intro e t he
  rw [Holder.addBefore_run] at he
  split at he
  · exact atomic_insert g l v _ e t he
  · cases he
    rfl

theorem atomic_replaceWithin (opened : List ContainerId) (g : Holder) (k : Key) (v : Value) :
    s.Atomic (Holder.replaceWithin opened g k v) := by
  intro e t he
  rw [Holder.replaceWithin_run] at he
  split at he
  · cases he
    rfl
  · split at he <;> cases he
    rfl

theorem atomic_assign (g : Holder) (p : Place) (v : Value) : s.Atomic (g.assign p v) := by
  refine .after (g.contents_run s) ?_
  cases p with
  | label l =>
    cases hl : (s.contents g).key? l with
    | none =>
      simp only [hl]
      exact atomic_insert g l v _
    | some k =>
      simp only [hl]
      exact (atomic_replaceWithin _ g k v).discard.map fun _ => k
  | key k =>
    refine .after (Edit.get_run s) ?_
    cases s.locate (s.contents g) k with
    | none => exact .throw _
    | some path => exact (atomic_replaceWithin _ _ k v).discard.map fun _ => k

theorem atomic_clear (g : Holder) (p : Place) : s.Atomic (g.clear p) := by
  cases p with
  | key k => exact atomic_assign g (.key k) .empty
  | label l =>
    refine .after (g.contents_run s) ?_
    cases hl : (s.contents g).key? l with
    | none =>
      have hkey : (s.contents g).key l = .error (.notFound (.label l)) := by rw [Container.key, hl]
      rw [hkey]
      exact (Atomic.throw _).congr rfl
    | some k =>
      have hkey : (s.contents g).key l = .ok k := by rw [Container.key, hl]
      rw [hkey]
      exact .after rfl ((atomic_replaceWithin _ g k .empty).discard.map fun _ => k)

theorem atomic_remove (g : Holder) (k : Key) : s.Atomic (g.remove k) := by
  intro e t he
  rw [Holder.remove_run] at he
  split at he <;> cases he
  rfl

theorem atomic_relabel (g : Holder) (k : Key) (l : Label) : s.Atomic (g.relabel k l) := by
  intro e t he
  rw [Holder.relabel_run] at he
  split at he
  · cases he
    rfl
  · split at he
    · cases he
    · split at he <;> cases he
      rfl

theorem atomic_containerOp (g : Holder) {op : ContainerOp} (ho : op.IsSingle) :
    s.Atomic (op.run g) := by
  cases op with
  | add l v => exact (atomic_insert g l v _).discard
  | addBefore next l v => exact (atomic_addBefore g next l v).discard
  | assign p v => exact (atomic_assign g p v).discard
  | replace k v => exact (atomic_replaceWithin _ g k v).discard
  | clear p => exact (atomic_clear g p).discard
  | remove k => exact (atomic_remove g k).discard
  | relabel k l => exact atomic_relabel g k l
  | _ => exact ho.elim

end Edits

/-- In `t` all holders hold what they do in `s`, but for the label of the field at `k` of `g`: the
field is `f` in `s`, and has the label `l` in `t`. -/
structure Relabelled (s t : Space) (g : Holder) (k : Key) (f : Field) (l : Label) : Prop where
  before : (s.contents g).field? k = some f
  field? : ∀ h j, (t.contents h).field? j =
    if h = g ∧ j = k then some { f with label := l } else (s.contents h).field? j
  key? : ∀ h m, (t.contents h).key? m =
    if h = g ∧ m = l ∧ l ≠ .empty then some k
    else if h = g ∧ m = f.label ∧ f.label ≠ .empty then none else (s.contents h).key? m
  order : ∀ h, (t.contents h).order = (s.contents h).order
  nested : ∀ h, (t.contents h).nested = (s.contents h).nested
  nextKey : t.nextKey = s.nextKey

/-- What the new contents of a holder have in common with the old ones, all holders keep. -/
theorem view_setContents {c : Container} (view : Container → α)
    (hc : view c = view (s.contents g)) (h : Holder) :
    view ((s.setContents g c).contents h) = view (s.contents h) := by
  rw [contents_setContents]
  split
  · rename_i hh
    rw [hh, hc]
  · rfl

theorem relabelled_setContents (hf : (s.contents g).field? k = some f) (l : Label) :
    s.Relabelled (s.setContents g ((s.contents g).rename k f l)) g k f l where
  before := hf
  field? h j := by
    rw [contents_setContents]
    by_cases hh : h = g
    · simp [hh, Container.field?_rename]
    · simp [hh]
  key? h m := by
    rw [contents_setContents]
    by_cases hh : h = g
    · simp [hh, Container.key?_rename]
    · simp [hh]
  order := view_setContents (·.order) rfl
  nested := view_setContents (·.nested) rfl
  nextKey := by cases g <;> rfl

theorem Relabelled.encloses (h : s.Relabelled t g k f l) {a b : ContainerId}
    (hab : t.Encloses a b) : s.Encloses a b := by
  obtain ⟨j, m, hj⟩ := hab
  have hfield := h.field? (.shared a) j
  rw [show (t.contents (.shared a)).field? j = some ⟨m, .tree b⟩ from hj] at hfield
  split at hfield
  · rename_i hg
    obtain ⟨rfl, rfl⟩ := hg
    obtain ⟨n, w⟩ := f
    cases hfield
    exact ⟨j, n, h.before⟩
  · exact ⟨j, m, hfield.symm⟩

theorem relabel_eq_ok {u : Unit} (h : g.relabel k l s = .ok u t) :
    ∃ f, (s.contents g).field? k = some f ∧
      (f.label = l ∧ t = s ∨ f.label ≠ l ∧ s.Relabelled t g k f l) := by
  rw [Holder.relabel_run] at h
  split at h
  · cases h
  · rename_i f hf
    refine ⟨f, hf, ?_⟩
    split at h
    · rename_i hl
      cases h
      exact .inl ⟨hl, rfl⟩
    · rename_i hl
      split at h <;> cases h
      exact .inr ⟨hl, relabelled_setContents hf l⟩

theorem exists_field?_of_relabel {u : Unit} (h : g.relabel k l s = .ok u t) :
    ∃ f, (t.contents g).field? k = some f := by
  obtain ⟨f, hf, ⟨-, rfl⟩ | ⟨-, hout⟩⟩ := relabel_eq_ok h
  · exact ⟨f, hf⟩
  · exact ⟨_, (hout.field? g k).trans (if_pos ⟨rfl, rfl⟩)⟩

theorem relabel_not_selfNesting {e : Fault} (h : g.relabel k l s = .error e t) :
    e ≠ .refused .selfNesting := by
  rw [Holder.relabel_run] at h
  split at h
  · cases h
    exact nofun
  · split at h
    · cases h
    · split at h <;> cases h
      exact nofun

/-- Once the field is relabelled, it is there, so that only nesting stands in the way of a value. -/
theorem replace_faults {e : Fault} {u : Space} (hf : (s.contents g).field? k = some f)
    (h : g.replace k v s = .error e u) :
    e = .refused .selfNesting ∧ u = s ∧ s.nests g.opened v = true := by
  rw [Holder.replace, Holder.replaceWithin_run, hf] at h
  dsimp only at h
  split at h <;> cases h
  exact ⟨rfl, rfl, ‹_›⟩

end Space

/-- If it faults to change label and value of a field, all is as it was, unless the value is
refused for bringing a container to lie inside itself: then the field has its new label already,
and everything else is as it was. -/
theorem Reachable.change_faults {s t : Space} (hs : Reachable s) {g : Holder} {k : Key} {l : Label}
    {v : Value} {e : Fault} (h : g.change k l v s = .error e t) :
    e ≠ .refused .selfNesting ∧ t = s ∨
      e = .refused .selfNesting ∧
        (∃ b, v = .tree b ∧ ∃ a ∈ g.opened, ReflTransGen s.Encloses b a) ∧
        ∃ f, (s.contents g).field? k = some f ∧
          (f.label = l ∧ t = s ∨ f.label ≠ l ∧ s.Relabelled t g k f l) := by
  cases hr : g.relabel k l s with
  | error e' u =>
    rw [Holder.change, bind_of_error hr] at h
    cases h
    exact .inl ⟨Space.relabel_not_selfNesting hr, Space.atomic_relabel g k l _ _ hr⟩
  | ok a u =>
    rw [Holder.change, bind_of_ok hr] at h
    have hu : u.Layered := by
      have := Space.holderClosed_layered.relabel g k l s hs.layered
      rwa [final_of_ok hr] at this
    obtain ⟨f, hf, hout⟩ := Space.relabel_eq_ok hr
    obtain ⟨f', hf'⟩ := Space.exists_field?_of_relabel hr
    have hsub : ∀ a b, u.Encloses a b → s.Encloses a b := by
      rcases hout with ⟨-, rfl⟩ | ⟨-, hout⟩
      · exact fun _ _ => id
      · exact fun _ _ => hout.encloses
    cases hrep : g.replace k v u with
    | ok w x =>
      rw [discard_of_ok hrep] at h
      cases h
    | error e' x =>
      rw [discard_of_error hrep] at h
      cases h
      obtain ⟨rfl, rfl, hn⟩ := Space.replace_faults hf' hrep
      refine .inr ⟨rfl, ?_, f, hf, hout⟩
      cases v with
      | tree b =>
        obtain ⟨a, ha, hba⟩ := hu.nests_iff.mp hn
        exact ⟨b, rfl, a, ha, ReflTransGen.mono hsub _ _ hba⟩
      | _ => cases hn

/-- The first container has a field, and lies in the second one. -/
def enclosed : List Operation :=
  [.newContainer, .newContainer, .container ⟨1⟩ (.add (.name "a") (.bool true)),
    .container ⟨2⟩ (.add .empty (.tree ⟨1⟩))]

/-- Where its field is to become `b` and hold the second container. -/
def enclosedChange : Edit Unit := (Holder.shared ⟨1⟩).change ⟨1⟩ (.name "b") (.tree ⟨2⟩)

theorem change_faults_enclosed :
    enclosedChange (Space.after enclosed) =
        .error (.refused .selfNesting) (final enclosedChange (Space.after enclosed)) ∧
      (Space.after enclosed).Relabelled (final enclosedChange (Space.after enclosed)) (.shared ⟨1⟩)
        ⟨1⟩ ⟨.name "a", .bool true⟩ (.name "b") := by
  have hrun : enclosedChange (Space.after enclosed) =
      .error (.refused .selfNesting) (final enclosedChange (Space.after enclosed)) := rfl
  refine ⟨hrun, ?_⟩
  rcases (Reachable.after enclosed).change_faults hrun with ⟨hne, -⟩ | ⟨-, -, f, hf, hout⟩
  · exact absurd rfl hne
  · cases hf
    rcases hout with ⟨hl, -⟩ | ⟨-, hout⟩
    · exact absurd hl (by decide)
    · exact hout

/-- It is not so that all is as it was whenever the change faults. -/
theorem not_change_whole :
    ¬ ∀ s : Space, Reachable s → ∀ (g : Holder) (k : Key) (l : Label) (v : Value) (e : Fault)
      (t : Space), g.change k l v s = .error e t → ∀ h j,
        (t.contents h).field? j = (s.contents h).field? j := by
  intro h
  have hfield := h _ (Reachable.after enclosed) (.shared ⟨1⟩) ⟨1⟩ (.name "b") (.tree ⟨2⟩) _ _ rfl
    (.shared ⟨1⟩) ⟨1⟩
  revert hfield
  decide

end LiveRecords
