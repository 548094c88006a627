import Mathlib.Data.List.Nodup
import LiveRecords.Proofs.Operations

/-! # The views of a container agree

Fields by key, keys by label, the order of keys and the nested containers describe one and the
same container. Every edit of a container changes the views together, and the keys in use
anywhere lie below the next key to be minted, so that a minted key is new wherever it goes.
-/

namespace LiveRecords

namespace Container

/-- The container that a field holds, if it holds one. -/
def treeAt (c : Container) (k : Key) : Option ContainerId := (c.field? k).bind (·.value.tree?)

/-- The four views of a container agree. -/
structure WellKept (c : Container) : Prop where
  order_nodup : c.order.Nodup
  mem_order : ∀ k, k ∈ c.order ↔ c.holds k = true
  key?_iff : ∀ l k, c.key? l = some k ↔ l ≠ .empty ∧ ∃ v, c.field? k = some ⟨l, v⟩
  nested_perm : c.nested.Perm (c.values.filterMap Value.tree?)

theorem values_filterMap_tree? (c : Container) :
    c.values.filterMap Value.tree? = c.order.filterMap c.treeAt := by
  rw [values, entries, List.filterMap_map, List.filterMap_filterMap]
  refine List.filterMap_congr fun k _ => ?_
  cases h : c.field? k <;> simp [treeAt, h]

theorem adopt_perm (v : Value) (nested : List ContainerId) :
    (adopt v nested).Perm (v.tree?.toList ++ nested) := by
  cases v with
  | tree id => exact List.perm_append_singleton id nested
  | _ => exact List.Perm.refl _

theorem disown_perm {v : Value} {nested rest : List ContainerId}
    (h : nested.Perm (v.tree?.toList ++ rest)) : (disown v nested).Perm rest := by
  cases v with
  | tree id =>
    refine (swapErase_perm id nested).trans ?_
    simpa [Value.tree?] using h.erase id
  | _ => exact h

section Trees

variable {c d : Container} {k : Key} {order : List Key}

/-- The containers held, told from the fields at the keys other than `k`. -/
theorem filterMap_treeAt_perm (h : order.Perm (k :: c.order.erase k))
    (ht : ∀ j ∈ c.order.erase k, d.treeAt j = c.treeAt j) :
    (order.filterMap d.treeAt).Perm
      ((d.treeAt k).toList ++ (c.order.erase k).filterMap c.treeAt) := by
  rw [← List.filterMap_congr ht]
  refine (h.filterMap d.treeAt).trans ?_
  cases hk : d.treeAt k <;> simp [hk]

end Trees

namespace WellKept

variable {c : Container} {k : Key} {f : Field}

theorem empty : ({} : Container).WellKept where
  order_nodup := List.nodup_nil
  mem_order k := by simp [holds, Table.contains]
  key?_iff l k := by simp [key?, field?]
  nested_perm := List.Perm.refl _

variable (h : c.WellKept)
include h

theorem mem_order_iff (k : Key) : k ∈ c.order ↔ ∃ g, c.field? k = some g :=
  (h.mem_order k).trans (c.holds_iff k)

theorem mem_of_field? (hk : c.field? k = some f) : k ∈ c.order :=
  (h.mem_order_iff k).mpr ⟨f, hk⟩

theorem field?_of_resolve {p : Place} (hp : c.resolve p = some k) :
    ∃ g, c.field? k = some g := by
  cases p with
  | key j =>
    have hj : c.holds j = true ∧ j = k := by simpa [resolve] using hp
    exact (c.holds_iff k).mp (hj.2 ▸ hj.1)
  | label l =>
    obtain ⟨-, v, hv⟩ := (h.key?_iff l k).mp hp
    exact ⟨_, hv⟩

theorem mem_nested_iff {b : ContainerId} :
    b ∈ c.nested ↔ ∃ k l, c.field? k = some ⟨l, .tree b⟩ := by
  rw [h.nested_perm.mem_iff, values_filterMap_tree?, List.mem_filterMap]
  constructor
  · rintro ⟨k, -, hk⟩
    obtain ⟨⟨l, v⟩, hf, hv⟩ := Option.bind_eq_some_iff.mp hk
    cases v with
    | tree a =>
      cases hv
      exact ⟨k, l, hf⟩
    | _ => cases hv
  · rintro ⟨k, l, hf⟩
    exact ⟨k, h.mem_of_field? hf, by simp [treeAt, hf, Value.tree?]⟩

theorem key?_of_field? (hk : c.field? k = some f) (hl : f.label ≠ .empty) :
    c.key? f.label = some k :=
  (h.key?_iff f.label k).mpr ⟨hl, f.value, hk⟩

theorem label_unique {j : Key} {g : Field} (hk : c.field? k = some f) (hj : c.field? j = some g)
    (hl : f.label ≠ .empty) (hfg : g.label = f.label) : j = k := by
  have := h.key?_of_field? hk hl
  rw [← hfg, h.key?_of_field? hj (hfg ▸ hl)] at this
  exact Option.some.inj this

/-- Without the label of the field at `k`, the labels lead to the other fields. -/
theorem unmarked_iff (hk : c.field? k = some f) (m : Label) (j : Key) :
    (if m = f.label ∧ f.label ≠ .empty then none else c.key? m) = some j ↔
      j ≠ k ∧ m ≠ .empty ∧ ∃ v, c.field? j = some ⟨m, v⟩ := by
  by_cases hm : m = f.label ∧ f.label ≠ .empty
  · rw [if_pos hm]
    obtain ⟨rfl, hne⟩ := hm
    constructor
    · intro hc
      cases hc
    · rintro ⟨hj, -, v, hv⟩
      exact absurd (h.label_unique hk hv hne rfl) hj
  · rw [if_neg hm, h.key?_iff]
    constructor
    · rintro ⟨hne, v, hv⟩
      refine ⟨?_, hne, v, hv⟩
      rintro rfl
      rw [hk] at hv
      cases hv
      exact hm ⟨rfl, hne⟩
    · rintro ⟨-, hne, v, hv⟩
      exact ⟨hne, v, hv⟩

theorem nested_perm_erase (hk : c.field? k = some f) :
    c.nested.Perm (f.value.tree?.toList ++ (c.order.erase k).filterMap c.treeAt) := by
  have hm := h.mem_of_field? hk
  have := h.nested_perm
  rw [values_filterMap_tree?] at this
  refine this.trans ?_
  have ht : c.treeAt k = f.value.tree? := by simp [treeAt, hk]
  rw [← ht]
  exact filterMap_treeAt_perm (List.perm_cons_erase hm) fun _ _ => rfl

theorem insert {order : List Key} (hk : c.field? k = none) (hl : c.key? f.label = none)
    (ho : order.Perm (k :: c.order)) : (c.insert k f order).WellKept := by
  have hko : k ∉ c.order := by simp [h.mem_order_iff, hk]
  constructor
  · exact ho.nodup_iff.mpr (List.nodup_cons.mpr ⟨hko, h.order_nodup⟩)
  · intro j
    change j ∈ order ↔ _
    rw [ho.mem_iff, List.mem_cons, h.mem_order_iff, holds_iff, field?_insert]
    by_cases hj : j = k <;> simp [hj]
  · intro l j
    rw [key?_insert, field?_insert]
    by_cases hlf : l = f.label ∧ f.label ≠ .empty
    · obtain ⟨rfl, hne⟩ := hlf
      by_cases hj : j = k
      · exact ⟨fun _ => ⟨hne, f.value, by simp [hj]⟩, fun _ => by simp [hne, hj]⟩
      · have hnone : ∀ v, c.field? j ≠ some ⟨f.label, v⟩ := fun v hv => by
          rw [h.key?_of_field? hv hne] at hl
          cases hl
        simp [hne, hj, Ne.symm hj, hnone]
    · rw [if_neg hlf, h.key?_iff]
      by_cases hj : j = k
      · subst hj
        have hf : ∀ v, l ≠ .empty → f ≠ ⟨l, v⟩ := fun v hne hv => by
          subst hv
          exact hlf ⟨rfl, hne⟩
        simp only [hk, if_pos, Option.some.injEq, reduceCtorEq, exists_false, and_false, false_iff]
        exact fun ⟨hne, v, hv⟩ => hf v hne hv
      · simp [hj]
  · rw [values_filterMap_tree?]
    have hp : (c.insert k f order).order.Perm (k :: c.order.erase k) := by
      rwa [List.erase_of_not_mem hko]
    refine ((adopt_perm f.value c.nested).trans ?_).trans
      (filterMap_treeAt_perm hp fun j hj => ?_).symm
    · have ht : (c.insert k f order).treeAt k = f.value.tree? := by simp [treeAt, field?_insert]
      rw [ht, List.erase_of_not_mem hko, ← values_filterMap_tree?]
      exact h.nested_perm.append_left _
    · have hne : j ≠ k := fun e => hko (e ▸ List.mem_of_mem_erase hj)
      simp [treeAt, field?_insert, hne]

theorem assign (hk : c.field? k = some f) (v : Value) : (c.assign k f v).WellKept := by
  have hm := h.mem_of_field? hk
  constructor
  · exact h.order_nodup
  · intro j
    change j ∈ c.order ↔ _
    rw [h.mem_order_iff, holds_iff, field?_assign]
    by_cases hj : j = k <;> simp [hj, hk]
  · intro l j
    rw [key?_assign, h.key?_iff, field?_assign]
    by_cases hj : j = k
    · subst hj
      obtain ⟨m, w⟩ := f
      simp [hk]
    · simp [hj]
  · rw [values_filterMap_tree?]
    refine ((adopt_perm v _).trans ?_).trans
      (filterMap_treeAt_perm (c := c) (k := k) (List.perm_cons_erase hm) fun j hj => ?_).symm
    · have ht : (c.assign k f v).treeAt k = v.tree? := by simp [treeAt, field?_assign]
      rw [ht]
      exact (disown_perm (h.nested_perm_erase hk)).append_left _
    · have hne : j ≠ k := fun e => h.order_nodup.not_mem_erase (e ▸ hj)
      simp [treeAt, field?_assign, hne]

theorem rename {l : Label} (hk : c.field? k = some f) (hl : c.key? l = none) :
    (c.rename k f l).WellKept := by
  have hm := h.mem_of_field? hk
  constructor
  · exact h.order_nodup
  · intro j
    change j ∈ c.order ↔ _
    rw [h.mem_order_iff, holds_iff, field?_rename]
    by_cases hj : j = k <;> simp [hj, hk]
  · intro m j
    rw [key?_rename, field?_rename]
    by_cases hml : m = l ∧ l ≠ .empty
    · obtain ⟨rfl, hne⟩ := hml
      by_cases hj : j = k
      · simp [hne, hj]
      · have hnone : ∀ v, c.field? j ≠ some ⟨m, v⟩ := fun v hv => by
          rw [h.key?_of_field? hv hne] at hl
          cases hl
        simp [hne, hj, Ne.symm hj, hnone]
    · rw [if_neg hml, h.unmarked_iff hk]
      by_cases hj : j = k
      · have hne : m ≠ .empty → ∀ v : Value, ({ f with label := l } : Field) ≠ ⟨m, v⟩ := by
          rintro hm v ⟨⟩
          exact hml ⟨rfl, hm⟩
        simpa [hj] using hne
      · simp [hj]
  · rw [values_filterMap_tree?]
    have ht : ∀ j, (c.rename k f l).treeAt j = c.treeAt j := fun j => by
      by_cases hj : j = k <;> simp [treeAt, field?_rename, hj, hk]
    have := h.nested_perm
    rw [values_filterMap_tree?] at this
    rwa [List.filterMap_congr fun j _ => ht j]

theorem remove (hk : c.field? k = some f) : (c.remove k f).WellKept := by
  have ho : (c.remove k f).order = c.order.erase k := by
    rw [h.order_nodup.erase_eq_filter]
    simp [Container.remove, bne, beq_eq_decide]
  constructor
  · rw [ho]
    exact h.order_nodup.erase k
  · intro j
    rw [ho, h.order_nodup.mem_erase_iff, h.mem_order_iff, holds_iff, field?_remove]
    by_cases hj : j = k <;> simp [hj]
  · intro l j
    rw [key?_remove, h.unmarked_iff hk, field?_remove]
    by_cases hj : j = k <;> simp [hj]
  · rw [values_filterMap_tree?, ho]
    refine (disown_perm (h.nested_perm_erase hk)).trans ?_
    rw [List.filterMap_congr fun j hj => ?_]
    have hne : j ≠ k := fun e => h.order_nodup.not_mem_erase (e ▸ hj)
    simp [treeAt, field?_remove, hne]

end WellKept

theorem flatMap_before {next : Key} {front back : List Key} (k : Key)
    (h : (front ++ next :: back).Nodup) :
    ((front ++ next :: back).flatMap fun j => if j = next then [k, j] else [j]) =
      front ++ k :: next :: back := by
  have hne : ∀ j ∈ front ++ back, j ≠ next := fun j hj e => by
    rw [List.nodup_middle, List.nodup_cons] at h
    exact h.1 (e ▸ hj)
  have hsame : ∀ js : List Key, (∀ j ∈ js, j ≠ next) →
      js.flatMap (fun j => if j = next then [k, j] else [j]) = js := by
    intro js hjs
    induction js with
    | nil => rfl
    | cons j js ih =>
      rw [List.forall_mem_cons] at hjs
      simp [hjs.1, ih hjs.2]
  rw [List.flatMap_append, List.flatMap_cons, if_pos rfl,
    hsame front fun j hj => hne j (List.mem_append_left back hj),
    hsame back fun j hj => hne j (List.mem_append_right front hj)]
  rfl

theorem perm_flatMap_before {next : Key} {order : List Key} (k : Key) (hn : next ∈ order)
    (ho : order.Nodup) :
    (order.flatMap fun j => if j = next then [k, j] else [j]).Perm (k :: order) := by
  obtain ⟨front, back, rfl⟩ := List.append_of_mem hn
  rw [flatMap_before k ho]
  exact List.perm_middle

end Container

namespace Space

/-- Every container is well kept, all keys in use have been minted, and records come in
ascending order. -/
structure WellKept (s : Space) : Prop where
  contents : ∀ h, (s.contents h).WellKept
  minted : ∀ h, ∀ k ∈ (s.contents h).order, k.number < s.nextKey
  ascending : s.records.Ascending

theorem WellKept.empty : ({} : Space).WellKept where
  contents h := by cases h <;> exact Container.WellKept.empty
  minted h k hk := by cases h <;> cases hk
  ascending := Table.ascending_empty

variable {s t : Space}

theorem WellKept.fresh (hs : s.WellKept) (h : Holder) :
    (s.contents h).field? ⟨s.nextKey⟩ = none := by
  rw [Option.eq_none_iff_forall_ne_some]
  intro f hf
  exact Nat.lt_irrefl _ (hs.minted h ⟨s.nextKey⟩ ((hs.contents h).mem_of_field? hf))

theorem WellKept.slot?_of_key? (hs : s.WellKept) {id : RecordId} {l : Label} {k : Key}
    (hk : (s.record id).fields.key? l = some k) :
    ∃ v, s.slot? id (.label l) = some (k, ⟨l, v⟩) := by
  obtain ⟨-, v, hv⟩ := ((hs.contents (.record id)).key?_iff l k).mp hk
  exact ⟨v, (Container.slot?_eq_some ..).mpr ⟨hk, hv⟩⟩

/-- A space with the same containers is as well kept, however many more keys were minted. -/
theorem WellKept.congr (hs : s.WellKept) (hc : ∀ h, t.contents h = s.contents h)
    (hk : s.nextKey ≤ t.nextKey) (ha : t.records.Ascending) : t.WellKept where
  contents h := hc h ▸ hs.contents h
  minted h k hh := Nat.lt_of_lt_of_le (hs.minted h k (hc h ▸ hh)) hk
  ascending := ha

theorem contents_setRecord (id : RecordId) (r : Record) (h : Holder) :
    (s.setRecord id r).contents h = if h = .record id then r.fields else s.contents h := by
  cases h with
  | shared j => simp [Space.contents, container, Space.setRecord]
  | record j =>
    simp only [Space.contents, record_setRecord, Holder.record.injEq]
    split <;> rfl

theorem contents_setRecord_of_fields {id : RecordId} {r : Record}
    (hr : r.fields = (s.record id).fields) (h : Holder) :
    (s.setRecord id r).contents h = s.contents h := by
  rw [contents_setRecord]
  split
  · rename_i hh
    rw [hh, hr]
    rfl
  · rfl

theorem WellKept.setRecord (hs : s.WellKept) (id : RecordId) {r : Record}
    (hr : r.fields.WellKept) (hm : ∀ k ∈ r.fields.order, k.number < s.nextKey) :
    (s.setRecord id r).WellKept where
  contents h := by
    rw [contents_setRecord]
    split
    · exact hr
    · exact hs.contents h
  minted h := by
    rw [contents_setRecord]
    split
    · exact hm
    · exact hs.minted h
  ascending := hs.ascending.put id r

theorem WellKept.setRecord_of_fields (hs : s.WellKept) {id : RecordId} {r : Record}
    (hr : r.fields = (s.record id).fields) : (s.setRecord id r).WellKept :=
  hs.setRecord id (hr ▸ hs.contents (.record id)) (hr ▸ hs.minted (.record id))

theorem WellKept.setContents (hs : s.WellKept) (h : Holder) {c : Container} (hc : c.WellKept)
    (hm : ∀ k ∈ c.order, k.number < s.nextKey) : (s.setContents h c).WellKept := by
  cases h with
  | record id => exact hs.setRecord id hc hm
  | shared id =>
    refine ⟨fun g => ?_, fun g => ?_, hs.ascending⟩
    · rw [contents_setContents]
      split
      · exact hc
      · exact hs.contents g
    · rw [contents_setContents]
      split
      · exact hm
      · exact hs.minted g

section Edits

theorem WellKept.insert (hs : s.WellKept) (h : Holder) (l : Label) (v : Value)
    {arrange : Key → List Key → List Key}
    (ha : ∀ k, (arrange k (s.contents h).order).Perm (k :: (s.contents h).order)) :
    (final (h.insert l v arrange) s).WellKept := by
  rcases h.final_insert l v s arrange with he | ⟨hl, -, he⟩ <;> rw [he]
  · exact hs
  · have ht : { s with nextKey := s.nextKey + 1 }.WellKept :=
      hs.congr (s.contents_setNextKey _) (Nat.le_succ _) hs.ascending
    have hc := (hs.contents h).insert (f := ⟨l, v⟩) (hs.fresh h) hl (ha ⟨s.nextKey⟩)
    refine ht.setContents h hc fun k hk => ?_
    rcases List.mem_cons.mp ((ha _).mem_iff.mp hk) with rfl | hk
    · exact Nat.lt_succ_self _
    · exact Nat.lt_succ_of_lt (hs.minted h k hk)

theorem holderClosed_wellKept : Holder.Closed (Keeps WellKept) where
  add h l v s hs := hs.insert h l v fun k => List.perm_append_singleton k _
  addBefore h next l v s hs := by
    rcases h.final_addBefore l v s next with he | ⟨hn, he⟩ <;> rw [he]
    · exact hs
    · exact hs.insert h l v fun k =>
        Container.perm_flatMap_before k hn (hs.contents h).order_nodup
  replaceWithin opened h k v _ s hs := by
    rcases h.final_replaceWithin k v s opened with he | ⟨f, hf, -, he⟩ <;> rw [he]
    · exact hs
    · exact hs.setContents h ((hs.contents h).assign hf v) (hs.minted h)
  remove h k s hs := by
    rcases h.final_remove k s with he | ⟨f, hf, he⟩ <;> rw [he]
    · exact hs
    · refine hs.setContents h ((hs.contents h).remove hf) fun j hj => ?_
      exact hs.minted h j (List.mem_of_mem_filter hj)
  relabel h k l s hs := by
    rcases h.final_relabel k l s with he | ⟨f, hf, hl, he⟩ <;> rw [he]
    · exact hs
    · exact hs.setContents h ((hs.contents h).rename hf hl) (hs.minted h)

theorem contents_retain (ha : s.records.Ascending) (held : RecordId → Bool) (h : Holder) :
    (s.retain held).contents h = s.contents h ∨ (s.retain held).contents h = {} := by
  cases h with
  | shared id => exact .inl rfl
  | record id =>
    simp only [Space.contents]
    rcases record_retain ha held id with hr | hr <;> rw [hr]
    · exact .inl rfl
    · exact .inr rfl

theorem WellKept.retain (hs : s.WellKept) (held : RecordId → Bool) : (s.retain held).WellKept := by
  refine ⟨fun h => ?_, fun h k hk => ?_, hs.ascending.filter _⟩
  · rcases contents_retain hs.ascending held h with he | he <;> rw [he]
    · exact hs.contents h
    · exact .empty
  · rcases contents_retain hs.ascending held h with he | he <;> rw [he] at hk
    · exact hs.minted h k hk
    · cases hk

theorem keeps_newContainer : Moves (Keeps WellKept) Edit.newContainer := by
  intro s hs
  have ht := hs.setContents (.shared ⟨s.nextContainer⟩) Container.WellKept.empty nofun
  exact ht.congr (fun g => by cases g <;> rfl) (Nat.le_refl _) ht.ascending

theorem keeps_newRecord (name : Option String) (maxDepth : Nat) :
    Moves (Keeps WellKept) (Edit.newRecord name maxDepth) := by
  intro s hs
  have ht := hs.setRecord ⟨s.nextRecord⟩ (r := { name, maxDepth }) Container.WellKept.empty nofun
  exact ht.congr (fun g => by cases g <;> rfl) (Nat.le_refl _) ht.ascending

theorem evalClosed_wellKept : Eval.Closed (OnSpace (Keeps WellKept)) :=
  Eval.closed_of_marks fun _ _ _ _ hs => hs.setRecord_of_fields rfl

theorem closed_wellKept : Edit.Closed (Keeps WellKept) where
  toClosed := holderClosed_wellKept
  mintKey s hs := hs.congr (s.contents_setNextKey _) (Nat.le_succ _) hs.ascending
  newContainer := keeps_newContainer
  newDerived _ _ hs := hs.congr (fun g => by cases g <;> rfl) (Nat.le_refl _) hs.ascending
  newRecord := keeps_newRecord
  retain _ held hs := hs.retain held
  setChanges _ _ _ hs := hs.setRecord_of_fields rfl
  read id p := id.read_moves evalClosed_wellKept p
  evaluate id f := id.evaluate_moves evalClosed_wellKept f
  write id p v := id.write_moves
    (evalClosed_wellKept.forWrites holderClosed_wellKept.add holderClosed_wellKept.replaceWithin
      fun _ _ _ hs => hs.setRecord_of_fields rfl) p v

end Edits

end Space

theorem Reachable.wellKept {s : Space} (h : Reachable s) : s.WellKept :=
  h.of_closed Space.closed_wellKept .empty

/-- In every reachable space, whichever operations faulted on the way, the four views of every
container agree. -/
theorem Reachable.views_agree {s : Space} (h : Reachable s) (holder : Holder) :
    (s.contents holder).WellKept :=
  h.wellKept.contents holder

/-- One container is held by two fields of another, is refused the other one as a value of its
own, is changed by key from outside, and is taken out of one of the two fields. -/
def heldTwice : List Operation :=
  [.newContainer, .newContainer,
    .container ⟨1⟩ (.add (.name "a") (.tree ⟨2⟩)), .container ⟨1⟩ (.add .empty (.tree ⟨2⟩)),
    .container ⟨2⟩ (.add (.index 0) (.tree ⟨1⟩)), .container ⟨2⟩ (.add (.index 0) .empty),
    .container ⟨1⟩ (.assign (.key ⟨3⟩) (.bool true)), .container ⟨1⟩ (.remove ⟨1⟩)]

theorem views_agree_heldTwice :
    ((Space.after heldTwice).contents (.shared ⟨1⟩)).nested = [⟨2⟩] ∧
      ((Space.after heldTwice).contents (.shared ⟨2⟩)).entries =
        [(⟨3⟩, ⟨.index 0, .bool true⟩)] ∧
      ((Space.after heldTwice).contents (.shared ⟨1⟩)).WellKept :=
  ⟨by decide, by decide, (Reachable.after heldTwice).views_agree (.shared ⟨1⟩)⟩

end LiveRecords
