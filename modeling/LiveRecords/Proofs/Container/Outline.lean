import LiveRecords.Proofs.Container.WellKept

/-! # Outlines

The outline of a container is its keys in order with the labels they stand for. Replacing values
leaves it alone and adding a field appends to it, so assignments only ever make it longer.
-/

namespace LiveRecords

namespace Container

def outline (c : Container) : List (Key × Label) := c.entries.map fun e => (e.1, e.2.label)

/-- The label that a key stands for. -/
def labelAt (c : Container) (k : Key) : Option (Key × Label) :=
  (c.field? k).map fun f => (k, f.label)

variable {c d : Container} {k : Key} {l : Label} {f : Field}

theorem outline_eq (c : Container) : c.outline = c.order.filterMap c.labelAt := by
  rw [outline, entries, List.map_filterMap]
  refine List.filterMap_congr fun k _ => ?_
  cases h : c.field? k <;> simp [labelAt, h]

theorem mem_outline :
    (k, l) ∈ c.outline ↔ k ∈ c.order ∧ ∃ f, c.field? k = some f ∧ f.label = l := by
  simp only [outline_eq, labelAt, List.mem_filterMap, Option.map_eq_some_iff, Prod.mk.injEq]
  constructor
  · rintro ⟨j, hj, f, hf, rfl, rfl⟩
    exact ⟨hj, f, hf, rfl⟩
  · rintro ⟨hk, f, hf, rfl⟩
    exact ⟨k, hk, f, hf, rfl, rfl⟩

theorem outline_assign (hk : c.field? k = some f) (v : Value) :
    (c.assign k f v).outline = c.outline := by
  rw [outline_eq, outline_eq]
  refine List.filterMap_congr fun j _ => ?_
  by_cases hj : j = k <;> simp [labelAt, field?_assign, hj, hk]

theorem outline_append (hk : k ∉ c.order) :
    (c.insert k f (c.order ++ [k])).outline = c.outline ++ [(k, f.label)] := by
  have hold : ∀ j ∈ c.order, (c.insert k f (c.order ++ [k])).labelAt j = c.labelAt j := by
    intro j hj
    have hne : j ≠ k := fun e => hk (e ▸ hj)
    simp [labelAt, field?_insert, hne]
  have hnew : (c.insert k f (c.order ++ [k])).labelAt k = some (k, f.label) := by
    simp [labelAt, field?_insert]
  rw [outline_eq, outline_eq]
  change (c.order ++ [k]).filterMap _ = _
  rw [List.filterMap_append, List.filterMap_congr hold]
  simp [hnew]

end Container

namespace Space

/-- In every container of `t` the fields that it had in `s` come first, in their order and under
their labels. -/
def Outlines (s t : Space) : Prop := ∀ h, (s.contents h).outline <+: (t.contents h).outline

/-- Well-kept containers stay so, and go on with fields appended at most. -/
def Extends (s t : Space) : Prop := s.WellKept → t.WellKept ∧ Outlines s t

instance : IsPreorder Space Extends where
  refl _ hs := ⟨hs, fun _ => List.prefix_rfl⟩
  trans _ _ _ h h' hs :=
    ⟨(h' (h hs).1).1, fun g => ((h hs).2 g).trans ((h' (h hs).1).2 g)⟩

variable {s t : Space}

theorem Outlines.field? (h : Outlines s t) (hs : s.WellKept) {g : Holder} {k : Key} {f : Field}
    (hk : (s.contents g).field? k = some f) :
    ∃ f', (t.contents g).field? k = some f' ∧ f'.label = f.label := by
  have hm : (k, f.label) ∈ (s.contents g).outline :=
    Container.mem_outline.mpr ⟨(hs.contents g).mem_of_field? hk, f, hk, rfl⟩
  exact (Container.mem_outline.mp ((h g).subset hm)).2

theorem Outlines.of_contents (h : ∀ g, t.contents g = s.contents g) : Outlines s t := fun g => by
  simp [h g]

theorem outlines_setContents {h : Holder} {c : Container}
    (hc : (s.contents h).outline <+: c.outline) : Outlines s (s.setContents h c) := by
  intro g
  rw [contents_setContents]
  split
  · rename_i hg
    exact hg ▸ hc
  · exact List.prefix_rfl

theorem extends_add (h : Holder) (l : Label) (v : Value) : Moves Extends (h.add l v) := by
  intro s hs
  refine ⟨holderClosed_wellKept.add h l v s hs, ?_⟩
  rcases h.final_insert l v s (fun k order => order ++ [k]) with he | ⟨-, -, he⟩ <;>
    rw [Holder.add, he]
  · exact Outlines.of_contents fun _ => rfl
  · have hk : (⟨s.nextKey⟩ : Key) ∉ (s.contents h).order := fun hm =>
      Nat.lt_irrefl _ (hs.minted h _ hm)
    have hc : ({ s with nextKey := s.nextKey + 1 }.contents h).outline <+:
        ((s.contents h).insert ⟨s.nextKey⟩ ⟨l, v⟩
          ((s.contents h).order ++ [⟨s.nextKey⟩])).outline := by
      rw [contents_setNextKey, Container.outline_append hk]
      exact List.prefix_append ..
    intro g
    rw [← s.contents_setNextKey (s.nextKey + 1) g]
    exact outlines_setContents hc g

theorem extends_replaceWithin (opened : List ContainerId) (h : Holder) (k : Key) (v : Value)
    (hh : h.opened ⊆ opened) : Moves Extends (Holder.replaceWithin opened h k v) := by
  intro s hs
  refine ⟨holderClosed_wellKept.replaceWithin opened h k v hh s hs, ?_⟩
  rcases h.final_replaceWithin k v s opened with he | ⟨f, hf, -, he⟩ <;> rw [he]
  · exact Outlines.of_contents fun _ => rfl
  · exact outlines_setContents (Container.outline_assign hf v ▸ List.prefix_rfl)

theorem extends_setRecord {id : RecordId} {r : Record} (hr : r.fields = (s.record id).fields) :
    Extends s (s.setRecord id r) :=
  fun hs => ⟨hs.setRecord_of_fields hr, Outlines.of_contents (contents_setRecord_of_fields hr)⟩

theorem evalClosed_extends : Eval.Closed (OnSpace Extends) :=
  Eval.closed_of_marks fun _ _ _ _ => extends_setRecord rfl

theorem closedForWrites_extends : Eval.ClosedForWrites (OnSpace Extends) :=
  evalClosed_extends.forWrites extends_add extends_replaceWithin fun _ _ _ => extends_setRecord rfl

end Space

end LiveRecords
