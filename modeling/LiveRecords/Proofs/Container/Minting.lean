import LiveRecords.Proofs.Container.Lookup

/-! # Keys are not minted again

Whatever is done in a space, a holder comes by new keys only. A key that its holder has given up is
therefore gone for good.
-/

namespace LiveRecords

namespace Space

/-- No holder has come by a key but new ones. -/
structure Mints (s t : Space) : Prop where
  nextKey : s.nextKey ≤ t.nextKey
  holds : ∀ {h k}, k.number < s.nextKey → (t.contents h).holds k = true →
    (s.contents h).holds k = true

/-- The key has been given out, and no holder has it any more. -/
structure Gone (s : Space) (k : Key) : Prop where
  minted : k.number < s.nextKey
  holds : ∀ h, (s.contents h).holds k = false

/-- Well-kept containers stay so, and come by new keys alone. -/
def Renews (s t : Space) : Prop := s.WellKept → t.WellKept ∧ s.Mints t

variable {s t : Space} {g h : Holder} {id : RecordId} {k : Key} {f : Field} {c : Container}

theorem Mints.gone (h : s.Mints t) (hk : s.Gone k) : t.Gone k where
  minted := Nat.lt_of_lt_of_le hk.minted h.nextKey
  holds g := by
    rw [Bool.eq_false_iff]
    intro hg
    have := h.holds hk.minted hg
    rw [hk.holds g] at this
    cases this

theorem Gone.ne (hk : s.Gone k) {j : Key} (hj : (s.contents g).holds j = true) : j ≠ k := by
  rintro rfl
  rw [hk.holds g] at hj
  cases hj

theorem Layered.gone (hs : s.Layered) (ht : s.Mints t) (hk : (s.contents g).holds k = true)
    (hg : (t.contents g).holds k = false) : t.Gone k := by
  have hold : k.number < s.nextKey :=
    hs.wellKept.minted g k (((hs.wellKept.contents g).mem_order k).mpr hk)
  refine ⟨Nat.lt_of_lt_of_le hold ht.nextKey, fun h => ?_⟩
  rw [Bool.eq_false_iff]
  intro hh
  obtain rfl := hs.holder_unique hk (ht.holds hold hh)
  rw [hg] at hh
  cases hh

theorem Layered.gone_of_field (hs : s.Layered) (ht : s.Mints t)
    (hk : (s.record id).fields.field? k = some f)
    (hn : (t.record id).fields.field? k = none) : t.Gone k :=
  hs.gone ht (g := .record id) ((Container.holds_iff _ k).mpr ⟨f, hk⟩)
    (Option.isSome_eq_false_iff.mpr (Option.isNone_iff_eq_none.mpr hn))

instance : IsPreorder Space Renews where
  refl _ hs := ⟨hs, Nat.le_refl _, fun _ hk => hk⟩
  trans _ _ _ h h' hs := by
    obtain ⟨ht, hst⟩ := h hs
    obtain ⟨hu, htu⟩ := h' ht
    exact ⟨hu, Nat.le_trans hst.nextKey htu.nextKey, fun hk hh =>
      hst.holds hk (htu.holds (Nat.lt_of_lt_of_le hk hst.nextKey) hh)⟩

theorem mints_of_contents (hn : s.nextKey ≤ t.nextKey)
    (hc : ∀ g, t.contents g = s.contents g ∨ t.contents g = {}) : s.Mints t where
  nextKey := hn
  holds {h k} _ hk := by
    rcases hc h with he | he <;> rw [he] at hk
    · exact hk
    · cases hk

theorem mints_setContents {n : Nat} (hn : s.nextKey ≤ n)
    (hc : ∀ {k}, k.number < s.nextKey → c.holds k = true → (s.contents g).holds k = true) :
    s.Mints ({ s with nextKey := n }.setContents g c) where
  nextKey := by cases g <;> exact hn
  holds {h k} hk hh := by
    rw [contents_setContents] at hh
    split at hh
    · rename_i hg
      exact hg ▸ hc hk hh
    · exact contents_setNextKey s n h ▸ hh

theorem mints_of_order (hs : s.WellKept) (ht : (s.setContents g c).WellKept)
    (ho : c.order ⊆ (s.contents g).order) : s.Mints (s.setContents g c) := by
  have hc : c.WellKept := by
    have := ht.contents g
    rwa [contents_setContents, if_pos rfl] at this
  refine mints_setContents (n := s.nextKey) (Nat.le_refl _) fun {k} _ hk => ?_
  exact ((hs.contents g).mem_order k).mp (ho ((hc.mem_order k).mpr hk))

theorem insert_renews (h : Holder) (l : Label) (v : Value) {arrange : Key → List Key → List Key}
    (ha : ∀ k, (arrange k (s.contents h).order).Perm (k :: (s.contents h).order)) :
    s.Renews (final (h.insert l v arrange) s) := by
  refine fun hs => ⟨hs.insert h l v ha, ?_⟩
  rcases h.final_insert l v s arrange with he | ⟨-, -, he⟩ <;> rw [he]
  · exact mints_of_contents (Nat.le_refl _) fun _ => .inl rfl
  · refine mints_setContents (Nat.le_succ _) fun {k} hk hh => ?_
    obtain ⟨f, hf⟩ := (Container.holds_iff _ k).mp hh
    rw [Container.field?_insert] at hf
    split at hf
    · rename_i hnew
      exact absurd (hnew ▸ hk) (Nat.lt_irrefl _)
    · exact (Container.holds_iff _ k).mpr ⟨f, hf⟩

theorem holderClosed_renews : Holder.Closed Renews where
  add h l v s := insert_renews h l v fun k => List.perm_append_singleton k _
  addBefore h next l v s hs := by
    rcases h.final_addBefore l v s next with he | ⟨hn, he⟩ <;> rw [he]
    · exact refl_of Renews s hs
    · exact insert_renews h l v
        (fun k => Container.perm_flatMap_before k hn (hs.contents h).order_nodup) hs
  replaceWithin opened h k v ho s hs := by
    have ht := holderClosed_wellKept.replaceWithin opened h k v ho s hs
    rcases h.final_replaceWithin k v s opened with he | ⟨f, -, -, he⟩ <;> rw [he] at ht ⊢
    · exact refl_of Renews s hs
    · exact ⟨ht, mints_of_order hs ht (List.Subset.refl _)⟩
  remove h k s hs := by
    have ht := holderClosed_wellKept.remove h k s hs
    rcases h.final_remove k s with he | ⟨f, -, he⟩ <;> rw [he] at ht ⊢
    · exact refl_of Renews s hs
    · exact ⟨ht, mints_of_order hs ht (List.filter_subset_self _)⟩
  relabel h k l s hs := by
    have ht := holderClosed_wellKept.relabel h k l s hs
    rcases h.final_relabel k l s with he | ⟨f, -, -, he⟩ <;> rw [he] at ht ⊢
    · exact refl_of Renews s hs
    · exact ⟨ht, mints_of_order hs ht (List.Subset.refl _)⟩

theorem renews_setRecord {r : Record} (hr : r.fields = (s.record id).fields) :
    s.Renews (s.setRecord id r) := fun hs =>
  ⟨hs.setRecord_of_fields hr,
    mints_of_contents (Nat.le_refl _) fun g => .inl (contents_setRecord_of_fields hr g)⟩

theorem evalClosed_renews : Eval.Closed (OnSpace Renews) :=
  Eval.closed_of_marks fun _ _ _ _ => renews_setRecord rfl

/-- A key given up is given up for good. -/
theorem closed_renews : Edit.Closed Renews where
  toClosed := holderClosed_renews
  mintKey s hs := ⟨closed_wellKept.mintKey s hs,
    mints_of_contents (Nat.le_succ _) fun g => .inl (s.contents_setNextKey _ g)⟩
  newContainer s hs := by
    refine ⟨closed_wellKept.newContainer s hs, mints_of_contents (Nat.le_refl _) fun h => ?_⟩
    have hc : (final Edit.newContainer s).contents h =
        (s.setContents (.shared ⟨s.nextContainer⟩) {}).contents h := by cases h <;> rfl
    rw [hc, contents_setContents]
    split
    · exact .inr rfl
    · exact .inl rfl
  newDerived d s hs := ⟨closed_wellKept.newDerived d s hs,
    mints_of_contents (Nat.le_refl _) fun h => .inl (by cases h <;> rfl)⟩
  newRecord name maxDepth s hs := by
    refine ⟨closed_wellKept.newRecord name maxDepth s hs,
      mints_of_contents (Nat.le_refl _) fun h => ?_⟩
    have hc : (final (Edit.newRecord name maxDepth) s).contents h =
        (s.setRecord ⟨s.nextRecord⟩ { name, maxDepth }).contents h := by cases h <;> rfl
    rw [hc, contents_setRecord]
    split
    · exact .inr rfl
    · exact .inl rfl
  retain s held hs := ⟨hs.retain held,
    mints_of_contents (Nat.le_refl _) (contents_retain hs.ascending held)⟩
  setChanges _ _ _ := renews_setRecord rfl
  read id p := id.read_moves evalClosed_renews p
  evaluate id f := id.evaluate_moves evalClosed_renews f
  write id p v := id.write_moves
    (evalClosed_renews.forWrites holderClosed_renews.add holderClosed_renews.replaceWithin
      fun _ _ _ => renews_setRecord rfl) p v

end Space

end LiveRecords
