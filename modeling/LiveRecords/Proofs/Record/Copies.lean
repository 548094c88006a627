import LiveRecords.Proofs.Container.Comprising
import LiveRecords.Proofs.Container.Mirror
import LiveRecords.Proofs.Packets.Runs

/-! # Copies have nothing in common with their source

Copying makes new containers and puts values into these alone. Where containers are values of
fields only, what a copy comprises is new, so that source and copy have no container in common.
-/

namespace LiveRecords

theorem forM_keeps {σ α : Type} {P : σ → Prop} {f : α → EStateM Fault σ Unit} {l : List α} {s t : σ}
    (hf : ∀ a ∈ l, ∀ {s t}, P s → f a s = .ok () t → P t) (hs : P s) (h : l.forM f s = .ok () t) :
    P t := by
  induction l generalizing s with
  | nil =>
    cases h
    exact hs
  | cons a l ih =>
    obtain ⟨_, u, ha, hl⟩ := bind_eq_ok_iff.mp h
    exact ih (fun b hb => hf b (List.mem_cons_of_mem a hb)) (hf a List.mem_cons_self hs ha) hl

namespace Space

/-- What has been made in `s` is in `t` as it was. -/
structure Preserves (s t : Space) : Prop extends Grows s t where
  contents : ∀ {h}, s.Made h → t.contents h = s.contents h

/-- The container has been made since `s`. -/
def New (s t : Space) (i : ContainerId) : Prop :=
  s.nextContainer ≤ i.number ∧ t.Made (.shared i)

/-- `s` is preserved, and what has been made since comprises nothing that was there before. -/
structure Copied (s t : Space) : Prop extends Preserves s t where
  layered : t.Layered
  new : ∀ {i j k f}, s.New t i → (t.container i).field? k = some f → f.value.Contains j → s.New t j

/-- What a record comprises has been made, with containers as values of fields only. -/
structure Copyable (s : Space) (g : Holder) : Prop where
  made : ∀ {h}, s.Comprises g h → s.Made h
  direct : ∀ {h}, s.Comprises g h → (s.contents h).Direct

variable {s t u : Space} {d g h : Holder} {i j b : ContainerId} {id c : RecordId} {k : Key}
  {l : Label} {v : Value} {name : Option String}

section Preserving

theorem Preserves.refl (s : Space) : s.Preserves s := ⟨refl_of Grows s, fun _ => rfl⟩

/-- A change to what was not there preserves what was. -/
theorem Preserves.of_spares (h : s.Preserves t) (hg : t.Grows u) (hd : ¬ s.Made d)
    (hu : Spares d t u) : s.Preserves u where
  toGrows := trans_of Grows h.toGrows hg
  contents {e} he := (hu e fun hde => hd (hde ▸ he)).trans (h.contents he)

theorem not_made_nextContainer (h : s.Grows t) : ¬ s.Made (.shared ⟨t.nextContainer⟩) :=
  fun hm => Nat.lt_irrefl _ (Nat.lt_of_lt_of_le hm.2 h.nextContainer)

theorem not_made_nextRecord (h : s.Grows t) : ¬ s.Made (.record ⟨t.nextRecord⟩) :=
  fun hm => Nat.lt_irrefl _ (Nat.lt_of_lt_of_le hm h.nextRecord)

theorem spares_newContainer (s : Space) :
    Spares (.shared ⟨s.nextContainer⟩) s (final Edit.newContainer s) := by
  intro h hh
  have hspares := spares_setContents s (.shared ⟨s.nextContainer⟩) {} h hh
  cases h <;> exact hspares

theorem spares_withNew (s : Space) (name : Option String) (maxDepth : Nat) :
    Spares (.record ⟨s.nextRecord⟩) s (s.withNew name maxDepth) := by
  intro h hh
  cases h with
  | shared i => rfl
  | record id =>
    refine congrArg Record.fields ((record_withNew name maxDepth id).trans (if_neg ?_))
    exact fun hid => hh (congrArg Holder.record hid)

theorem Preserves.newContainer (h : s.Preserves t) : s.Preserves (final Edit.newContainer t) :=
  h.of_spares (closed_grows.newContainer t) (not_made_nextContainer h.toGrows)
    (spares_newContainer t)

theorem Preserves.withNew (h : s.Preserves t) (name : Option String) (maxDepth : Nat) :
    s.Preserves (t.withNew name maxDepth) :=
  h.of_spares (closed_grows.newRecord name maxDepth t) (not_made_nextRecord h.toGrows)
    (spares_withNew t name maxDepth)

theorem add_preserves (hd : ¬ s.Made d) (l : Label) (v : Value) :
    Moves (Keeps s.Preserves) (d.add l v) := fun t h =>
  h.of_spares (holderClosed_grows.add d l v t) hd (spares_insert d l v _ t)

theorem note_preserves (s : Space) (id : RecordId) (k : Key) (l : Label) (v : Value) :
    Moves (Keeps s.Preserves) (Edit.note id k l v) := fun t h =>
  ⟨trans_of Grows h.toGrows (closed_grows.note id k l v t), fun he =>
    (contents_note t id k l v _).trans (h.contents he)⟩

theorem newDerived_preserves (s : Space) (d : Derived) :
    Moves (Keeps s.Preserves) (Edit.newDerived d) := fun t h =>
  ⟨trans_of Grows h.toGrows (closed_grows.newDerived d t), fun {e} he =>
    Eq.trans (by cases e <;> rfl) (h.contents he)⟩

end Preserving

end Space

open Space

section Copying

variable {s t u : Space} {d : Holder} {i j b : ContainerId} {id c : RecordId} {k : Key}
  {l : Label} {v : Value} {name : Option String}

theorem ContainerId.copyWithin_preserves (s : Space) (n : Nat) (i : ContainerId) :
    Moves (Keeps s.Preserves) (i.copyWithin n) := by
  induction n generalizing i with
  | zero => exact moves_pure i
  | succ n ih =>
    intro t h
    have hrun : final (i.copyWithin (n + 1)) t =
        final ((Holder.shared ⟨t.nextContainer⟩).addCopies (copyWithin n) (t.container i).entries)
          (final Edit.newContainer t) :=
      final_bind_pure _ (fun _ => (⟨t.nextContainer⟩ : ContainerId)) _
    rw [hrun]
    exact (Holder.shared _).addCopies_moves (add_preserves (not_made_nextContainer h.toGrows)) ih
      _ _ h.newContainer

theorem ContainerId.copy_preserves (s : Space) (i : ContainerId) :
    Moves (Keeps s.Preserves) i.copy :=
  moves_get.bind fun _ => i.copyWithin_preserves s _

theorem ContainerId.ofFields_preserves (s : Space) (fields : List (Label × Value)) :
    Moves (Keeps s.Preserves) (ofFields fields) := by
  intro t h
  have hrun : final (ofFields fields) t =
      final ((Holder.shared ⟨t.nextContainer⟩).assignAll fields []) (final Edit.newContainer t) :=
    final_bind_pure _ (fun _ => (⟨t.nextContainer⟩ : ContainerId)) _
  rw [hrun]
  refine h.newContainer.of_spares (holderClosed_grows.assignAll _ fields [] _)
    (not_made_nextContainer h.toGrows) ?_
  exact (mirrors_assignAll (t.surroundings (.shared ⟨t.nextContainer⟩)) _ fields []).spares _

theorem RecordId.copyValue_preserves (s : Space) (v : Value) :
    Moves (Keeps s.Preserves) (RecordId.copyValue v) :=
  RecordId.copyValue_moves (ContainerId.copy_preserves s) (newDerived_preserves s) v

theorem RecordId.add_preserves (hc : ¬ s.Made (.record c)) (l : Label) (v : Value) :
    Moves (Keeps s.Preserves) (c.add l v) :=
  (Space.add_preserves hc l v).bind fun k =>
    (note_preserves s c k l v).bind fun _ => moves_pure k

theorem RecordId.derive_preserves (s : Space) (id : RecordId) (name : Option String) :
    Moves (Keeps s.Preserves) (id.derive name) := by
  intro t h
  have hcopies : ∀ entries, Moves (Keeps s.Preserves)
      ((⟨t.nextRecord⟩ : RecordId).addCopies entries) := fun entries =>
    moves_forM entries fun e _ => (RecordId.copyValue_preserves s _).bind fun v =>
      (RecordId.add_preserves (not_made_nextRecord h.toGrows) _ v).discard
  rw [RecordId.final_derive]
  exact hcopies _ _ (h.withNew name (t.record id).maxDepth)

end Copying

section Fresh

variable {s t u : Space} {d : Holder} {i j b : ContainerId} {id c : RecordId} {k : Key}
  {l : Label} {v : Value} {name : Option String}

namespace Space

theorem New.not_made (h : s.New t i) : ¬ s.Made (.shared i) :=
  fun hm => Nat.not_lt.mpr h.1 hm.2

theorem New.grows (h : s.New t i) (hu : t.Grows u) : s.New u i := ⟨h.1, hu.made h.2⟩

theorem New.of_newContainer (h : s.New (final Edit.newContainer t) i) :
    i = ⟨t.nextContainer⟩ ∧ (final Edit.newContainer t).container i = {} ∨
      s.New t i ∧ (final Edit.newContainer t).container i = t.container i := by
  have hcontents : (final Edit.newContainer t).container i =
      if i = ⟨t.nextContainer⟩ then {} else t.container i :=
    container_setContainer t ⟨t.nextContainer⟩ i {}
  by_cases hit : i = ⟨t.nextContainer⟩
  · exact .inl ⟨hit, hcontents.trans (if_pos hit)⟩
  · have hlt : i.number < t.nextContainer := by
      refine Nat.lt_of_le_of_ne (Nat.le_of_lt_succ h.2.2) fun he => hit ?_
      rw [← he]
    have hmade : (final Edit.newContainer t).containers.contains i =
        (decide (i = ⟨t.nextContainer⟩) || t.containers.contains i) :=
      contains_setContainer t ⟨t.nextContainer⟩ i {}
    rw [h.2.1, decide_eq_false hit, Bool.false_or] at hmade
    exact .inr ⟨⟨h.1, hmade.symm, hlt⟩, hcontents.trans (if_neg hit)⟩

theorem newContainer_new (h : s.Grows t) :
    s.New (final Edit.newContainer t) ⟨t.nextContainer⟩ := by
  refine ⟨h.nextContainer, ?_, Nat.lt_succ_self _⟩
  exact (contains_setContainer t ⟨t.nextContainer⟩ ⟨t.nextContainer⟩ {}).trans (by simp)

theorem New.of_add {a : ContainerId} (hi : s.New t i)
    (h : s.New (final ((Holder.shared i).add l v) t) a) : s.New t a := by
  rcases (Holder.shared i).final_insert l v t fun k order => order ++ [k] with he | ⟨-, -, he⟩
  · rwa [Holder.add, he] at h
  · rw [Holder.add, he] at h
    by_cases hai : a = i
    · exact hai ▸ hi
    · refine ⟨h.1, ?_, h.2.2⟩
      have hc := h.2.1
      rw [setContents, contains_setContainer, decide_eq_false hai] at hc
      exact hc

namespace Copied

theorem refl (hs : s.Layered) : s.Copied s where
  toPreserves := .refl s
  layered := hs
  new hi := absurd hi.2 hi.not_made

theorem congr (h : s.Copied t) (hp : s.Preserves u) (hu : u.Layered)
    (hc : u.containers = t.containers) (hn : u.nextContainer = t.nextContainer) : s.Copied u where
  toPreserves := hp
  layered := hu
  new {i j k f} hi hf hj := by
    have hnew : ∀ {i}, s.New u i ↔ s.New t i := by
      intro i
      rw [New, New, Made, Made, hc, hn]
    have hi' : u.container i = t.container i := by rw [container, container, hc]
    rw [hi'] at hf
    exact hnew.mpr (h.new (hnew.mp hi) hf hj)

theorem newContainer (h : s.Copied t) : s.Copied (final Edit.newContainer t) where
  toPreserves := h.toPreserves.newContainer
  layered := closed_layered.newContainer t h.layered
  new {i j k f} hi hf hj := by
    rcases hi.of_newContainer with ⟨-, he⟩ | ⟨hi, he⟩ <;> rw [he] at hf
    · cases hf
    · exact (h.new hi hf hj).grows (closed_grows.newContainer t)

theorem add (h : s.Copied t) (hi : s.New t i) (l : Label) (hv : ∀ {j}, v.Contains j → s.New t j) :
    s.Copied (final ((Holder.shared i).add l v) t) where
  toPreserves := add_preserves hi.not_made l v t h.toPreserves
  layered := closed_layered.add (.shared i) l v t h.layered
  new {a j k f} ha hf hj := by
    have hgrows := holderClosed_grows.add (.shared i) l v t
    have htakes := add_takes (P := fun w => ∀ {j}, w.Contains j → s.New t j) hv (.shared i) l t
    have hnew := hi.of_add ha
    refine New.grows ?_ hgrows
    by_cases hai : a = i
    · subst hai
      rcases htakes.field? hf with hv | ⟨q, g, hg, he⟩
      · exact hv hj
      · exact h.new hnew hg (he ▸ hj)
    · have hsame : (final ((Holder.shared i).add l v) t).container a = t.container a :=
        htakes.spares (.shared a) fun he => hai (Holder.shared.inj he)
      exact h.new hnew (hsame ▸ hf) hj

end Copied

end Space

theorem Space.Preserves.path (h : s.Preserves t) (hm : ∀ {g}, s.Comprises (.shared i) g → s.Made g)
    {path : List ContainerId} (hp : s.Path i path b) : t.Path i path b := by
  induction hp with
  | nil => exact .nil
  | @cons i j b path hij _ ih =>
    obtain ⟨k, l, hk⟩ := hij
    have hi : t.container i = s.container i := h.contents (hm .here)
    have hj : s.Comprises (.shared i) (.shared j) := .inside .here hk .tree
    exact .cons ⟨k, l, hi.symm ▸ hk⟩ (ih fun hg => hm (hj.trans hg))

/-- The copy of a container is new and so is all that it comprises, provided that the copying goes
deep enough. -/
theorem ContainerId.copyWithin_copied {n : Nat} (h : s.Copied t) (hi : s.Copyable (.shared i))
    (hn : ∀ {path b}, s.Path i path b → path.length < n) (hrun : i.copyWithin n t = .ok j u) :
    s.Copied u ∧ s.New u j := by
  induction n generalizing t i j u with
  | zero => exact absurd (hn .nil) (Nat.lt_irrefl 0)
  | succ n ih =>
    have hcopy : i.copyWithin (n + 1) t =
        ((Holder.shared ⟨t.nextContainer⟩).addCopies (copyWithin n) (t.container i).entries >>=
          fun _ => pure (⟨t.nextContainer⟩ : ContainerId)) (final Edit.newContainer t) := rfl
    rw [hcopy] at hrun
    obtain ⟨_, w, hadds, hpure⟩ := bind_eq_ok_iff.mp hrun
    cases hpure
    refine forM_keeps (P := fun w => s.Copied w ∧ s.New w ⟨t.nextContainer⟩)
      (fun e he {w w'} hw hstep => ?_) ⟨h.newContainer, newContainer_new h.toGrows⟩ hadds
    obtain ⟨q, l, v⟩ := e
    obtain ⟨hcopied, hnew⟩ := hw
    have hf : (s.contents (.shared i)).field? q = some ⟨l, v⟩ := by
      rw [← h.contents (hi.made .here)]
      exact (Container.mem_entries.mp he).2
    have hadd : ∀ {v w₁}, s.Copied w₁ → s.New w₁ ⟨t.nextContainer⟩ →
        (∀ {j}, v.Contains j → s.New w₁ j) →
        discard ((Holder.shared ⟨t.nextContainer⟩).add l v) w₁ = .ok () w' →
        s.Copied w' ∧ s.New w' ⟨t.nextContainer⟩ := by
      intro v w₁ hcopied hnew hv hadd
      obtain ⟨_, hadd⟩ := discard_eq_ok_iff.mp hadd
      rw [← final_of_ok hadd]
      exact ⟨hcopied.add hnew _ hv, hnew.grows (holderClosed_grows.add _ _ _ _)⟩
    cases v with
    | tree a =>
      obtain ⟨_, w₁, hmap, hstep⟩ := bind_eq_ok_iff.mp hstep
      obtain ⟨a', _, ha, hpure⟩ := bind_eq_ok_iff.mp hmap
      cases hpure
      have hia : s.Comprises (.shared i) (.shared a) := .inside .here hf .tree
      obtain ⟨hcopied₁, ha'⟩ := ih hcopied
        ⟨fun hg => hi.made (hia.trans hg), fun hg => hi.direct (hia.trans hg)⟩
        (fun hp => Nat.lt_of_succ_lt_succ (hn (.cons ⟨q, l, hf⟩ hp))) ha
      have hgrows : w.Grows w₁ := final_of_ok ha ▸ ContainerId.copyWithin_moves
        closed_grows.newContainer (fun i => closed_grows.add (.shared i)) n a w
      exact hadd hcopied₁ (hnew.grows hgrows) (fun hj => hj.eq ▸ ha') hstep
    | _ => exact hadd hcopied hnew (fun hj => by cases hi.direct .here hf hj) hstep

theorem ContainerId.copy_copied (h : s.Copied t) (hi : s.Copyable (.shared i))
    (hrun : i.copy t = .ok j u) : s.Copied u ∧ s.New u j := by
  refine i.copyWithin_copied h hi (fun {path b} hp => ?_) hrun
  have hcomprised : s.Comprises (.shared i) (.shared b) := .of_leads (leads_of_reach hp.reach)
  have hmade := h.toGrows.made (hi.made hcomprised)
  obtain ⟨c, hc⟩ := Option.isSome_iff_exists.mp hmade.1
  exact (h.toPreserves.path hi.made hp).length_lt h.layered.acyclic (Table.mem_keys_iff.mpr ⟨c, hc⟩)

theorem RecordId.add_copied (h : s.Copied t) (hc : ¬ s.Made (.record c)) (l : Label) (v : Value) :
    s.Copied (final (c.add l v) t) := by
  have hcounts : (final (c.add l v) t).containers = t.containers ∧
      (final (c.add l v) t).nextContainer = t.nextContainer := by
    rw [RecordId.add, Holder.add, final_bind, Holder.insert_run, Holder.opened, t.nests_nil v]
    by_cases hl : (t.contents (.record c)).hasLabel l = true
    · rw [if_pos hl]
      exact ⟨rfl, rfl⟩
    · rw [if_neg hl]
      exact ⟨rfl, rfl⟩
  have hlayered := closed_layered.recordOp c (.add l v) t h.layered
  rw [RecordOp.run, final_discard] at hlayered
  exact h.congr (RecordId.add_preserves hc l v t h.toPreserves) hlayered hcounts.1 hcounts.2

theorem RecordId.add_takes {P : Value → Prop} (hv : P v) (c : RecordId) (l : Label) :
    Moves (Takes (.record c) P) (c.add l v) :=
  (Space.add_takes hv _ l).bind fun k => (note_takes _ P c k l v).bind fun _ => moves_pure k

theorem RecordId.copyValue_copied (h : s.Copied t) (hv : ∀ {i}, v.Contains i → v = .tree i)
    (hi : ∀ {i}, v.Contains i → s.Copyable (.shared i)) {w : Value}
    (hrun : RecordId.copyValue v t = .ok w u) :
    s.Copied u ∧ ∀ {j}, w.Contains j → s.New u j := by
  cases v with
  | tree i =>
    obtain ⟨j, _, hj, hpure⟩ := bind_eq_ok_iff.mp hrun
    cases hpure
    obtain ⟨hcopied, hnew⟩ := i.copy_copied h (hi .tree) hj
    exact ⟨hcopied, fun hj => hj.eq ▸ hnew⟩
  | cell cell =>
    cases cell with
    | reference target l =>
      cases hrun
      exact ⟨h, fun hj => by cases hj⟩
    | derived d =>
      rw [RecordId.copyValue, bind_of_ok (Edit.get_run t)] at hrun
      cases hd : t.derived.get? d with
      | none =>
        simp only [hd] at hrun
        cases hrun
        exact ⟨h, fun hj => by cases hj⟩
      | some e =>
        simp only [hd] at hrun
        obtain ⟨d', w₁, hnew, hpure⟩ := bind_eq_ok_iff.mp hrun
        cases hpure
        refine ⟨?_, fun hj => by cases hj⟩
        rw [← final_of_ok hnew]
        exact h.congr (newDerived_preserves s e t h.toPreserves)
          (closed_layered.newDerived e t h.layered) rfl rfl
  | _ =>
    cases hrun
    exact ⟨h, fun hj => by cases hv hj⟩

theorem Space.Copyable.inside {g : Holder} (h : s.Copyable g) (hg : s.Comprises g d) :
    s.Copyable d :=
  ⟨fun hd => h.made (hg.trans hd), fun hd => h.direct (hg.trans hd)⟩

theorem RecordId.derive_copied (hs : s.Layered) (hid : s.Copyable (.record id))
    (hrun : id.derive name s = .ok c t) :
    c = ⟨s.nextRecord⟩ ∧ s.Copied t ∧ t.Made (.record c) ∧
      ∀ {k f j}, (t.record c).fields.field? k = some f → f.value.Contains j → s.New t j := by
  let start := s.withNew name (s.record id).maxDepth
  have hderive : id.derive name s =
      ((⟨s.nextRecord⟩ : RecordId).addCopies (start.record id).fields.entries >>=
        fun _ => pure (⟨s.nextRecord⟩ : RecordId)) start := rfl
  rw [hderive] at hrun
  obtain ⟨_, u, hadds, hpure⟩ := bind_eq_ok_iff.mp hrun
  cases hpure
  have hstart : s.Copied start :=
    (Copied.refl hs).congr ((Preserves.refl s).withNew _ _)
      (closed_layered.newRecord name _ s hs) rfl rfl
  have hfields : start.contents (.record id) = s.contents (.record id) :=
    hstart.contents (hid.made .here)
  have hc : ¬ s.Made (.record ⟨s.nextRecord⟩) := not_made_nextRecord (refl_of Grows s)
  refine ⟨rfl, ?_⟩
  refine forM_keeps (P := fun w => s.Copied w ∧ w.Made (.record ⟨s.nextRecord⟩) ∧
    ∀ {k f j}, (w.record ⟨s.nextRecord⟩).fields.field? k = some f → f.value.Contains j →
      s.New w j) (fun e he {w w'} hw hstep => ?_) ⟨hstart, Nat.lt_succ_self _, ?_⟩ hadds
  · obtain ⟨hcopied, hmade, hnew⟩ := hw
    obtain ⟨k, l, v⟩ := e
    have hf : (s.contents (.record id)).field? k = some ⟨l, v⟩ :=
      hfields ▸ (Container.mem_entries.mp he).2
    obtain ⟨v', w₁, hcopy, hadd⟩ := bind_eq_ok_iff.mp hstep
    obtain ⟨hcopied₁, hv'⟩ := RecordId.copyValue_copied hcopied (hid.direct .here hf)
      (fun hi => hid.inside (.inside .here hf hi)) hcopy
    obtain ⟨_, hadd⟩ := discard_eq_ok_iff.mp hadd
    have hkept : w.Preserves w₁ :=
      final_of_ok hcopy ▸ RecordId.copyValue_preserves w v w (.refl w)
    have hgrows := closed_grows.recordOp ⟨s.nextRecord⟩ (.add l v') w₁
    have htakes := RecordId.add_takes (P := fun w => ∀ {j}, w.Contains j → s.New w₁ j) hv'
      ⟨s.nextRecord⟩ l w₁
    rw [RecordOp.run, final_discard] at hgrows
    rw [← final_of_ok hadd]
    refine ⟨RecordId.add_copied hcopied₁ hc l v', hgrows.made (hkept.made hmade),
      fun {k f j} hf hj => New.grows ?_ hgrows⟩
    rcases htakes.field? hf with hp | ⟨q, g, hg, he⟩
    · exact hp hj
    · have hg' := (hkept.contents hmade) ▸ hg
      exact (hnew hg' (he ▸ hj)).grows hkept.toGrows
  · intro k f j hf
    rw [record_withNew, if_pos rfl] at hf
    cases hf

/-- A record and its copy have no container in common. -/
theorem RecordId.derive_free (hs : s.Layered) (hid : s.Copyable (.record id))
    (hrun : id.derive name s = .ok c t) : t.Free c (.record id) ∧ t.Free id (.record c) := by
  obtain ⟨rfl, hcopied, hc, hnew⟩ := RecordId.derive_copied hs hid hrun
  have hold : ∀ {h}, t.Comprises (.record id) h → s.Made h := fun hh =>
    hid.made (hh.of_contents fun g hg => .inl (hcopied.contents (hid.made hg)))
  have hfresh : ∀ {h}, t.Comprises (.record ⟨s.nextRecord⟩) h → t.Made h ∧ ¬ s.Made h := by
    have key : ∀ {h}, t.Comprises (.record ⟨s.nextRecord⟩) h →
        h = .record ⟨s.nextRecord⟩ ∨ ∃ j, h = .shared j ∧ s.New t j := by
      intro h hh
      induction hh with
      | here => exact .inl rfl
      | inside _ hf hj ih =>
        rcases ih with rfl | ⟨a, rfl, ha⟩
        · exact .inr ⟨_, rfl, hnew hf hj⟩
        · exact .inr ⟨_, rfl, hcopied.new ha hf hj⟩
    intro h hh
    rcases key hh with rfl | ⟨j, rfl, hj⟩
    · exact ⟨hc, not_made_nextRecord (refl_of Grows s)⟩
    · exact ⟨hj.2, hj.not_made⟩
  exact ⟨fun _ hh => ⟨hcopied.toGrows.made (hold hh), fun hh' => (hfresh hh').2 (hold hh)⟩,
    fun _ hh => ⟨(hfresh hh).1, fun hh' => (hfresh hh).2 (hold hh')⟩⟩

end Fresh

end LiveRecords
