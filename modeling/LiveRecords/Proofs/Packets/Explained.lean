import LiveRecords.Proofs.Container.Mirror
import LiveRecords.Proofs.Packets.Runs
import LiveRecords.Proofs.Record.Oblivious

/-! # What is noted is there

Let records hold no cells, and let containers be changed through records alone. What a record then
notes of a key is in fact under it, in the record itself or in a container, and stays there until
the key is noted again, be it that the container no longer lies in the record.
-/

namespace LiveRecords

/-- Where what a record notes may be: the record itself, or any container. -/
def Holder.Serves (id : RecordId) : Holder → Prop
  | record j => j = id
  | shared _ => True

namespace Space

/-- The record itself or some container has this field. -/
def Houses (s : Space) (id : RecordId) (k : Key) (f : Field) : Prop :=
  ∃ h : Holder, h.Serves id ∧ (s.contents h).field? k = some f

/-- Records hold no cells, and containers that have not been made are empty. -/
structure Tidy (s : Space) : Prop where
  layered : s.Layered
  cellless : ∀ id, (s.record id).Holds fun v => v.isCell = false
  unmade : ∀ i : ContainerId, s.nextContainer ≤ i.number → ∀ k, (s.container i).field? k = none

/-- From `s`, where nothing was noted yet, to `t` all that was changed has been noted: a field under
a key of which nothing is noted is still there, and what one record alone has noted of a key is. -/
structure Explained (s t : Space) : Prop where
  tidy : t.Tidy
  nextRecord : s.nextRecord ≤ t.nextRecord
  left : ∀ {id k f}, id.number < s.nextRecord → (∀ j, (t.changesOf j).get? k = none) →
    s.Houses id k f → t.Houses id k f
  noted : ∀ {id k f}, (t.changesOf id).get? k = some f → f.value ≠ .empty →
    (∀ j ≠ id, (t.changesOf j).get? k = none) → t.Houses id k f

/-- In `t` all has been noted since `s`, and as many records and containers have been made. -/
structure Follows (s : Space) (records containers : Nat) (t : Space) : Prop
    extends Explained s t where
  records : records ≤ t.nextRecord
  containers : containers ≤ t.nextContainer

/-- In `t` the field at `k` of one holder is `g`, all other holders and fields are as in `s`. -/
structure Sets (s t : Space) (d : Holder) (k : Key) (g : Option Field) : Prop where
  field? : ∀ h j, (t.contents h).field? j =
    if h = d ∧ j = k then g else (s.contents h).field? j
  changesOf : ∀ j, t.changesOf j = s.changesOf j
  nextRecord : t.nextRecord = s.nextRecord
  nextContainer : t.nextContainer = s.nextContainer

/-- Nothing is changed, or one field that the record serves is set and noted. -/
inductive Minds (s : Space) (id : RecordId) : Space → Prop where
  | still : Minds s id s
  | set {t d k g l v} : d.Serves id → d = .record id ∨ (s.contents d).holds k = true →
      s.Sets t d k g → (v ≠ .empty → g = some ⟨l, v⟩) → Minds s id (t.noted id k l v)

/-- Nothing is changed, or one field is: it is set in the record itself or in another holder that
has the key, or the record gives it up. What is noted is the field, or that it is empty. -/
inductive Alters (s : Space) (id : RecordId) : Space → Prop where
  | still : Alters s id s
  | put {t k l v} : s.Sets t (.record id) k (some ⟨l, v⟩) → Alters s id (t.noted id k l v)
  | drop {t k f} : (s.record id).fields.field? k = some f → s.Sets t (.record id) k none →
      Alters s id (t.noted id k f.label .empty)
  | deeper {t d k l v} : d.Serves id → (s.contents d).holds k = true →
      s.Sets t d k (some ⟨l, v⟩) → Alters s id (t.noted id k l v)

/-- An edit has faulted and left all as it was, or has set a field to `v` where the record leads. -/
inductive Places (s : Space) (id : RecordId) (v : Value) :
    EStateM.Result Fault Space Key → Prop where
  | fault {e} : Places s id v (.error e s)
  | set {t d k l} : t.Leads (.record id) d → d = .record id ∨ (s.contents d).holds k = true →
      s.Sets t d k (some ⟨l, v⟩) → Places s id v (.ok k t)

variable {s t : Space} {id : RecordId} {d : Holder} {k j : Key} {f : Field} {g : Option Field}
  {l : Label} {v : Value}

theorem made_of_changesOf (h : (s.changesOf id).get? k = some f) : id.number < s.nextRecord := by
  by_contra hid
  rw [changesOf, if_neg hid] at h
  cases h

theorem changesOf_noted (hid : id.number < s.nextRecord) (j : RecordId) :
    (s.noted id k l v).changesOf j =
      if j = id then (s.changesOf id).put k ⟨l, v⟩ else s.changesOf j := by
  refine ((gains_note id k l v).changes j).trans ?_
  rw [notes, if_pos hid, Note.replay_cons]
  by_cases hj : j = id
  · subst hj
    rw [if_pos rfl]
    rfl
  · rw [if_neg (Ne.symm hj), if_neg hj]
    rfl

theorem contents_setChanges (id : RecordId) (c : Changes) (h : Holder) :
    (s.setRecord id { s.record id with changes := c }).contents h = s.contents h := by
  have hr : ({ s.record id with changes := c } : Record).fields = (s.record id).fields := rfl
  exact contents_setRecord_of_fields hr h

theorem field?_noted (h : Holder) (j : Key) :
    ((s.noted id k l v).contents h).field? j = (s.contents h).field? j :=
  congrArg (Container.field? · j) (contents_setChanges id _ h)

section Houses

theorem houses_congr (h : ∀ h k, (t.contents h).field? k = (s.contents h).field? k)
    (hf : s.Houses id k f) : t.Houses id k f :=
  hf.imp fun d hd => ⟨hd.1, (h d k).trans hd.2⟩

theorem Sets.houses (h : s.Sets t d k (some f)) (hd : d.Serves id) : t.Houses id k f :=
  ⟨d, hd, by rw [h.field?, if_pos ⟨rfl, rfl⟩]⟩

theorem Sets.houses_of_ne (h : s.Sets t d k g) (hj : j ≠ k) (hf : s.Houses id j f) :
    t.Houses id j f := by
  obtain ⟨e, he, hf⟩ := hf
  refine ⟨e, he, ?_⟩
  rw [h.field?, if_neg fun he => hj he.2, hf]

/-- A record that lets go of a container no longer leads to what is in it. -/
theorem Layered.held_or_left (hs : s.Layered) (h : s.Houses id k f) :
    s.field? (s.record id).fields k = some f ∨
      s.field? (s.record id).fields k = none ∧ ∃ i, (s.container i).field? k = some f := by
  obtain ⟨d, hd, hf⟩ := h
  by_cases hl : s.Leads (.record id) d
  · exact .inl (hs.field?_iff.mpr ⟨d, hl, hf⟩)
  · refine .inr ⟨?_, ?_⟩
    · rw [Option.eq_none_iff_forall_ne_some]
      intro f' hf'
      obtain ⟨e, he, hfe⟩ := (hs.field?_iff (g := .record id)).mp hf'
      have hed := hs.holder_unique ((Container.holds_iff _ k).mpr ⟨_, hfe⟩)
        ((Container.holds_iff _ k).mpr ⟨_, hf⟩)
      exact hl (hed ▸ he)
    · cases d with
      | record j =>
        obtain rfl : j = id := hd
        exact absurd .here hl
      | shared i => exact ⟨i, hf⟩

end Houses

section Steps

theorem tidy_empty : ({} : Space).Tidy where
  layered := .empty
  cellless _ _ _ h := by cases h
  unmade _ _ _ := rfl

theorem Tidy.congr (h : s.Tidy) (ht : t.Layered)
    (hf : ∀ h k, (t.contents h).field? k = (s.contents h).field? k)
    (hn : s.nextContainer ≤ t.nextContainer) : t.Tidy where
  layered := ht
  cellless id k f hk := h.cellless id k f ((hf (.record id) k).symm.trans hk)
  unmade i hi k := (hf (.shared i) k).trans (h.unmade i (Nat.le_trans hn hi) k)

variable {s₀ : Space}

theorem Tidy.explained (h : s.Tidy) (hc : ∀ id, s.changesOf id = ∅) : s.Explained s where
  tidy := h
  nextRecord := Nat.le_refl _
  left _ _ hf := hf
  noted hf := by
    rw [hc] at hf
    cases hf

theorem Explained.quiet (h : s₀.Explained s) (ht : t.Tidy) (hn : s.nextRecord ≤ t.nextRecord)
    (hc : ∀ j, t.changesOf j = s.changesOf j)
    (hh : ∀ {id k f}, id.number < s.nextRecord → s.Houses id k f → t.Houses id k f) :
    s₀.Explained t where
  tidy := ht
  nextRecord := Nat.le_trans h.nextRecord hn
  left hid hk hf :=
    hh (Nat.lt_of_lt_of_le hid h.nextRecord) (h.left hid (fun j => hc j ▸ hk j) hf)
  noted {id k f} hf hv hk := by
    rw [hc] at hf
    exact hh (made_of_changesOf hf) (h.noted hf hv fun j hj => hc j ▸ hk j hj)

theorem Explained.note (h : s₀.Explained s) (hid : id.number < s.nextRecord) (hd : d.Serves id)
    (hs : s.Sets t d k g) (hg : v ≠ .empty → g = some ⟨l, v⟩) (ht : (t.noted id k l v).Tidy) :
    s₀.Explained (t.noted id k l v) := by
  have hchanges : ∀ i, (t.noted id k l v).changesOf i =
      if i = id then (s.changesOf id).put k ⟨l, v⟩ else s.changesOf i := by
    intro i
    rw [changesOf_noted (hs.nextRecord ▸ hid), hs.changesOf, hs.changesOf]
  have hat : ((t.noted id k l v).changesOf id).get? k = some ⟨l, v⟩ := by
    rw [hchanges, if_pos rfl, Table.get?_put_if, if_pos rfl]
  have helse : ∀ {q}, q ≠ k → ∀ i,
      ((t.noted id k l v).changesOf i).get? q = (s.changesOf i).get? q := by
    intro q hq i
    rw [hchanges]
    split
    · rename_i hi
      rw [Table.get?_put_if, if_neg hq, hi]
    · rfl
  have hstay : ∀ {i q f}, q ≠ k → s.Houses i q f → (t.noted id k l v).Houses i q f :=
    fun hq hf => houses_congr field?_noted (hs.houses_of_ne hq hf)
  refine ⟨ht, Nat.le_trans h.nextRecord (Nat.le_of_eq hs.nextRecord.symm),
    fun {i q f} hi hq hf => ?_, fun {i q f} hf hv hq => ?_⟩
  · by_cases hqk : q = k
    · subst hqk
      exact absurd (hat.symm.trans (hq id)) (Option.some_ne_none _)
    · exact hstay hqk (h.left hi (fun j => (helse hqk j).symm.trans (hq j)) hf)
  · by_cases hqk : q = k
    · subst hqk
      -- No other record may have noted the key that `id` has just noted.
      obtain rfl : i = id := by
        by_contra hi
        exact absurd (hat.symm.trans (hq id (Ne.symm hi))) (Option.some_ne_none _)
      obtain rfl := Option.some.inj (hat.symm.trans hf)
      exact houses_congr field?_noted ((hg hv ▸ hs).houses hd)
    · rw [helse hqk] at hf
      exact hstay hqk (h.noted hf hv fun j hj => (helse hqk j).symm.trans (hq j hj))

end Steps

theorem Minds.tidy (h : s.Minds id t) (hs : s.Tidy) (ht : t.Layered)
    (hc : ∀ j, (t.record j).Holds fun v => v.isCell = false) : t.Tidy where
  layered := ht
  cellless := hc
  unmade i hi q := by
    cases h with
    | still => exact hs.unmade i hi q
    | @set t d k g l v _ hk hset _ =>
      have hi' : s.nextContainer ≤ i.number := hset.nextContainer ▸ hi
      have hfield := hset.field? (.shared i) q
      rw [if_neg] at hfield
      · exact hfield.trans (hs.unmade i hi' q)
      · rintro ⟨rfl, rfl⟩
        obtain ⟨f, hf⟩ := (Container.holds_iff _ q).mp (hk.resolve_left fun he => by cases he)
        exact absurd ((hs.unmade i hi' q).symm.trans hf) (Option.some_ne_none f).symm

theorem Minds.explained {s₀ : Space} (h : s.Minds id t) (ha : s₀.Explained s)
    (hid : id.number < s.nextRecord) (ht : t.Layered)
    (hc : ∀ j, (t.record j).Holds fun v => v.isCell = false) : s₀.Explained t := by
  have htidy := h.tidy ha.tidy ht hc
  cases h with
  | still => exact ha
  | set hd _ hset hg => exact ha.note hid hd hset hg htidy

section Sets

theorem sets_setContents (n : Nat) (d : Holder) {c : Container}
    (hc : ∀ j, c.field? j = if j = k then g else (s.contents d).field? j) :
    s.Sets ({ s with nextKey := n }.setContents d c) d k g where
  field? h j := by
    rw [contents_setContents, contents_setNextKey]
    by_cases hh : h = d
    · subst hh
      simp only [if_true, true_and, hc]
    · simp only [hh, false_and, if_false]
  changesOf j := (gains_setContents d c).changes j
  nextRecord := by cases d <;> rfl
  nextContainer := by cases d <;> rfl

theorem Alters.minds (h : s.Alters id t) : s.Minds id t := by
  have hserves : (Holder.record id).Serves id := rfl
  cases h with
  | still => exact .still
  | put hset => exact .set hserves (.inl rfl) hset fun _ => rfl
  | drop _ hset => exact .set hserves (.inl rfl) hset fun hv => absurd rfl hv
  | deeper hd hk hset => exact .set hd (.inr hk) hset fun _ => rfl

end Sets

section Assigning

theorem Leads.serves (h : s.Leads (.record id) d) : d.Serves id := by
  cases h with
  | here => rfl
  | field _ hl =>
    obtain ⟨c, rfl, -⟩ := hl.reach _ rfl
    trivial

theorem leads_of_spares {h : Holder} (hs : Spares d s t) (hl : s.Leads h d) : t.Leads h d := by
  induction hl with
  | here => exact .here
  | @field h j m b d hf _ ih =>
    by_cases hd : h = d
    · exact hd ▸ .here
    · exact .field ((hs h hd).symm ▸ hf) (ih hs)

theorem assign_places (hs : s.Layered) (id : RecordId) (p : Place) (v : Value) :
    s.Places id v ((Holder.record id).assign p v s) := by
  cases p with
  | label l =>
    cases hl : (s.record id).fields.key? l with
    | none =>
      rw [Holder.assign_run_new v hl]
      exact .set .here (.inl rfl) (sets_setContents _ _ fun j => Container.field?_insert ..)
    | some k =>
      obtain ⟨w, hslot⟩ := hs.wellKept.slot?_of_key? hl
      rw [Holder.assign_run v hslot]
      exact .set .here (.inl rfl)
        (sets_setContents s.nextKey _ fun j => Container.field?_assign ..)
  | key k =>
    cases hp : s.locate (s.contents (.record id)) k with
    | none =>
      rw [assign_key_of_locate hp v]
      exact .fault
    | some path =>
      obtain ⟨hl, hk⟩ := leads_of_locate hs.wellKept hp
      obtain ⟨f, hf⟩ := (Container.holds_iff _ k).mp hk
      rw [assign_key_run hp hf v]
      split
      · exact .fault
      · exact .set (leads_of_spares (spares_setContents s _ _) hl) (.inr hk)
          (sets_setContents s.nextKey _ fun j => Container.field?_assign ..)

theorem clear_places (hs : s.Layered) (p : Place) :
    s.Places id .empty ((Holder.record id).clear p s) := by
  cases p with
  | key k => exact assign_places hs _ (.key k) .empty
  | label l =>
    have hassign := assign_places hs id (.label l) .empty
    rw [Holder.assign, bind_of_ok (Holder.contents_run _ s)] at hassign
    rw [Holder.clear, bind_of_ok (Holder.contents_run _ s), Container.key]
    cases hl : (s.contents (.record id)).key? l with
    | none => exact .fault
    | some k =>
      simp only [hl] at hassign
      exact hassign

theorem Layered.field_run (hs : s.Layered) (hl : s.Leads (.record id) d)
    (hf : (s.contents d).field? k = some f) : id.field k s = .ok f s :=
  congrArg (MonadExcept.ofExcept (m := Edit) · s) (hs.finds hl hf).field

theorem Places.alters {m : Edit Key} (h : s.Places id v (m s)) (ht : (final m s).Layered) :
    s.Alters id (final (id.noting m v) s) := by
  generalize hr : m s = r at h
  cases h with
  | fault =>
    rw [RecordId.noting, final_bind, hr]
    exact .still
  | @set t d k l hl hd hset =>
    rw [final_of_ok hr] at ht
    have hf : (t.contents d).field? k = some ⟨l, v⟩ := by rw [hset.field?, if_pos ⟨rfl, rfl⟩]
    have hfield := ht.field_run hl hf
    have hfinal : final (id.noting m v) s = t.noted id k l v := by
      rw [RecordId.noting, final_bind, hr]
      dsimp only
      rw [final_bind, hfield]
      rfl
    rw [hfinal]
    rcases hd with rfl | hd
    · exact .put hset
    · exact .deeper hl.serves hd hset

end Assigning

section Operations

theorem insert_alters (s : Space) (id : RecordId) (l : Label) (v : Value)
    (arrange : Key → List Key → List Key) :
    s.Alters id (final (id.entering ((Holder.record id).insert l v arrange) l v) s) := by
  rw [RecordId.entering, final_bind, Holder.insert_run, Holder.opened, s.nests_nil v]
  by_cases hl : (s.contents (.record id)).hasLabel l = true
  · rw [if_pos hl]
    exact .still
  · rw [if_neg hl]
    exact .put (sets_setContents (s.nextKey + 1) _ fun j => Container.field?_insert ..)

theorem addBefore_alters (s : Space) (id : RecordId) (next : Key) (l : Label) (v : Value) :
    s.Alters id (final (id.addBefore next l v) s) := by
  have hadd : id.addBefore next l v =
      id.entering ((Holder.record id).addBefore next l v) l v := rfl
  have hrun := Holder.addBefore_run (.record id) next l v s
  by_cases hn : next ∈ (s.contents (.record id)).order
  · rw [if_pos hn] at hrun
    have hinsert := insert_alters s id l v
      fun k order => order.flatMap fun j => if j = next then [k, j] else [j]
    rwa [RecordId.entering, final_bind, ← hrun, ← final_bind, ← RecordId.entering, ← hadd]
      at hinsert
  · rw [if_neg hn] at hrun
    rw [hadd, RecordId.entering, final_bind, hrun]
    exact .still

theorem remove_alters (s : Space) (id : RecordId) (k : Key) :
    s.Alters id (final (id.remove k) s) := by
  rw [RecordId.remove, final_bind, Holder.remove_run]
  cases hf : (s.contents (.record id)).field? k with
  | none => exact .still
  | some f =>
    exact .drop hf (sets_setContents s.nextKey _ fun j => Container.field?_remove ..)

theorem relabel_alters (s : Space) (id : RecordId) (k : Key) (l : Label) :
    s.Alters id (final (id.relabel k l) s) := by
  rw [RecordId.relabel, final_bind, Holder.relabel_run]
  cases hf : (s.contents (.record id)).field? k with
  | none => exact .still
  | some f =>
    have hf' : (s.record id).fields.field? k = some f := hf
    by_cases hl : f.label = l
    · simp only [hl, if_pos]
      rw [final_bind, RecordId.raw_run hf']
      subst hl
      refine .put ⟨fun h j => ?_, fun _ => rfl, rfl, rfl⟩
      split
      · rename_i hj
        rw [hj.1, hj.2, hf]
      · rfl
    · cases hn : (s.contents (.record id)).hasLabel l with
      | true =>
        simp only [hl, if_true, if_false]
        exact .still
      | false =>
        simp only [hl, if_false, Bool.false_eq_true]
        have hset := sets_setContents (s := s) s.nextKey (.record id) fun j =>
          (s.contents (.record id)).field?_rename k j f l
        have hk : ((s.setContents (.record id) ((s.contents (.record id)).rename k f l)).record
            id).fields.field? k = some { f with label := l } :=
          (hset.field? (.record id) k).trans (if_pos ⟨rfl, rfl⟩)
        rw [final_bind, RecordId.raw_run hk]
        exact .put hset

theorem write_alters (hs : s.Layered) {p : Place}
    (hp : ∀ k l c, s.slot? id p = some (k, ⟨l, .cell c⟩) → v.isCell = true) :
    s.Alters id (final (id.write p v) s) := by
  rw [RecordId.final_write hp]
  exact (assign_places hs _ p v).alters (holderClosed_layered.assign (.record id) p v s hs)

theorem clear_alters (hs : s.Layered) (p : Place) : s.Alters id (final (id.clear p) s) :=
  (clear_places hs p).alters (holderClosed_layered.clear (.record id) p s hs)

theorem Layered.alters (hs : s.Layered) {op : RecordOp} (ho : op.IsSingle s id) :
    s.Alters id (final (op.run id) s) := by
  cases op with
  | write p v =>
    rw [RecordOp.run, final_discard]
    exact write_alters hs ho
  | add l v =>
    rw [RecordOp.run, final_discard]
    exact insert_alters s id l v _
  | addBefore next l v =>
    rw [RecordOp.run, final_discard]
    exact addBefore_alters s id next l v
  | clear p =>
    rw [RecordOp.run, final_discard]
    exact clear_alters hs p
  | remove k =>
    rw [RecordOp.run, final_discard]
    exact remove_alters s id k
  | relabel k l => exact relabel_alters s id k l
  | _ => exact ho.elim

end Operations

section Counts

/-- As much is made in `t` as in `s`, and the same is noted. -/
structure Counts (s t : Space) : Prop where
  nextRecord : t.nextRecord = s.nextRecord
  nextContainer : t.nextContainer = s.nextContainer
  changesOf : ∀ j, t.changesOf j = s.changesOf j

instance : IsPreorder Space Counts where
  refl _ := ⟨rfl, rfl, fun _ => rfl⟩
  trans _ _ _ h h' := ⟨h'.nextRecord.trans h.nextRecord,
    h'.nextContainer.trans h.nextContainer, fun j => (h'.changesOf j).trans (h.changesOf j)⟩

theorem holderClosed_counts : Holder.Closed Counts :=
  Holder.closed_of_setContents
    (fun _ h c => ⟨by cases h <;> rfl, by cases h <;> rfl, (gains_setContents h c).changes⟩)
    fun _ => ⟨rfl, rfl, fun _ => rfl⟩

end Counts

variable {s₀ : Space} {n m : Nat} {c : ContainerId}

theorem Minds.nextContainer (h : s.Minds id t) : t.nextContainer = s.nextContainer := by
  cases h with
  | still => rfl
  | set _ _ hset _ => exact hset.nextContainer

namespace Follows

theorem congr (h : s₀.Follows n m s) (ht : t.Layered)
    (hf : ∀ h k, (t.contents h).field? k = (s.contents h).field? k)
    (hc : ∀ j, t.changesOf j = s.changesOf j) (hn : s.nextRecord ≤ t.nextRecord)
    (hm : s.nextContainer ≤ t.nextContainer) : s₀.Follows n m t where
  toExplained := h.quiet (h.tidy.congr ht hf hm) hn hc fun _ => houses_congr hf
  records := Nat.le_trans h.records hn
  containers := Nat.le_trans h.containers hm

/-- A container takes in more, be it that it loses what it did not have at first. -/
theorem shared (h : s₀.Follows n m s) (hcm : c.number < m) (ht : t.Layered)
    (hs : Spares (.shared c) s t) (hc : s.Counts t)
    (hf : ∀ k f, (s.container c).field? k = some f → (t.container c).field? k = some f) :
    s₀.Follows n m t where
  toExplained := by
    refine h.quiet ⟨ht, fun j k f hk => ?_, fun i hi k => ?_⟩ (Nat.le_of_eq hc.nextRecord.symm)
      hc.changesOf fun {id k f} _ => Exists.imp fun d hd => ⟨hd.1, ?_⟩
    · have hfields : t.contents (.record j) = s.contents (.record j) :=
        hs (.record j) fun he => by cases he
      exact h.tidy.cellless j k f ((congrArg (Container.field? · k) hfields).symm.trans hk)
    · have hi' : s.nextContainer ≤ i.number := hc.nextContainer ▸ hi
      have hne : Holder.shared i ≠ .shared c := by
        rintro he
        cases he
        exact Nat.not_lt.mpr hi' (Nat.lt_of_lt_of_le hcm h.containers)
      exact (congrArg (Container.field? · k) (hs _ hne)).trans (h.tidy.unmade i hi' k)
    · by_cases hd' : d = .shared c
      · subst hd'
        exact hf k f hd.2
      · exact hs d hd' ▸ hd.2
  records := hc.nextRecord ▸ h.records
  containers := hc.nextContainer ▸ h.containers

theorem withNew (h : s₀.Follows n m s) (name : Option String) (maxDepth : Nat) :
    s₀.Follows (s.nextRecord + 1) m (s.withNew name maxDepth) where
  toExplained := by
    have hrecord := record_withNew (s := s) name maxDepth
    refine h.quiet ⟨closed_layered.newRecord name maxDepth s h.tidy.layered, fun j => ?_,
      h.tidy.unmade⟩ (Nat.le_succ _) (Edit.gains_newRecord s name maxDepth).changes
      fun {id k f} hid => Exists.imp fun d hd => ⟨hd.1, ?_⟩
    · rw [hrecord]
      split
      · intro k f hk
        cases hk
      · exact h.tidy.cellless j
    · cases d with
      | shared i => exact hd.2
      | record j =>
        obtain rfl : j = id := hd.1
        have hj : j ≠ ⟨s.nextRecord⟩ := by
          rintro rfl
          exact Nat.lt_irrefl _ hid
        have hfields := congrArg Record.fields (hrecord j)
        rw [if_neg hj] at hfields
        exact (congrArg (Container.field? · k) hfields).trans hd.2
  records := Nat.le_refl _
  containers := h.containers

theorem newContainer (h : s₀.Follows n m s) :
    s₀.Follows n (s.nextContainer + 1) (final Edit.newContainer s) := by
  have ht := closed_layered.newContainer s h.tidy.layered
  have hfollows : s₀.Follows n m (final Edit.newContainer s) := by
    refine h.congr ht (fun g k => ?_) (fun _ => rfl) (Nat.le_refl _) (Nat.le_succ _)
    cases g with
    | record j => rfl
    | shared i =>
      refine (congrArg (Container.field? · k)
        (container_setContainer s ⟨s.nextContainer⟩ i {})).trans ?_
      split
      · rename_i hi
        exact (h.tidy.unmade i (Nat.le_of_eq (by rw [hi])) k).symm
      · rfl
  exact { hfollows with containers := Nat.le_refl _ }

theorem mono {n' m' : Nat} (h : s₀.Follows n m s) (hn : n' ≤ n) (hm : m' ≤ m) :
    s₀.Follows n' m' s :=
  { h with records := Nat.le_trans hn h.records, containers := Nat.le_trans hm h.containers }

theorem evalClosed (s₀ : Space) (n m : Nat) :
    Eval.Closed (OnSpace (Keeps (s₀.Follows n m))) :=
  Eval.closed_of_marks fun s id depth pending h => by
    have hg : s.Gains [] (s.setRecord id { s.record id with depth, pending }) :=
      gains_setRecord rfl rfl
    have hc := contents_setRecord_of_fields (s := s) (r := { s.record id with depth, pending }) rfl
    exact h.congr (h.tidy.layered.setRecord_of_fields rfl)
      (fun g k => congrArg (Container.field? · k) (hc g)) hg.changes (Nat.le_refl _) (Nat.le_refl _)

end Follows

end Space

open Space

section Containers

variable {s₀ : Space} {n m : Nat} {c : ContainerId}

theorem Holder.add_follows (hcm : c.number < m) (l : Label) (v : Value) :
    Moves (Keeps (s₀.Follows n m)) ((Holder.shared c).add l v) := by
  intro s h
  refine h.shared hcm (holderClosed_layered.add (.shared c) l v s h.tidy.layered)
    (spares_insert (.shared c) l v _ s) (holderClosed_counts.add (.shared c) l v s) fun k f hf => ?_
  change ((final ((Holder.shared c).add l v) s).contents (.shared c)).field? k = some f
  rw [Holder.add]
  rcases (Holder.shared c).final_insert l v s fun k order => order ++ [k] with he | ⟨-, -, he⟩ <;>
    rw [he]
  · exact hf
  · have hk : k ≠ ⟨s.nextKey⟩ := by
      rintro rfl
      exact absurd ((h.tidy.layered.wellKept.fresh (.shared c)).symm.trans hf)
        (Option.some_ne_none f).symm
    rw [contents_setContents, if_pos rfl, Container.field?_insert, if_neg hk]
    exact hf

theorem ContainerId.copyWithin_follows (d : Nat) (i : ContainerId) (m : Nat) :
    Moves (Keeps (s₀.Follows n m)) (i.copyWithin d) := by
  induction d generalizing i m with
  | zero => exact moves_pure i
  | succ d ih =>
    intro s h
    have hrun : final (i.copyWithin (d + 1)) s =
        final ((Holder.shared ⟨s.nextContainer⟩).addCopies (copyWithin d) (s.container i).entries)
          (final Edit.newContainer s) :=
      final_bind_pure _ (fun _ => (⟨s.nextContainer⟩ : ContainerId)) _
    rw [hrun]
    have hnext : (⟨s.nextContainer⟩ : ContainerId).number < s.nextContainer + 1 :=
      Nat.lt_succ_self _
    have hcopies := (Holder.shared _).addCopies_moves (Holder.add_follows hnext)
      (fun j => ih j _) (s.container i).entries _ h.newContainer
    exact hcopies.mono (Nat.le_refl _) (Nat.le_succ_of_le h.containers)

theorem ContainerId.copy_follows (i : ContainerId) :
    Moves (Keeps (s₀.Follows n m)) i.copy :=
  moves_get.bind fun _ => i.copyWithin_follows _ m

theorem ContainerId.ofFields_follows (fields : List (Label × Value)) :
    Moves (Keeps (s₀.Follows n m)) (ofFields fields) := by
  intro s h
  have hrun : final (ofFields fields) s =
      final ((Holder.shared ⟨s.nextContainer⟩).assignAll fields []) (final Edit.newContainer s) :=
    final_bind_pure _ (fun _ => (⟨s.nextContainer⟩ : ContainerId)) _
  have ht := closed_layered.ofFields fields s h.tidy.layered
  have hempty : ∀ k, ((final Edit.newContainer s).container ⟨s.nextContainer⟩).field? k = none := by
    intro k
    refine (congrArg (Container.field? · k) (container_setContainer s ..)).trans ?_
    rw [if_pos rfl]
    rfl
  have hnext : (⟨s.nextContainer⟩ : ContainerId).number < s.nextContainer + 1 :=
    Nat.lt_succ_self _
  rw [hrun] at ht ⊢
  refine (h.newContainer.shared hnext ht ?_ ?_ fun k f hf => ?_).mono (Nat.le_refl _)
    (Nat.le_succ_of_le h.containers)
  · exact (mirrors_assignAll (s.surroundings (.shared ⟨s.nextContainer⟩)) _ fields []).spares _
  · exact holderClosed_counts.assignAll (.shared _) fields [] _
  · exact absurd ((hempty k).symm.trans hf) (Option.some_ne_none f).symm

end Containers

/-- No cell is written, and the changes are left to the packet. -/
def RecordOp.Confined : RecordOp → Prop
  | write _ v => v.isCell = false
  | add _ v => v.isCell = false
  | addBefore _ _ v => v.isCell = false
  | writeAll entries => ∀ e ∈ entries, e.2.isCell = false
  | takeChanges => False
  | _ => True

/-- Containers are changed through records alone, and only records that have been made are written
to. -/
def Operation.Confined (s : Space) : Operation → Prop
  | container _ _ => False
  | record id op => id.number < s.nextRecord ∧ op.Confined
  | _ => True

section Records

variable {s₀ : Space} {n m : Nat} {id : RecordId}

theorem RecordOp.follows_of_writes {op : RecordOp} (ho : op.Writes fun v => v.isCell = false)
    (hw : ∀ entries, op ≠ .writeAll entries) (hid : id.number < n) :
    Moves (Keeps (s₀.Follows n m)) (op.run id) := by
  intro s h
  have hsingle := (ho.isSingle_or (h.tidy.cellless id)).resolve_right fun ⟨entries, he⟩ =>
    hw entries he
  have hminds := (h.tidy.layered.alters hsingle).minds
  have hempty : Value.empty.isCell = false := rfl
  obtain ⟨-, hn⟩ := RecordOp.logs (P := fun v => v.isCell = false) hempty (fun _ hw => hw) ho s
    h.tidy.layered.wellKept (h.tidy.cellless id)
  have hc : ∀ j, ((final (op.run id) s).record j).Holds fun v => v.isCell = false := by
    intro j
    by_cases hj : j = id
    · subst hj
      exact Record.holds_of_noted hn.noted (h.tidy.cellless j)
    · rw [hn.others j hj]
      exact h.tidy.cellless j
  exact {
    toExplained := hminds.explained h.toExplained (Nat.lt_of_lt_of_le hid h.records)
      (closed_layered.recordOp id op s h.tidy.layered) hc
    records := hn.nextRecord ▸ h.records
    containers := hminds.nextContainer ▸ h.containers }

theorem RecordId.write_follows (hid : id.number < n) (p : Place) {v : Value}
    (hv : v.isCell = false) : Moves (Keeps (s₀.Follows n m)) (id.write p v) := by
  have ho : (RecordOp.write p v).Writes fun v => v.isCell = false := hv
  exact .of_discard (RecordOp.follows_of_writes ho nofun hid)

theorem RecordId.add_follows (hid : id.number < n) (l : Label) {v : Value}
    (hv : v.isCell = false) : Moves (Keeps (s₀.Follows n m)) (id.add l v) := by
  have ho : (RecordOp.add l v).Writes fun v => v.isCell = false := hv
  exact .of_discard (RecordOp.follows_of_writes ho nofun hid)

/-- With no cell to be replaced, detaching changes nothing. -/
theorem RecordId.final_supplant {s : Space} (hs : s.Tidy) (p : Place) (v : Value) :
    final (id.supplant p v) s = s := by
  rw [RecordId.supplant, final_bind, RecordId.contents_run]
  dsimp only
  cases hp : (s.record id).fields.resolve p with
  | none => rfl
  | some k =>
    obtain ⟨f, hf⟩ := (hs.layered.wellKept.contents (.record id)).field?_of_resolve hp
    have hcell : f.value.isCell = false := hs.cellless id k f hf
    dsimp only
    rw [final_bind, RecordId.raw_run hf]
    dsimp only
    rw [hcell]
    rfl

theorem RecordId.detach_follows (p : Place) : Moves (Keeps (s₀.Follows n m)) (id.detach p) :=
  RecordId.detach_moves (id.read_moves (Follows.evalClosed s₀ n m) p) fun v _ h =>
    (RecordId.final_supplant h.tidy p v).symm ▸ h

theorem RecordId.addCopies_follows (hid : id.number < n) {entries : List (Key × Field)}
    (hc : ∀ e ∈ entries, e.2.value.isCell = false) :
    Moves (Keeps (s₀.Follows n m)) (id.addCopies entries) := by
  refine moves_forM _ fun e he => ?_
  have hadd : ∀ w : Value, w.isCell = false →
      Moves (Keeps (s₀.Follows n m)) (discard (id.add e.2.label w)) :=
    fun w hw => (id.add_follows hid _ hw).discard
  obtain ⟨k, l, w⟩ := e
  have hw : w.isCell = false := hc _ he
  dsimp only
  cases ht : w.tree? with
  | none =>
    rw [RecordId.copyValue_of_isPlain ⟨hw, ht⟩]
    exact hadd w hw
  | some i =>
    cases w with
    | tree i =>
      rw [RecordId.copyValue, bind_map_left]
      exact i.copy_follows.bind fun j => hadd (.tree j) rfl
    | _ => cases ht

theorem RecordId.derive_follows (name : Option String) :
    Moves (Keeps (s₀.Follows n m)) (id.derive name) := by
  intro s h
  have hnew := h.withNew name (s.record id).maxDepth
  have hnext : (⟨s.nextRecord⟩ : RecordId).number < s.nextRecord + 1 := Nat.lt_succ_self _
  rw [RecordId.final_derive]
  refine (RecordId.addCopies_follows hnext (fun e he => ?_) _ hnew).mono
    (Nat.le_succ_of_le h.records) (Nat.le_refl _)
  obtain ⟨k, -, hk⟩ := List.mem_filterMap.mp he
  obtain ⟨f, hf, rfl⟩ := Option.map_eq_some_iff.mp hk
  exact hnew.tidy.cellless id k f hf

theorem RecordOp.follows {op : RecordOp} (ho : op.Confined) (hid : id.number < n) :
    Moves (Keeps (s₀.Follows n m)) (op.run id) := by
  have reads : ∀ {op : RecordOp}, op.Reads → Moves (Keeps (s₀.Follows n m)) (op.run id) :=
    fun ho => RecordOp.moves_of_reads (Follows.evalClosed s₀ n m) _ ho id
  cases op with
  | read p => exact reads trivial
  | fields => exact reads trivial
  | render => exact reads trivial
  | evaluate f => exact reads trivial
  | writeAll entries =>
    exact moves_forM _ fun e he => (RecordId.write_follows hid _ (ho e he)).discard
  | write | add | addBefore | clear | remove | relabel =>
    exact RecordOp.follows_of_writes ho nofun hid
  | detach p => exact (RecordId.detach_follows p).discard
  | takeChanges => exact ho.elim
  | derive name => exact (RecordId.derive_follows name).discard

end Records

section Operations

variable {s₀ s : Space}

theorem Space.Explained.follows (h : s₀.Explained s) : s₀.Follows s.nextRecord s.nextContainer s :=
  ⟨h, Nat.le_refl _, Nat.le_refl _⟩

/-- What an operation changes that a record leads to, it notes. -/
theorem Operation.explained {op : Operation} (ho : op.Confined s) (hn : op.Notes)
    (h : s₀.Explained s) : s₀.Explained (final op.run s) := by
  cases op with
  | mintKey =>
    rw [Operation.run, final_discard]
    exact (h.follows.congr (closed_layered.mintKey s h.tidy.layered)
      (fun g k => congrArg (Container.field? · k) (s.contents_setNextKey _ g)) (fun _ => rfl)
      (Nat.le_refl _) (Nat.le_refl _)).toExplained
  | newContainer =>
    rw [Operation.run, final_discard]
    exact h.follows.newContainer.toExplained
  | ofFields fields =>
    exact ((ContainerId.ofFields_follows fields).discard _ h.follows).toExplained
  | copy i => exact (i.copy_follows.discard _ h.follows).toExplained
  | newDerived d =>
    rw [Operation.run, final_discard]
    refine (h.follows.congr (closed_layered.newDerived d s h.tidy.layered) (fun g k => ?_)
      (fun _ => rfl) (Nat.le_refl _) (Nat.le_refl _)).toExplained
    cases g <;> rfl
  | newRecord name maxDepth =>
    rw [Operation.run, final_discard]
    exact (h.follows.withNew name maxDepth).toExplained
  | retain kept => exact hn.elim
  | container i op => exact ho.elim
  | record id op => exact (RecordOp.follows ho.2 ho.1 _ h.follows).toExplained

end Operations

end LiveRecords
