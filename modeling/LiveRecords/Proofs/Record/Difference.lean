import Mathlib.Data.List.Induction
import LiveRecords.Proofs.Container.Comprising
import LiveRecords.Proofs.Container.Minting
import LiveRecords.Proofs.Packets.Current
import LiveRecords.Proofs.Record.Changes
import LiveRecords.Proofs.Record.Refusals

/-! # Changes are the difference

From where it has no changes, a record without cells goes on to note exactly in what it differs.
What it gives up it notes to be empty, under the label that it had last, and as the key is gone by
then, this is not noted over.
-/

namespace LiveRecords

open Relation (ReflTransGen)

/-- An operation that writes to the record `id`, no cells though, or leaves all records alone. -/
def Operation.Within (id : RecordId) : Operation → Prop
  | record j op => j = id ∧ op.Writes fun v => v.isCell = false
  | op => op.SparesRecords

namespace Space

/-- The record has been made and holds no cells. -/
structure Ready (s : Space) (id : RecordId) : Prop where
  layered : s.Layered
  made : id.number < s.nextRecord
  cellless : (s.record id).Holds fun v => v.isCell = false

/-- Of a run of operations, the first ones lead to where the record has the field `f` under `k` for
the last time. -/
structure HeldLast (id : RecordId) (k : Key) (f : Field) (first rest : List Operation) : Prop where
  held : ((after first).record id).fields.field? k = some f
  lost : ∀ more, more ≠ [] → more <+: rest →
    ((after (first ++ more)).record id).fields.field? k = none

variable {s t : Space} {id : RecordId} {k : Key} {f : Field}

section Altering

theorem Sets.changes {d : Holder} {g : Option Field} (h : s.Sets t d k g)
    (hid : id.number < s.nextRecord) : (t.record id).changes = (s.record id).changes := by
  have hchanges := h.changesOf id
  simpa only [Space.changesOf, h.nextRecord, if_pos hid] using hchanges

theorem changes_noted (j : Key) (l : Label) (v : Value) (k : Key) :
    ((s.noted id j l v).record id).changes.get? k =
      if k = j then some ⟨l, v⟩ else (s.record id).changes.get? k := by
  rw [record_noted, if_pos rfl]
  exact Changes.get?_record ..

theorem Alters.lost (h : s.Alters id t) (hk : (s.record id).fields.field? k = some f)
    (hn : (t.record id).fields.field? k = none) :
    (t.record id).changes.get? k = some ⟨f.label, .empty⟩ := by
  have hheld : (s.contents (.record id)).field? k = some f := hk
  have hnoted : ∀ {u : Space} {j : Key} {l : Label} {v : Value},
      ((u.noted id j l v).record id).fields.field? k = none →
      (u.contents (.record id)).field? k = none :=
    fun h => (field?_noted (.record id) k).symm.trans h
  have hset : ∀ {u : Space} {d j l v}, s.Sets u d j (some ⟨l, v⟩) →
      (u.contents (.record id)).field? k ≠ none := by
    intro u d j l v hset hu
    rw [hset.field?] at hu
    split at hu
    · cases hu
    · rw [hheld] at hu
      cases hu
  cases h with
  | still =>
    rw [hk] at hn
    cases hn
  | put hp => exact absurd (hnoted hn) (hset hp)
  | deeper _ _ hp => exact absurd (hnoted hn) (hset hp)
  | @drop u j f' hf hp =>
    have hu := hnoted hn
    rw [hp.field?] at hu
    by_cases hj : k = j
    · subst hj
      obtain rfl := Option.some.inj (hf.symm.trans hk)
      rw [changes_noted, if_pos rfl]
    · rw [if_neg fun h => hj h.2, hheld] at hu
      cases hu

theorem Alters.unnoted (h : s.Alters id t) (hid : id.number < s.nextRecord) (hs : s.Gone k)
    (ht : t.Gone k) : (t.record id).changes.get? k = (s.record id).changes.get? k := by
  have held : ∀ {v : Space} {g : Holder} {j f}, v.Gone k → (v.contents g).field? j = some f →
      k ≠ j := fun hv hf => (hv.ne ((Container.holds_iff _ _).mpr ⟨_, hf⟩)).symm
  cases h with
  | still => rfl
  | @put u j l v hp =>
    have hj : ((u.noted id j l v).contents (.record id)).field? j = some ⟨l, v⟩ := by
      rw [field?_noted, hp.field?, if_pos ⟨rfl, rfl⟩]
    rw [changes_noted, if_neg (held ht hj), hp.changes hid]
  | @drop u j f hf hp =>
    have hj : (s.contents (.record id)).field? j = some f := hf
    rw [changes_noted, if_neg (held hs hj), hp.changes hid]
  | deeper _ hk hp => rw [changes_noted, if_neg (hs.ne hk).symm, hp.changes hid]

end Altering

/-- The key is gone, and what the changes of the record tell of it is `x`. -/
structure Past (s : Space) (id : RecordId) (k : Key) (x : Option Field) : Prop where
  gone : s.Gone k
  noted : (s.record id).changes.get? k = x

/-- The record stays ready. Its changes go on to tell what they told, and they tell nothing more of
keys that are gone. -/
structure Progress (s : Space) (id : RecordId) (t : Space) : Prop where
  ready : t.Ready id
  tracked : ∀ {r : Record}, r.Tracked (s.record id) → r.Tracked (t.record id)
  past : ∀ {k x}, s.Past id k x → t.Past id k x

/-- Where the record is ready, it makes progress. -/
def Progresses (id : RecordId) (s t : Space) : Prop := s.Ready id → s.Progress id t

instance : IsPreorder Space (Progresses id) where
  refl _ hs := ⟨hs, fun h => h, fun h => h⟩
  trans _ _ _ h h' hs := by
    have hst := h hs
    have htu := h' hst.ready
    exact ⟨htu.ready, htu.tracked ∘ hst.tracked, htu.past ∘ hst.past⟩

section Writing

variable {op : RecordOp} (ho : op.Writes fun v => v.isCell = false)
include ho

theorem Ready.notes (hs : s.Ready id) :
    s.Notes (fun v => v.isCell = false) id (final (op.run id) s) :=
  (RecordOp.logs (P := fun v => v.isCell = false) rfl (fun _ hw => hw) ho s
    hs.layered.wellKept hs.cellless).2

theorem Ready.progress (hs : s.Ready id) (hsingle : op.IsSingle s id) :
    s.Progress id (final (op.run id) s) where
  ready := {
    layered := closed_layered.recordOp id op s hs.layered
    made := (hs.notes ho).nextRecord ▸ hs.made
    cellless := Record.holds_of_noted (hs.notes ho).noted hs.cellless }
  tracked := Record.tracked_of_noted (hs.notes ho).noted
  past {k x} hk := by
    have hgone := (closed_renews.recordOp id op s hs.layered.wellKept).2.gone hk.gone
    have hsame := (hs.layered.alters hsingle).unnoted hs.made hk.gone hgone
    exact ⟨hgone, hsame.trans hk.noted⟩

theorem recordOp_progresses : Moves (Progresses id) (op.run id) := by
  cases op with
  | writeAll entries =>
    refine moves_forM _ fun e he s hs => ?_
    have hwrite : (RecordOp.write (.label e.1) e.2).Writes fun v => v.isCell = false := ho e he
    exact hs.progress hwrite ((hwrite.isSingle_or hs.cellless).resolve_right (by simp))
  | _ => exact fun s hs => hs.progress ho ((ho.isSingle_or hs.cellless).resolve_right (by simp))

theorem Ready.lost (hs : s.Ready id) (hk : (s.record id).fields.field? k = some f)
    (hn : ((final (op.run id) s).record id).fields.field? k = none) :
    ((final (op.run id) s).record id).changes.get? k = some ⟨f.label, .empty⟩ := by
  rcases ho.isSingle_or hs.cellless with hsingle | ⟨entries, rfl⟩
  · exact (hs.layered.alters hsingle).lost hk hn
  · have hx : Extends s (final ((RecordOp.writeAll entries).run id) s) :=
      moves_forM (R := Extends) _ (fun e _ => (id.write_extends _ e.2).discard) s
    obtain ⟨g, hg, -⟩ := (hx hs.layered.wellKept).2.field? hs.layered.wellKept
      (g := .record id) hk
    exact absurd (hg.symm.trans hn) (Option.some_ne_none g)

end Writing

variable {x : Option Field} {op : Operation}

theorem within_cases (ho : op.Within id) (s : Space) :
    (∃ w : RecordOp, op = .record id w ∧ w.Writes fun v => v.isCell = false) ∨
      (final op.run s).record id = s.record id := by
  cases op with
  | record j w =>
    obtain ⟨rfl, hw⟩ := ho
    exact .inl ⟨w, rfl, hw⟩
  | _ => exact .inr (Operation.sameRecords (by exact ho) s id)

theorem Past.of_record (h : s.Past id k x) (hm : s.Mints t) (hr : t.record id = s.record id) :
    t.Past id k x :=
  ⟨hm.gone h.gone, hr ▸ h.noted⟩

theorem operation_progresses (ho : op.Within id) : Moves (Progresses id) op.run := by
  intro s hs
  rcases within_cases ho s with ⟨w, rfl, hw⟩ | hr
  · exact recordOp_progresses hw s hs
  · have hm := (closed_renews.operation op s hs.layered.wellKept).2
    have hready : (final op.run s).Ready id := {
      layered := closed_layered.operation op s hs.layered
      made := Nat.lt_of_lt_of_le hs.made (closed_grows.operation op s).nextRecord
      cellless := hr ▸ hs.cellless }
    exact ⟨hready, fun h => hr ▸ h, fun hk => hk.of_record hm hr⟩

/-- What the record loses is gone, and noted to be empty. -/
theorem Ready.past (hs : s.Ready id) (ho : op.Within id)
    (hk : (s.record id).fields.field? k = some f)
    (hn : ((final op.run s).record id).fields.field? k = none) :
    (final op.run s).Past id k (some ⟨f.label, .empty⟩) := by
  have hm := (closed_renews.operation op s hs.layered.wellKept).2
  rcases within_cases ho s with ⟨w, rfl, hw⟩ | hr
  · exact ⟨hs.layered.gone_of_field hm hk hn, hs.lost hw hk hn⟩
  · rw [hr, hk] at hn
    cases hn

section Runs

variable {before ops first rest : List Operation}

theorem after_concat (ops : List Operation) (op : Operation) :
    after (ops ++ [op]) = final op.run (after ops) := by
  rw [after, List.foldl_append]
  rfl

theorem after_keeps {R : Space → Space → Prop} [IsPreorder Space R]
    (h : ∀ op ∈ rest, Moves R op.run) : R (after first) (after (first ++ rest)) := by
  induction rest generalizing first with
  | nil =>
    rw [List.append_nil]
    exact refl_of R (after first)
  | cons op rest ih =>
    rw [List.forall_mem_cons] at h
    have hnext : R (after (first ++ [op])) (after (first ++ [op] ++ rest)) := ih h.2
    rw [after_concat, List.append_assoc, List.singleton_append] at hnext
    exact trans_of R (h.1 (after first)) hnext

/-- What the record has at some time and not in the end, it has for a last time. -/
theorem exists_heldLast (hk : ((after first).record id).fields.field? k = some f)
    (hn : ((after (first ++ rest)).record id).fields.field? k = none) :
    ∃ g more lost, rest = more ++ lost ∧ HeldLast id k g (first ++ more) lost := by
  induction rest using List.reverseRecOn with
  | nil =>
    rw [List.append_nil, hk] at hn
    cases hn
  | append_singleton rest op ih =>
    cases hr : ((after (first ++ rest)).record id).fields.field? k with
    | some g =>
      refine ⟨g, rest, [op], rfl, hr, fun more hne hmore => ?_⟩
      have hlen : [op].length ≤ more.length := List.length_pos_iff.mpr hne
      rw [hmore.eq_of_length_le hlen, List.append_assoc]
      exact hn
    | none =>
      obtain ⟨g, more, lost, rfl, hheld, hlost⟩ := ih hr
      refine ⟨g, more, lost ++ [op], (List.append_assoc ..), hheld, fun m hne hm => ?_⟩
      rcases List.prefix_concat_iff.mp hm with rfl | hm
      · simpa only [List.append_assoc] using hn
      · exact hlost m hne hm

theorem run_progresses (ho : ∀ op ∈ rest, op.Within id) :
    Progresses id (after first) (after (first ++ rest)) :=
  after_keeps fun op hop => operation_progresses (ho op hop)

namespace HeldLast

theorem past_none (h : HeldLast id k f first (before ++ ops)) (hb : before ≠ [])
    (hs : (after (first ++ before)).Ready id)
    (he : ((after (first ++ before)).record id).changes = ∅) (ho : ∀ op ∈ ops, op.Within id) :
    (after (first ++ before ++ ops)).Past id k none := by
  have hlayered := (Reachable.after first).layered
  have hrenews : Renews (after first) (after (first ++ before)) :=
    after_keeps fun op _ => closed_renews.operation op
  have hgone := hlayered.gone_of_field (hrenews hlayered.wellKept).2 h.held
    (h.lost before hb (List.prefix_append ..))
  exact (run_progresses ho hs).past ⟨hgone, he ▸ rfl⟩

/-- What is lost is noted to be empty, and is not noted over. -/
theorem past (h : HeldLast id k f first ops) (hne : ops ≠ []) (hs : (after first).Ready id)
    (ho : ∀ op ∈ ops, op.Within id) :
    (after (first ++ ops)).Past id k (some ⟨f.label, .empty⟩) := by
  obtain ⟨op, rest, rfl⟩ := List.exists_cons_of_ne_nil hne
  rw [List.forall_mem_cons] at ho
  have hlost := h.lost [op] (List.cons_ne_nil op []) ⟨rest, rfl⟩
  rw [after_concat] at hlost
  have hpast := hs.past ho.1 h.held hlost
  have hready := (operation_progresses ho.1 (after first) hs).ready
  rw [← after_concat] at hpast hready
  have hend := (run_progresses ho.2 hready).past hpast
  rwa [List.append_assoc, List.singleton_append] at hend

end HeldLast

/-- Let a record without cells have no changes, as when they have just been taken, and go through
operations that write no cells to it, whichever of them fault, while containers are made and changed
by their own handles too. A field that it has in the end is noted as it is, or it is not noted and
is as it was. A key that it had a field under at any time, and has none under in the end, is noted
to be empty, with the label of the last such field, unless it was lost before: then it is not
noted. -/
theorem changes_tell_difference (hid : id.number < (after before).nextRecord)
    (hc : ((after before).record id).Holds fun v => v.isCell = false)
    (he : ((after before).record id).changes = ∅) (ho : ∀ op ∈ ops, op.Within id) :
    (∀ k f, ((after (before ++ ops)).record id).fields.field? k = some f →
        ((after (before ++ ops)).record id).changes.get? k = some f ∨
          ((after (before ++ ops)).record id).changes.get? k = none ∧
            ((after before).record id).fields.field? k = some f) ∧
      ∀ k f first rest, first ++ rest = before ++ ops →
        ((after first).record id).fields.field? k = some f →
        ((after (before ++ ops)).record id).fields.field? k = none →
        ∃ g last lost, last ++ lost = before ++ ops ∧ HeldLast id k g last lost ∧
          ((after (before ++ ops)).record id).changes.get? k =
            if last.length < before.length then none else some ⟨g.label, .empty⟩ := by
  have hready : (after before).Ready id := ⟨(Reachable.after before).layered, hid, hc⟩
  constructor
  · intro k f hf
    have htracked := (run_progresses ho hready).tracked (Record.tracked_self he)
    cases hk : ((after (before ++ ops)).record id).changes.get? k with
    | some g => exact .inl (congrArg some (htracked.current k g f hk hf))
    | none => exact .inr ⟨rfl, (htracked.untouched k hk).symm.trans hf⟩
  · intro k f first rest hsplit hk hn
    have hlost : ((after (first ++ rest)).record id).fields.field? k = none := hsplit ▸ hn
    obtain ⟨g, more, lost, rfl, hlast⟩ := exists_heldLast hk hlost
    rw [← List.append_assoc] at hsplit
    generalize hlast' : first ++ more = last at hsplit hlast
    refine ⟨g, last, lost, hsplit, hlast, ?_⟩
    by_cases hlen : last.length < before.length
    · obtain ⟨tail, rfl⟩ : last <+: before :=
        List.prefix_of_prefix_length_le ⟨lost, hsplit⟩ (List.prefix_append ..) (Nat.le_of_lt hlen)
      rw [List.append_assoc, List.append_cancel_left_eq] at hsplit
      subst hsplit
      rw [if_pos hlen]
      exact (hlast.past_none (by rintro rfl; simp at hlen) hready he ho).noted
    · obtain ⟨tail, rfl⟩ : before <+: last :=
        List.prefix_of_prefix_length_le (List.prefix_append ..) ⟨lost, hsplit⟩
          (Nat.le_of_not_lt hlen)
      rw [List.append_assoc, List.append_cancel_left_eq] at hsplit
      subst hsplit
      rw [if_neg hlen, ← List.append_assoc]
      have hne : lost ≠ [] := by
        rintro rfl
        rw [List.append_nil, hlast.held] at hn
        cases hn
      have hbetween : (after (before ++ tail)).Ready id :=
        (run_progresses (fun op hop => ho op (List.mem_append_left _ hop)) hready).ready
      exact (hlast.past hne hbetween fun op hop => ho op (List.mem_append_right _ hop)).noted

end Runs

/-- The first record has three fields, the last of which holds a container. -/
def threeFields : List Operation :=
  [.newContainer, .container ⟨1⟩ (.add (.name "x") (.int 1)), .newRecord none 4,
    .record ⟨1⟩ (.add (.name "a") (.int 1)), .record ⟨1⟩ (.add (.name "b") (.int 2)),
    .record ⟨1⟩ (.add (.name "c") (.tree ⟨1⟩)), .record ⟨1⟩ .takeChanges]

/-- The second field is given another label and then taken out, which cannot be done again. Before
that a field of the container is written by way of the record, and later another one takes the
label. -/
def relabelledLast : List Operation :=
  [.record ⟨1⟩ (.write (.key ⟨1⟩) (.int 5)), .record ⟨1⟩ (.relabel ⟨3⟩ (.name "d")),
    .record ⟨1⟩ (.remove ⟨3⟩), .record ⟨1⟩ (.remove ⟨3⟩),
    .container ⟨1⟩ (.add (.name "y") .empty), .record ⟨1⟩ (.add (.name "d") (.int 3))]

theorem threeFields_holds : ((after threeFields).record ⟨1⟩).Holds fun v => v.isCell = false := by
  intro k f hk
  have hall : ∀ e ∈ ((after threeFields).record ⟨1⟩).fields.entries, e.2.value.isCell = false := by
    decide
  have hkept := (Reachable.after threeFields).wellKept.contents (.record ⟨1⟩)
  exact hall (k, f) (hkept.mem_entries_iff.mpr hk)

theorem relabelledLast_within : ∀ op ∈ relabelledLast, op.Within ⟨1⟩ := by
  simp [relabelledLast, Operation.Within, Operation.SparesRecords, RecordOp.Writes, Value.isCell]

theorem changes_tell_difference_relabelledLast :
    ((after (threeFields ++ relabelledLast)).record ⟨1⟩).changes.get? ⟨6⟩ =
        some ⟨.name "d", .int 3⟩ ∧
      ∃ g last lost, last ++ lost = threeFields ++ relabelledLast ∧
        HeldLast ⟨1⟩ ⟨3⟩ g last lost ∧ threeFields.length ≤ last.length ∧ g.label = .name "d" := by
  have htell := changes_tell_difference (by decide) threeFields_holds rfl relabelledLast_within
  constructor
  · refine (htell.1 ⟨6⟩ ⟨.name "d", .int 3⟩ (by decide)).resolve_right fun h => ?_
    exact absurd h.2 (by decide)
  · obtain ⟨g, last, lost, hsplit, hlast, hnoted⟩ :=
      htell.2 ⟨3⟩ ⟨.name "b", .int 2⟩ threeFields relabelledLast rfl (by decide) (by decide)
    refine ⟨g, last, lost, hsplit, hlast, ?_⟩
    have htold : ((after (threeFields ++ relabelledLast)).record ⟨1⟩).changes.get? ⟨3⟩ =
        some ⟨.name "d", .empty⟩ := by decide
    rw [htold] at hnoted
    split at hnoted
    · cases hnoted
    · rename_i hlen
      exact ⟨Nat.le_of_not_lt hlen, (Field.mk.inj (Option.some.inj hnoted)).1.symm⟩

end Space

end LiveRecords
