import LiveRecords.Proofs.Container.Mirror
import LiveRecords.Proofs.Evaluation.Cells

/-! # Writes that stay in one record

An assignment gets from one record to another through references only. Where the reactions of a
derived field output to fields without cells, to assign the derived field is to change fields of its
own record and of no other holder, whether the reactions succeed or not.
-/

namespace LiveRecords

theorem Derived.nodup_reacting {d : Derived} (h : (d.reactions.map (·.1)).Nodup) (output : Label)
    (f : Formula) : ((d.reacting output f).reactions.map (·.1)).Nodup := by
  unfold Derived.reacting
  split
  · have hsame : (d.reactions.map fun r => if r.1 = output then (output, f) else r).map (·.1) =
        d.reactions.map (·.1) := by
      rw [List.map_map]
      refine List.map_congr_left fun r _ => ?_
      by_cases hr : r.1 = output <;> simp [hr]
    rwa [hsame]
  · rename_i hnone
    have hnew : ∀ r ∈ d.reactions, r.1 ≠ output := fun r hr he =>
      hnone (List.any_eq_true.mpr ⟨r, hr, decide_eq_true he⟩)
    rw [List.map_append, List.nodup_append]
    refine ⟨h, List.nodup_singleton _, fun a ha b hb => ?_⟩
    obtain ⟨r, hr, rfl⟩ := List.mem_map.mp ha
    obtain rfl := List.mem_singleton.mp hb
    exact hnew r hr

namespace Space

/-- What the record holds under this label is no cell. -/
def PlainAt (s : Space) (id : RecordId) (l : Label) : Prop :=
  l ≠ .empty → ∀ k w, (s.record id).fields.field? k = some ⟨l, w⟩ → w.isCell = false

/-- From `s` to `t` no holder changes but the record, and of the labels `ls` none comes to lead to a
cell. -/
structure Confined (id : RecordId) (ls : List Label) (s t : Space) : Prop where
  spares : Spares (.record id) s t
  wellKept : s.WellKept → t.WellKept
  plain : s.WellKept → ∀ l ∈ ls, s.PlainAt id l → t.PlainAt id l

variable {s t : Space} {id j : RecordId} {ls : List Label} {k : Key} {f : Field} {l m : Label}
  {v : Value}

theorem PlainAt.isCell_eq_false (h : s.PlainAt id l) (hs : s.WellKept)
    (hk : s.slot? id (.label l) = some (k, f)) : f.value.isCell = false := by
  obtain ⟨hr, hf⟩ := (Container.slot?_eq_some ..).mp hk
  obtain ⟨hl, w, hw⟩ := ((hs.contents (.record id)).key?_iff l k).mp hr
  obtain rfl : f = ⟨l, w⟩ := Option.some.inj (hf.symm.trans hw)
  exact h hl k w hw

instance : IsPreorder Space (Confined id ls) where
  refl s := ⟨refl_of (Spares (.record id)) s, fun hs => hs, fun _ _ _ hp => hp⟩
  trans _ _ _ h h' := ⟨trans_of (Spares (.record id)) h.spares h'.spares,
    fun hs => h'.wellKept (h.wellKept hs),
    fun hs l hl hp => h'.plain (h.wellKept hs) l hl (h.plain hs l hl hp)⟩

theorem Confined.tail (h : Confined id (l :: ls) s t) : Confined id ls s t :=
  ⟨h.spares, h.wellKept, fun hs m hm => h.plain hs m (List.mem_cons_of_mem l hm)⟩

theorem spares_setRecord {g : Holder} {r : Record} (hr : r.fields = (s.record j).fields) :
    Spares g s (s.setRecord j r) := fun h _ => contents_setRecord_of_fields hr h

theorem confined_setRecord {r : Record} (hr : r.fields = (s.record j).fields) :
    Confined id ls s (s.setRecord j r) where
  spares := spares_setRecord hr
  wellKept hs := hs.setRecord_of_fields hr
  plain _ l _ hp := by
    have hsame : ((s.setRecord j r).record id).fields = (s.record id).fields :=
      contents_setRecord_of_fields hr (.record id)
    rwa [PlainAt, hsame]

theorem evalClosed_confined (id : RecordId) (ls : List Label) :
    Eval.Closed (OnSpace (Confined id ls)) :=
  Eval.closed_of_marks fun _ _ _ _ => confined_setRecord rfl

theorem note_confined (id : RecordId) (ls : List Label) (j : RecordId) (k : Key) (l : Label)
    (v : Value) : Moves (OnSpace (Confined id ls)) (Eval.edit (Edit.note j k l v)) :=
  Moves.edit fun _ => confined_setRecord rfl

theorem evalClosed_spares (g : Holder) : Eval.Closed (OnSpace (Spares g)) :=
  Eval.closed_of_marks fun _ _ _ _ => spares_setRecord rfl

theorem note_spares (g : Holder) (j : RecordId) (k : Key) (l : Label) (v : Value) :
    Moves (OnSpace (Spares g)) (Eval.edit (Edit.note j k l v)) :=
  Moves.edit fun _ => spares_setRecord rfl

theorem store_spares (id : RecordId) (k : Key) (v : Value) :
    Moves (OnSpace (Spares (.record id))) (Eval.store id k v) := fun σ =>
  (mirrors_replace (σ.space.surroundings (.record id)) _ k v).spares.discard.edit σ

/-- A field without a label among `ls` may be assigned anything. -/
theorem assignLabel_confined (hm : m ∉ ls) (v : Value) :
    Moves (Confined id ls) ((Holder.record id).assign (.label m) v) := fun s =>
  { spares := (mirrors_assignLabel (s.surroundings (.record id)) _ m v).spares s
    wellKept := holderClosed_wellKept.assign _ _ v s
    plain := by
      intro hs l hl hp hne k w hk
      cases hj : (s.record id).fields.key? m with
      | none =>
        rw [final_of_ok (Holder.assign_run_new v hj), field?_appended] at hk
        split at hk
        · cases hk
          exact absurd hl hm
        · exact hp hne k w hk
      | some j =>
        obtain ⟨x, hslot⟩ := hs.slot?_of_key? hj
        rw [final_of_ok (Holder.assign_run v hslot), field?_assigned] at hk
        split at hk
        · cases hk
          exact absurd hl hm
        · exact hp hne k w hk }

theorem PlainAt.assigned (h : s.PlainAt id l) (hv : v.isCell = false) (k : Key) (f : Field) :
    (s.assigned id k f v).PlainAt id l := by
  intro hl q w hq
  rw [field?_assigned] at hq
  split at hq
  · cases hq
    exact hv
  · exact h hl q w hq

end Space

open Space

section Writes

variable {limit room : Nat} {σ : Session} {id : RecordId} {p : Place} {v : Value} {k : Key}
  {l : Label} {i : DerivedId} {ls : List Label}

theorem writeLabel_confined (hs : σ.space.WellKept) (hp : σ.space.PlainAt id l) (hl : l ∉ ls) :
    Confined id ls σ.space (final (writeWithin limit room id (.label l) v) σ).space := by
  have hplain : writeWithin limit room id (.label l) v σ = Eval.writePlain id (.label l) v σ :=
    writeWithin_of_plain fun k m c hk => by
      cases hp.isCell_eq_false hs hk
  rw [final, hplain]
  exact Eval.leads_writePlain (R := OnSpace (Confined id ls))
    ((assignLabel_confined hl v).edit σ) fun k m => note_confined id ls id k m v

theorem reactOnce_confined {f : Formula} (hs : σ.space.WellKept) (hp : σ.space.PlainAt id l)
    (hl : l ∉ ls) :
    Confined id ls σ.space (final (Derived.reactOnce (readWithin limit room)
      (writeWithin limit room) id l f) σ).space := by
  have hclosed := evalClosed_confined id (l :: ls)
  have heval : Confined id (l :: ls) σ.space (final (f.eval (readWithin limit room) id) σ).space :=
    f.eval_moves hclosed (readWithin_moves hclosed limit room) id σ
  rw [Derived.reactOnce, final_bind]
  cases hf : f.eval (readWithin limit room) id σ with
  | error e τ => exact final_of_error hf ▸ heval.tail
  | ok w τ =>
    rw [final_of_ok hf] at heval
    dsimp only
    rw [final_discard]
    exact trans_of (Confined id ls) heval.tail
      (writeLabel_confined (heval.wellKept hs) (heval.plain hs l List.mem_cons_self hp) hl)

/-- Reactions with different outputs, none of which leads to a cell, change the one record only. A
reaction may put a cell under its own output, but none of those to come outputs there. -/
theorem react_spares {d : Derived} {reactions : List (Label × Formula)} (hs : σ.space.WellKept)
    (hn : (reactions.map (·.1)).Nodup) (hp : ∀ r ∈ reactions, σ.space.PlainAt id r.1) :
    Spares (.record id) σ.space (final ({ d with reactions }.react (readWithin limit room)
      (writeWithin limit room) id) σ).space := by
  induction reactions generalizing σ with
  | nil => exact refl_of (Spares (.record id)) σ.space
  | cons r rest ih =>
    obtain ⟨output, f⟩ := r
    rw [List.map_cons, List.nodup_cons] at hn
    rw [List.forall_mem_cons] at hp
    have honce : Confined id (rest.map (·.1)) σ.space (final (Derived.reactOnce
        (readWithin limit room) (writeWithin limit room) id output f) σ).space :=
      reactOnce_confined hs hp.1 hn.1
    rw [Derived.react_cons, final_bind]
    cases hr : Derived.reactOnce (readWithin limit room) (writeWithin limit room) id output f
        σ with
    | error e τ => exact final_of_error hr ▸ honce.spares
    | ok _ τ =>
      rw [final_of_ok hr] at honce
      exact trans_of (Spares (.record id)) honce.spares (ih (honce.wellKept hs) hn.2 fun r hr =>
        honce.plain hs r.1 (List.mem_map_of_mem hr) (hp.2 r hr))

theorem assignDerived_spares (hs : σ.space.WellKept)
    (hk : (σ.space.record id).fields.field? k = some ⟨l, .cell (.derived i)⟩)
    (hv : v.isCell = false) (hn : ((σ.space.derivation i).reactions.map (·.1)).Nodup)
    (hp : ∀ r ∈ (σ.space.derivation i).reactions, σ.space.PlainAt id r.1) :
    Spares (.record id) σ.space (final (Cell.assign (readWithin limit room)
      (writeWithin limit room) id k v (.derived i)) σ).space := by
  let ρ : Session := { σ with space := σ.space.assigned id k ⟨l, .cell (.derived i)⟩ v }
  have hstore : Eval.store id k v σ = .ok () ρ := Eval.store_run hk v
  have hstored : Spares (.record id) σ.space ρ.space := spares_setContents σ.space _ _
  have hρ : ρ.space.WellKept := by
    have := (Space.closedForWrites_extends.store id k v σ hs).1
    rwa [final_of_ok hstore] at this
  have hreact : Spares (.record id) ρ.space (final ((σ.space.derivation i).react
      (readWithin limit room) (writeWithin limit room) id) ρ).space :=
    react_spares hρ hn fun r hr => (hp r hr).assigned hv k _
  rw [Cell.assign, final_bind, Eval.space_run]
  dsimp only
  rw [final_bind, hstore]
  dsimp only
  rw [final_followedBy]
  exact trans_of (Spares (.record id)) hstored
    (trans_of (Spares (.record id)) hreact (store_spares id k _ _))

theorem writeWithin_spares (hs : σ.space.WellKept)
    (hk : σ.space.slot? id p = some (k, ⟨l, .cell (.derived i)⟩))
    (hn : ((σ.space.derivation i).reactions.map (·.1)).Nodup)
    (hp : ∀ r ∈ (σ.space.derivation i).reactions, σ.space.PlainAt id r.1) :
    Spares (.record id) σ.space (final (writeWithin limit room id p v) σ).space := by
  have hnote : ∀ k l v, Moves (OnSpace (Spares (.record id))) (Eval.edit (Edit.note id k l v)) :=
    note_spares (.record id) id
  rcases through_or_plain σ.space id p v with ⟨k', l', c, hk', hv⟩ | hv
  · rw [hk] at hk'
    cases hk'
    cases room with
    | zero =>
      rw [final, writeWithin, writeBy_through hk hv]
      exact refl_of (Spares (.record id)) σ.space
    | succ room =>
      rw [final, writeWithin, writeBy_through hk hv]
      refine leads_bind (R := OnSpace (Spares (.record id))) ?_ fun _ =>
        Eval.noteEffective_moves (readWithin_moves (evalClosed_spares _) limit _) (hnote k l)
      exact space_final_guarded (P := Spares (.record id) σ.space) l (refl_of (Spares _) σ.space)
        fun _ => assignDerived_spares (σ := { σ with flight := (id, k) :: σ.flight }) hs
          ((Container.slot?_eq_some ..).mp hk).2 hv hn hp
  · rw [final, writeWithin_of_plain hv]
    refine Eval.leads_writePlain (R := OnSpace (Spares (.record id))) ?_ fun k m => hnote k m v
    rw [OnSpace, Eval.final_edit, final_of_ok (Holder.assign_run v hk)]
    exact spares_setContents σ.space _ _

end Writes

/-- Whatever is written to a derived field, whether it succeeds or not: if the reactions have
different outputs and none of these leads to a cell, then no fields change but those of the
record. -/
theorem RecordId.write_spares {s : Space} {id : RecordId} {p : Place} {k : Key} {l : Label}
    {i : DerivedId} (hs : s.WellKept) (hk : s.slot? id p = some (k, ⟨l, .cell (.derived i)⟩))
    (hn : ((s.derivation i).reactions.map (·.1)).Nodup)
    (hp : ∀ r ∈ (s.derivation i).reactions, s.PlainAt id r.1) (v : Value) :
    Spares (.record id) s (final (id.write p v) s) := by
  have hwrite : final (id.write p v) s =
      final (Eval.run (writeWithin (s.record id).maxDepth (s.record id).maxDepth id p v)) s := rfl
  rw [hwrite, final_run]
  exact writeWithin_spares (σ := { space := s }) hs hk hn hp

end LiveRecords
