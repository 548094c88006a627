import LiveRecords.Proofs.Evaluation.Cells
import LiveRecords.Proofs.Packets.Batches
import LiveRecords.Proofs.Record.Copies

/-! # What has nothing in common stays apart

What a record comprises is changed through the record itself or through the containers in it. As
long as nothing of one record is put into the other one, changes to the one are not seen by the
other one. So it is with a record and its copy, unless lists or sets have containers in them: these
are the same in the copy.
-/

namespace LiveRecords

/-- The containers of the value are among the holders `G`. -/
def Value.Among (G : Holder → Prop) (v : Value) : Prop :=
  ∀ i, v.Contains i → G (.shared i)

theorem Value.among_cell (G : Holder → Prop) (c : Cell) : (Value.cell c).Among G :=
  fun _ hi => by cases hi

theorem Value.among_empty (G : Holder → Prop) : Value.empty.Among G :=
  fun _ hi => by cases hi

namespace Space

/-- From `t` to `s` nothing of the record `b` has changed, and the holders `G` have nothing of
it. -/
structure Aside (t : Space) (b : RecordId) (G : Holder → Prop) (s : Space) : Prop where
  wellKept : s.WellKept
  grows : t.Grows s
  made : ∀ {h}, t.Comprises (.record b) h → t.Made h
  kept : ∀ {h}, t.Comprises (.record b) h → s.contents h = t.contents h
  clear : ∀ {g h}, G g → s.Comprises g h → s.Made h ∧ ¬ t.Comprises (.record b) h

/-- Since `t` the record `b` has not been aware of `a`. -/
abbrev Unaware (t : Space) (a b : RecordId) : Space → Prop := t.Aside b (· = .record a)

variable {s t u : Space} {a b : RecordId} {G G' : Holder → Prop} {d g h : Holder} {v : Value}

theorem Free.inside (hg : s.Free b g) (h : s.Comprises g d) : s.Free b d :=
  fun e hd => hg e (h.trans hd)

namespace Aside

theorem comprises_iff (h : t.Aside b G s) :
    s.Comprises (.record b) g ↔ t.Comprises (.record b) g :=
  comprises_congr fun _ => h.kept

theorem free (h : t.Aside b G s) (hg : G g) : s.Free b g := fun _ hc =>
  (h.clear hg hc).imp_right fun hn hb => hn (h.comprises_iff.mp hb)

theorem beside (h : t.Aside b G s) (hG : ∀ {g}, G' g → s.Free b g) : t.Aside b G' s :=
  { h with
    clear := fun hg hc => (hG hg _ hc).imp_right fun hn hb => hn (h.comprises_iff.mpr hb) }

theorem mono (h : t.Aside b G s) (hG : ∀ {g}, G' g → G g) : t.Aside b G' s :=
  { h with clear := fun hg => h.clear (hG hg) }

/-- A holder that is not of `b` takes in values that have nothing of `b`. -/
theorem takes (h : t.Aside b G s) (hw : u.WellKept) (hg : s.Grows u)
    (hu : Takes d (Value.Among G) s u) (hd : ¬ t.Comprises (.record b) d) : t.Aside b G u where
  wellKept := hw
  grows := trans_of Grows h.grows hg
  made := h.made
  kept {e} he := (hu.spares e fun hed => hd (hed ▸ he)).trans (h.kept he)
  clear {g e} hG he := by
    have hs : s.Made e ∧ ¬ t.Comprises (.record b) e := by
      rcases hu.comprises he with hc | ⟨v, i, hv, hi, hc⟩
      · exact h.clear hG hc
      · exact h.clear (hv i hi) hc
    exact ⟨hg.made hs.1, hs.2⟩

theorem congr (h : t.Aside b G s) (hw : u.WellKept) (hg : s.Grows u)
    (hc : ∀ h, u.contents h = s.contents h) : t.Aside b G u where
  wellKept := hw
  grows := trans_of Grows h.grows hg
  made := h.made
  kept he := (hc _).trans (h.kept he)
  clear hG he := by
    obtain ⟨hs, hn⟩ := h.clear hG ((comprises_congr fun e _ => hc e).mp he)
    exact ⟨hg.made hs, hn⟩

theorem preserves (h : t.Aside b G s) (hw : u.WellKept) (hu : s.Preserves u) : t.Aside b G u where
  wellKept := hw
  grows := trans_of Grows h.grows hu.toGrows
  made := h.made
  kept he := (hu.contents (h.grows.made (h.made he))).trans (h.kept he)
  clear hG he := by
    obtain ⟨hs, hn⟩ := h.clear hG
      (he.of_contents fun e he => .inl (hu.contents (h.clear hG he).1))
    exact ⟨hu.made hs, hn⟩

theorem moves {α : Type} {m : Edit α} (hw : Moves (Keeps WellKept) m) (hg : Moves Grows m)
    (hm : Moves (Takes d (Value.Among G)) m) (hd : ¬ t.Comprises (.record b) d) :
    Moves (Keeps (t.Aside b G)) m := fun s h =>
  h.takes (hw s h.wellKept) (hg s) (hm s) hd

theorem moves_of_clear {α : Type} {m : Edit α} (hG : G d)
    (hm : ¬ t.Comprises (.record b) d → Moves (Keeps (t.Aside b G)) m) :
    Moves (Keeps (t.Aside b G)) m := fun s h =>
  hm (h.clear hG .here).2 s h

theorem note (id : RecordId) (k : Key) (l : Label) (v : Value) :
    Moves (Keeps (t.Aside b G)) (Edit.note id k l v) := fun s h =>
  h.congr (closed_wellKept.note id k l v s h.wellKept) (closed_grows.note id k l v s)
    (contents_note s id k l v)

theorem evalClosed (t : Space) (b : RecordId) (G : Holder → Prop) :
    Eval.Closed (OnSpace (Keeps (t.Aside b G))) :=
  Eval.closed_of_marks fun _ _ _ _ h =>
    h.congr (h.wellKept.setRecord_of_fields rfl) (grows_of_eq rfl rfl rfl)
      (contents_setRecord_of_fields rfl)

end Aside

end Space

open Space

section Holders

variable {t : Space} {b : RecordId} {G : Holder → Prop} {d : Holder} {v : Value}

namespace Holder

theorem add_aside (hd : ¬ t.Comprises (.record b) d) (l : Label) (hv : v.Among G) :
    Moves (Keeps (t.Aside b G)) (d.add l v) :=
  Aside.moves (holderClosed_wellKept.add d l v) (holderClosed_grows.add d l v)
    (add_takes hv d l) hd

theorem addBefore_aside (hd : ¬ t.Comprises (.record b) d) (next : Key) (l : Label)
    (hv : v.Among G) : Moves (Keeps (t.Aside b G)) (d.addBefore next l v) :=
  Aside.moves (holderClosed_wellKept.addBefore d next l v) (holderClosed_grows.addBefore d next l v)
    (addBefore_takes hv d next l) hd

theorem replace_aside (hd : ¬ t.Comprises (.record b) d) (k : Key) (hv : v.Among G) :
    Moves (Keeps (t.Aside b G)) (d.replace k v) :=
  Aside.moves (holderClosed_wellKept.replace d k v) (holderClosed_grows.replace d k v)
    (replaceWithin_takes hv d.opened d k) hd

theorem remove_aside (hd : ¬ t.Comprises (.record b) d) (k : Key) :
    Moves (Keeps (t.Aside b G)) (d.remove k) :=
  Aside.moves (holderClosed_wellKept.remove d k) (holderClosed_grows.remove d k)
    (remove_takes d k) hd

theorem relabel_aside (hd : ¬ t.Comprises (.record b) d) (k : Key) (l : Label) :
    Moves (Keeps (t.Aside b G)) (d.relabel k l) :=
  Aside.moves (holderClosed_wellKept.relabel d k l) (holderClosed_grows.relabel d k l)
    (relabel_takes d k l) hd

theorem assignLabel_aside (hd : ¬ t.Comprises (.record b) d) (l : Label) (hv : v.Among G) :
    Moves (Keeps (t.Aside b G)) (d.assign (.label l) v) := by
  refine (moves_of_final fun _ => rfl : Moves _ d.contents).bind fun c => ?_
  dsimp only
  split
  · exact (replace_aside hd _ hv).discard.bind fun _ => moves_pure _
  · exact add_aside hd l hv

theorem assignKey_aside (hG : G d) (k : Key) (hv : v.Among G) :
    Moves (Keeps (t.Aside b G)) (d.assign (.key k) v) := by
  intro s h
  cases hp : s.locate (s.contents d) k with
  | none => rwa [final_of_error (assign_key_of_locate hp v)]
  | some path =>
    have htarget := (leads_of_locate h.wellKept hp).1
    refine h.takes (d := d.target path) (holderClosed_wellKept.assign d (.key k) v s h.wellKept)
      (holderClosed_grows.assign d (.key k) v s) ?_ (h.clear hG (.of_leads htarget)).2
    have htakes :=
      replaceWithin_takes (P := Value.Among G) hv (d.opened ++ path) (d.target path) k s
    rwa [final, assign_key_eq hp, ← final, final_bind_pure _ fun _ => k, final_discard]

theorem assign_aside (hG : G d) (p : Place) (hv : v.Among G) :
    Moves (Keeps (t.Aside b G)) (d.assign p v) := by
  cases p with
  | label l => exact Aside.moves_of_clear hG fun hd => assignLabel_aside hd l hv
  | key k => exact assignKey_aside hG k hv

theorem clear_aside (hG : G d) (p : Place) : Moves (Keeps (t.Aside b G)) (d.clear p) := by
  cases p with
  | key k => exact assignKey_aside hG k (Value.among_empty G)
  | label l =>
    refine Aside.moves_of_clear hG fun hd => ?_
    refine (moves_of_final fun _ => rfl : Moves _ d.contents).bind fun c => ?_
    refine (moves_ofExcept _).bind fun k => ?_
    exact (replace_aside hd k (Value.among_empty G)).discard.bind fun _ => moves_pure _

end Holder

/-- The values that an operation puts into fields. -/
def ContainerOp.values : ContainerOp → List Value
  | add _ v => [v]
  | addBefore _ _ v => [v]
  | assign _ v => [v]
  | replace _ v => [v]
  | change _ _ v => [v]
  | assignAll fields _ => fields.map (·.2)
  | _ => []

theorem ContainerOp.aside (hG : G d) (op : ContainerOp) (hv : ∀ v ∈ op.values, v.Among G) :
    Moves (Keeps (t.Aside b G)) (op.run d) := by
  refine Aside.moves_of_clear hG fun hd => ?_
  cases op with
  | add l v => exact (Holder.add_aside hd l (hv v List.mem_cons_self)).discard
  | addBefore next l v => exact (Holder.addBefore_aside hd next l (hv v List.mem_cons_self)).discard
  | assign p v => exact (Holder.assign_aside hG p (hv v List.mem_cons_self)).discard
  | replace k v => exact (Holder.replace_aside hd k (hv v List.mem_cons_self)).discard
  | clear p => exact (Holder.clear_aside hG p).discard
  | remove k => exact (Holder.remove_aside hd k).discard
  | relabel k l => exact Holder.relabel_aside hd k l
  | change k l v =>
    exact (Holder.relabel_aside hd k l).bind fun _ =>
      (Holder.replace_aside hd k (hv v List.mem_cons_self)).discard
  | assignAll fields ignore =>
    refine moves_forM _ fun e he => ?_
    dsimp only
    split
    · exact moves_pure _
    · exact (Holder.assign_aside hG _ (hv e.2 (List.mem_map_of_mem he))).discard

end Holders

namespace Space

/-- The value has nothing of the record `b` in it. -/
def Harmless (s : Space) (b : RecordId) (v : Value) : Prop := v.Among (s.Free b)

/-- What may be changed next to `b` is what `a` comprises, and what has nothing of `b`. -/
def Changeable (s : Space) (a b : RecordId) (g : Holder) : Prop :=
  s.Comprises (.record a) g ∨ s.Free b g

/-- No assignment that is made in the course of this one is to a field of `b`, or of a value that
has something of `b` in it. -/
def AssignsBeside (s : Space) (b : RecordId) (x : Assignment) : Prop :=
  ∀ τ y, Performs (s.record x.id).maxDepth (s.record x.id).maxDepth { space := s } x τ y →
    y.id ≠ b ∧ τ.space.Harmless b y.value

end Space

/-- The operation changes what is of `a`, or else what has nothing of `b`, and puts nothing of `b`
anywhere. -/
def RecordOp.Beside (s : Space) (a b id : RecordId) : RecordOp → Prop
  | add _ v => s.Changeable a b (.record id) ∧ s.Harmless b v
  | addBefore _ _ v => s.Changeable a b (.record id) ∧ s.Harmless b v
  | write p v => s.Changeable a b (.record id) ∧ s.AssignsBeside b ⟨id, p, v⟩
  | writeAll entries => s.Changeable a b (.record id) ∧ ∀ {done l v rest t},
      entries = done ++ (l, v) :: rest → id.writeAll done s = .ok () t →
        t.AssignsBeside b ⟨id, .label l, v⟩
  | clear _ => s.Changeable a b (.record id)
  | remove _ => s.Changeable a b (.record id)
  | relabel _ _ => s.Changeable a b (.record id)
  | detach p => s.Changeable a b (.record id) ∧ ∀ {v t}, id.read p s = .ok v t → t.Harmless b v
  | _ => True

def Operation.Beside (s : Space) (a b : RecordId) : Operation → Prop
  | container i op => s.Changeable a b (.shared i) ∧ ∀ v ∈ op.values, s.Harmless b v
  | record id op => op.Beside s a b id
  | retain held => held b = true
  | _ => True

/-- Each operation is such where it comes. -/
def Space.RunsBeside (a b : RecordId) (s : Space) : List Operation → Prop
  | [] => True
  | op :: ops => op.Beside s a b ∧ RunsBeside a b (final op.run s) ops

section Records

variable {s t : Space} {a b j : RecordId} {G : Holder → Prop} {v : Value}

namespace Space.Aside

theorem changeable {g : Holder} (h : t.Unaware a b s) (hg : s.Changeable a b g) :
    s.Free b g :=
  hg.elim (fun hc => (h.free rfl).inside hc) fun hf => hf

theorem edit {α : Type} {m : Edit α} (h : t.Unaware a b s)
    (hm : Moves (Keeps (t.Aside b (s.Free b))) m) : t.Unaware a b (final m s) :=
  (hm s (h.beside fun hg => hg)).mono fun hg => hg ▸ h.free rfl

end Space.Aside

theorem Space.not_comprises_record (hj : j ≠ b) : ¬ t.Comprises (.record b) (.record j) :=
  fun hc => hj (Holder.record.inj hc.eq_of_record).symm

theorem Space.Free.ne {s : Space} (h : s.Free b (.record j)) : j ≠ b := by
  rintro rfl
  exact (h _ .here).2 .here

namespace RecordId

theorem field_moves {R : Space → Space → Prop} [IsPreorder Space R] (id : RecordId) (k : Key) :
    Moves R (id.field k) :=
  moves_get.bind fun _ => (moves_of_final fun _ => rfl).bind fun _ => moves_ofExcept _

theorem raw_moves {R : Space → Space → Prop} [IsPreorder Space R] (id : RecordId) (p : Place) :
    Moves R (id.raw p) :=
  moves_get.bind fun _ => (moves_of_final fun _ => rfl).bind fun _ => moves_ofExcept _

theorem noting_aside {edit : Edit Key} (he : Moves (Keeps (t.Aside b G)) edit) (id : RecordId)
    (v : Value) : Moves (Keeps (t.Aside b G)) (id.noting edit v) :=
  he.bind fun k => (id.field_moves k).bind fun _ => (Aside.note id k _ v).bind fun _ =>
    moves_pure k

theorem supplant_aside (hj : j ≠ b) (p : Place) (hv : v.Among G) :
    Moves (Keeps (t.Aside b G)) (j.supplant p v) := by
  refine (moves_of_final fun _ => rfl : Moves _ j.contents).bind fun c => ?_
  split
  · exact moves_throw _
  · refine (j.raw_moves _).bind fun w => ?_
    split
    · refine (Holder.replace_aside (not_comprises_record hj) _ hv).discard.bind fun _ => ?_
      exact (j.field_moves _).bind fun f => (Aside.note j _ _ v).bind fun _ => moves_pure v
    · exact moves_pure v

end RecordId

end Records

section Writes

variable {t : Space} {a b : RecordId} {limit room : Nat} {σ : Session} {id : RecordId} {p : Place}
  {v : Value} {k : Key} {l : Label}

theorem evalClosed_unaware (t : Space) (a b : RecordId) :
    Eval.Closed (OnSpace (Keeps (t.Unaware a b))) :=
  Aside.evalClosed t b (· = .record a)

theorem readWithin_unaware (t : Space) (a b : RecordId) (limit room : Nat) (id : RecordId)
    (p : Place) : Moves (OnSpace (Keeps (t.Unaware a b))) (readWithin limit room id p) :=
  readWithin_moves (evalClosed_unaware t a b) limit room id p

theorem unaware_bind {α β : Type} {m : Eval α} {f : α → Eval β}
    (hm : t.Unaware a b (final m σ).space)
    (hf : ∀ {x τ}, m σ = .ok x τ → t.Unaware a b τ.space → t.Unaware a b (final (f x) τ).space) :
    t.Unaware a b (final (m >>= f) σ).space := by
  rw [final_bind]
  cases h : m σ with
  | ok x τ => exact hf h (final_of_ok h ▸ hm)
  | error e τ => exact final_of_error h ▸ hm

theorem store_unaware (hσ : t.Unaware a b σ.space) (hid : id ≠ b) (k : Key)
    (hv : σ.space.Harmless b v) : t.Unaware a b (final (Eval.store id k v) σ).space := by
  rw [Eval.store, Eval.final_edit, final_discard]
  exact hσ.edit (Holder.replace_aside (not_comprises_record hid) k hv)

theorem writePlain_unaware (hσ : t.Unaware a b σ.space) (hid : id ≠ b)
    (hp : (∃ l, p = .label l) ∨ σ.space.Free b (.record id)) (hv : σ.space.Harmless b v) :
    t.Unaware a b (final (Eval.writePlain id p v) σ).space := by
  rw [Eval.final_writePlain]
  refine hσ.edit (RecordId.noting_aside ?_ id v)
  cases p with
  | label l => exact Holder.assignLabel_aside (not_comprises_record hid) l hv
  | key k =>
    have hfree := hp.resolve_left fun he => by
      obtain ⟨_, he⟩ := he
      cases he
    exact Holder.assignKey_aside hfree k hv

/-- The induction is on the reactions still to come, after the ones in `done` have run. -/
theorem react_unaware {d : Derived}
    (hstep : ∀ {done output f rest ρ w π}, d.reactions = done ++ (output, f) :: rest →
      { d with reactions := done }.react (readWithin limit room) (writeWithin limit room) id
        σ = .ok () ρ →
      f.eval (readWithin limit room) id ρ = .ok w π → t.Unaware a b π.space →
      t.Unaware a b (final (writeWithin limit room id (.label output) w) π).space)
    (rest done : List (Label × Formula)) {ρ : Session} (hd : d.reactions = done ++ rest)
    (hdone : { d with reactions := done }.react (readWithin limit room)
      (writeWithin limit room) id σ = .ok () ρ)
    (hρ : t.Unaware a b ρ.space) :
    t.Unaware a b (final ({ d with reactions := rest }.react (readWithin limit room)
      (writeWithin limit room) id) ρ).space := by
  induction rest generalizing done ρ with
  | nil => exact hρ
  | cons r rest ih =>
    obtain ⟨output, f⟩ := r
    have hformula := f.eval_moves (evalClosed_unaware t a b)
      (readWithin_unaware t a b limit room) id ρ hρ
    rw [Derived.react_cons]
    refine unaware_bind (unaware_bind hformula fun hw hπ => ?_) fun {_ π} honce hπ => ?_
    · rw [final_discard]
      exact hstep hd hdone hw hπ
    · refine ih (done ++ [(output, f)]) (by rw [hd, List.append_assoc]; rfl) ?_ hπ
      rw [Derived.react_append, bind_of_ok hdone, Derived.react_cons, bind_of_ok honce]
      rfl

theorem noteEffective_unaware (t : Space) (a b : RecordId) (limit room : Nat) (id : RecordId)
    (k : Key) (l : Label) : Moves (OnSpace (Keeps (t.Unaware a b)))
      (Eval.noteEffective (readWithin limit room) id k l) :=
  Eval.noteEffective_moves (readWithin_unaware t a b limit room) fun v => (Aside.note id k l v).edit

theorem writeWithin_unaware
    (hy : ∀ {τ y}, Performs limit room σ ⟨id, p, v⟩ τ y → y.id ≠ b ∧ τ.space.Harmless b y.value)
    (hp : (∃ l, p = .label l) ∨ σ.space.Free b (.record id)) (hσ : t.Unaware a b σ.space) :
    t.Unaware a b (final (writeWithin limit room id p v) σ).space := by
  induction room generalizing σ id p v with
  | zero =>
    obtain ⟨hid, hv⟩ := hy .self
    rcases through_or_plain σ.space id p v with ⟨k, l, c, hs, hplain⟩ | hplain
    · rwa [final, writeWithin, writeBy_through hs hplain]
    · rw [final, writeWithin, writeBy_plain hplain]
      exact writePlain_unaware hσ hid hp hv
  | succ room ih =>
    obtain ⟨hid, hv⟩ := hy .self
    dsimp only at hid hv
    rcases through_or_plain σ.space id p v with ⟨k, l, c, hs, hplain⟩ | hplain
    · rw [final, writeWithin, writeBy_through hs hplain]
      refine unaware_bind (space_final_guarded l hσ fun hk => ?_) fun _ hτ =>
        noteEffective_unaware t a b limit (room + 1) id k l _ hτ
      cases c with
      | reference target m =>
        rw [Cell.assign, final_bind, Eval.edit, Edit.follow_run]
        dsimp only
        cases ha : σ.space.alive target with
        | false => exact hσ
        | true =>
          simp only [if_true]
          rw [final_discard]
          exact ih (σ := { σ with flight := (id, k) :: σ.flight })
            (fun h => hy (.reference hs hplain hk ha h)) (.inl ⟨m, rfl⟩) hσ
      | derived i =>
        have hstored := store_unaware (σ := { σ with flight := (id, k) :: σ.flight }) hσ hid k hv
        rw [Cell.assign, final_bind, Eval.space_run]
        dsimp only
        refine unaware_bind hstored fun {_ ρ} hstore hρ => ?_
        rw [final_followedBy]
        refine store_unaware ?_ hid k (Value.among_cell _ _)
        refine react_unaware (σ := ρ) ?_ _ [] rfl rfl hρ
        intro done output f rest ξ w π hd hdone hw hπ
        exact ih (fun h => hy (.reaction hs hplain hk hd ((bind_of_ok hstore).trans hdone) hw h))
          (.inl ⟨output, rfl⟩) hπ
    · rw [final, writeWithin, writeBy_plain hplain]
      exact writePlain_unaware hσ hid hp hv

theorem RecordId.write_unaware {s : Space} (hs : t.Unaware a b s)
    (hp : (∃ l, p = .label l) ∨ s.Free b (.record id)) (hy : s.AssignsBeside b ⟨id, p, v⟩) :
    t.Unaware a b (final (id.write p v) s) := by
  have hwrite : final (id.write p v) s =
      final (Eval.run (writeWithin (s.record id).maxDepth (s.record id).maxDepth id p v)) s := rfl
  rw [hwrite, final_run]
  exact writeWithin_unaware (fun h => hy _ _ h) hp hs

end Writes

section Runs

variable {s t : Space} {a b id : RecordId}

theorem RecordId.writeAll_unaware {entries : List (Label × Value)} (hs : t.Unaware a b s)
    (hy : ∀ {done l v rest u}, entries = done ++ (l, v) :: rest → id.writeAll done s = .ok () u →
      u.AssignsBeside b ⟨id, .label l, v⟩) : t.Unaware a b (final (id.writeAll entries) s) := by
  have key : ∀ (rest done : List (Label × Value)) {u}, entries = done ++ rest →
      id.writeAll done s = .ok () u → t.Unaware a b u →
      t.Unaware a b (final (id.writeAll rest) u) := by
    intro rest
    induction rest with
    | nil => exact fun _ _ _ _ hu => hu
    | cons e rest ih =>
      obtain ⟨l, v⟩ := e
      intro done u he hdone hu
      have hwrite := RecordId.write_unaware hu (.inl ⟨l, rfl⟩) (hy he hdone)
      have hcons : id.writeAll ((l, v) :: rest) =
          (discard (id.write (.label l) v) >>= fun _ => id.writeAll rest) := rfl
      rw [hcons, final_bind]
      cases hv : discard (id.write (.label l) v) u with
      | error f w => rwa [← final_discard, final_of_error hv] at hwrite
      | ok _ w =>
        rw [← final_discard, final_of_ok hv] at hwrite
        refine ih (done ++ [(l, v)]) (by rw [he, List.append_assoc]; rfl) ?_ hwrite
        have happend : id.writeAll (done ++ [(l, v)]) =
            (id.writeAll done >>= fun _ => id.writeAll [(l, v)]) := List.forM_append
        have hlast : id.writeAll [(l, v)] u = .ok () w := bind_of_ok hv
        rw [happend, bind_of_ok hdone, hlast]
  exact key entries [] rfl rfl hs

theorem RecordId.detach_unaware {p : Place} (hs : t.Unaware a b s) (hid : id ≠ b)
    (hv : ∀ {v u}, id.read p s = .ok v u → u.Harmless b v) :
    t.Unaware a b (final (id.detach p) s) := by
  have hempty : t.Unaware a b (final (id.supplant p .empty) s) :=
    hs.edit (RecordId.supplant_aside hid p (Value.among_empty _))
  have hread : t.Unaware a b (final (id.read p >>= fun v => id.supplant p v) s) := by
    have hr := id.read_moves (evalClosed_unaware t a b) p s hs
    rw [final_bind]
    cases h : id.read p s with
    | error f u => rwa [final_of_error h] at hr
    | ok v u =>
      rw [final_of_ok h] at hr
      exact hr.edit (RecordId.supplant_aside hid p (hv h))
  have hraw : ∀ {w u}, id.raw p s = .ok w u → u = s := by
    intro w u h
    rw [RecordId.raw, bind_of_ok (Edit.get_run s), bind_of_ok (id.contents_run s)] at h
    cases hx : s.value (s.record id).fields p <;> rw [hx] at h <;> cases h
    rfl
  rw [RecordId.detach, final_bind, Edit.get_run]
  dsimp only
  rw [final_bind]
  cases h : id.raw p s with
  | error f u =>
    have hu := id.raw_moves (R := Keeps (t.Unaware a b)) p s hs
    rwa [final_of_error h] at hu
  | ok w u =>
    obtain rfl := hraw h
    dsimp only
    split
    · exact hempty
    · exact hread

theorem RecordOp.unaware {op : RecordOp} (ho : op.Beside s a b id) (hs : t.Unaware a b s) :
    t.Unaware a b (final (op.run id) s) := by
  have reads : ∀ {op : RecordOp}, op.Reads → t.Unaware a b (final (op.run id) s) :=
    fun ho => RecordOp.moves_of_reads (evalClosed_unaware t a b) _ ho id s hs
  have hnot : s.Changeable a b (.record id) → ¬ t.Comprises (.record b) (.record id) :=
    fun hc => not_comprises_record (hs.changeable hc).ne
  cases op with
  | read p => exact reads trivial
  | fields => exact reads trivial
  | render => exact reads trivial
  | evaluate f => exact reads trivial
  | write p v =>
    rw [RecordOp.run, final_discard]
    exact RecordId.write_unaware hs (.inr (hs.changeable ho.1)) ho.2
  | add l v =>
    exact hs.edit ((Holder.add_aside (hnot ho.1) l ho.2).bind fun k =>
      (Aside.note id k l v).bind fun _ => moves_pure k).discard
  | addBefore next l v =>
    exact hs.edit ((Holder.addBefore_aside (hnot ho.1) next l ho.2).bind fun k =>
      (Aside.note id k l v).bind fun _ => moves_pure k).discard
  | writeAll entries => exact RecordId.writeAll_unaware hs ho.2
  | clear p =>
    exact hs.edit (RecordId.noting_aside (Holder.clear_aside (hs.changeable ho) p) id
      .empty).discard
  | remove k =>
    exact hs.edit ((Holder.remove_aside (hnot ho) k).bind fun f =>
      (Aside.note id k _ _).bind fun _ => moves_pure f).discard
  | relabel k l =>
    exact hs.edit ((Holder.relabel_aside (hnot ho) k l).bind fun _ =>
      (id.raw_moves _).bind fun v => Aside.note id k l v)
  | detach p =>
    rw [RecordOp.run, final_discard]
    exact RecordId.detach_unaware hs (hs.changeable ho.1).ne ho.2
  | takeChanges =>
    exact hs.congr (closed_wellKept.recordOp id .takeChanges s hs.wellKept)
      (closed_grows.recordOp id .takeChanges s) (contents_setRecord_of_fields rfl)
  | derive name =>
    have hw := closed_wellKept.recordOp id (.derive name) s hs.wellKept
    rw [RecordOp.run, final_discard] at hw ⊢
    exact hs.preserves hw (id.derive_preserves s name s (.refl s))

theorem Space.Aside.retain {G : Holder → Prop} {held : RecordId → Bool} (h : t.Aside b G s)
    (hb : held b = true) : t.Aside b G (s.retain held) where
  wellKept := h.wellKept.retain held
  grows := trans_of Grows h.grows (grows_of_eq (t := s.retain held) rfl rfl rfl)
  made := h.made
  kept {e} he := by
    rw [← h.kept he]
    cases e with
    | shared i => rfl
    | record j =>
      obtain rfl : b = j := Holder.record.inj he.eq_of_record
      exact congrArg Record.fields
        ((record_retain_if h.wellKept.ascending held b).trans (if_pos hb))
  clear hG he := by
    refine h.clear hG (he.of_contents fun e _ => ?_)
    exact contents_retain h.wellKept.ascending held e

theorem Operation.unaware {op : Operation} (ho : op.Beside s a b) (hs : t.Unaware a b s) :
    t.Unaware a b (final op.run s) := by
  have hw := closed_wellKept.operation op s hs.wellKept
  have kept : ∀ {u}, (∀ h, u.contents h = s.contents h) → final op.run s = u →
      t.Unaware a b (final op.run s) := by
    rintro u hc rfl
    exact hs.congr hw (closed_grows.operation op s) hc
  have new : s.Preserves (final op.run s) → t.Unaware a b (final op.run s) :=
    fun hp => hs.preserves hw hp
  cases op with
  | mintKey => exact kept (s.contents_setNextKey _) rfl
  | newContainer => exact new (Preserves.refl s).newContainer
  | ofFields fields => exact new ((ContainerId.ofFields_preserves s fields).discard s (.refl s))
  | copy i => exact new ((i.copy_preserves s).discard s (.refl s))
  | newDerived d => exact new ((newDerived_preserves s d).discard s (.refl s))
  | newRecord name maxDepth => exact new ((Preserves.refl s).withNew name maxDepth)
  | retain held => exact hs.retain ho
  | container i op => exact hs.edit (ContainerOp.aside (hs.changeable ho.1) op ho.2)
  | record id op => exact RecordOp.unaware ho hs

theorem Space.RunsBeside.unaware {ops : List Operation} (ho : s.RunsBeside a b ops)
    (hs : t.Unaware a b s) : t.Unaware a b (s.perform ops) := by
  induction ops generalizing s with
  | nil => exact hs
  | cons op ops ih => exact ih ho.2 (Operation.unaware ho.1 hs)

/-- Records that have nothing in common stay apart. -/
theorem Space.RunsBeside.contents_eq {ops : List Operation} (ho : s.RunsBeside a b ops)
    (hs : s.WellKept) (ha : s.Free b (.record a)) (hb : s.Free a (.record b)) {g : Holder}
    (hg : s.Comprises (.record b) g) : (s.perform ops).contents g = s.contents g := by
  have hstart : s.Unaware a b s := {
    wellKept := hs
    grows := refl_of Grows s
    made := fun h => (hb _ h).1
    kept := fun _ => rfl
    clear := fun he hc => ha _ (he ▸ hc) }
  exact (ho.unaware hstart).kept hg

end Runs

/-- A record is copied of which no list or set, in itself or in the containers that it comprises,
has a container in it. Whatever is done then to one of the two records or to what it comprises, as
long as nothing of the other one is put there and no reference hands a write on to the other one,
all fields of the other one and of the containers that it comprises stay as they are. -/
theorem Reachable.copies_apart {s t : Space} {id c : RecordId} {name : Option String}
    (h : Reachable s) (hid : s.Copyable (.record id)) (hd : id.derive name s = .ok c t) :
    (∀ ops, t.RunsBeside id c ops → ∀ g, t.Comprises (.record c) g →
      (t.perform ops).contents g = t.contents g) ∧
    ∀ ops, t.RunsBeside c id ops → ∀ g, t.Comprises (.record id) g →
      (t.perform ops).contents g = t.contents g := by
  obtain ⟨hsource, hcopy⟩ := RecordId.derive_free h.layered hid hd
  have hw : t.WellKept := by
    have := closed_wellKept.derive id name s h.wellKept
    rwa [final_of_ok hd] at this
  exact ⟨fun ops ho g hg => ho.contents_eq hw hsource hcopy hg,
    fun ops ho g hg => ho.contents_eq hw hcopy hsource hg⟩

section Boxed

/-- A record holds this value, and there is a container with one field. -/
def boxed (v : Value) : List Operation :=
  [.newRecord none 256, .newContainer, .container ⟨1⟩ (.add (.name "x") (.int 1)),
    .record ⟨1⟩ (.add (.name "box") v)]

theorem Space.assignsBeside_plain {s : Space} {b : RecordId} {x : Assignment}
    (hs : ∀ k l c, s.slot? x.id x.place ≠ some (k, ⟨l, .cell c⟩)) (hb : x.id ≠ b)
    (hv : s.Harmless b x.value) : s.AssignsBeside b x := by
  have key : ∀ {limit room : Nat} {τ y}, Performs limit room { space := s } x τ y →
      y.id ≠ b ∧ τ.space.Harmless b y.value := by
    intro limit room τ y hy
    cases hy with
    | self => exact ⟨hb, hv⟩
    | reference hc => exact absurd hc (hs _ _ _)
    | reaction hc => exact absurd hc (hs _ _ _)
  exact fun _ _ => key

/-- The record of `boxed` with its copy. -/
def boxedTwice (v : Value) : Space := final (RecordId.derive ⟨1⟩ none) (Space.after (boxed v))

/-- The record has the one field, and the container in it has the other one. -/
structure Space.Boxes (s : Space) (v : Value) : Prop where
  record : (s.contents (.record ⟨1⟩)).fields.entries = [(⟨2⟩, ⟨.name "box", v⟩)]
  container : (s.contents (.shared ⟨1⟩)).fields.entries = [(⟨1⟩, ⟨.name "x", .int 1⟩)]

section Laws

variable {s : Space} {v : Value} {h : Holder}

theorem Space.Boxes.field? (hs : s.Boxes v) (hh : h = .record ⟨1⟩ ∨ h = .shared ⟨1⟩) {k : Key}
    {f : Field} (hf : (s.contents h).field? k = some f) : f.value = v ∨ f.value = .int 1 := by
  have hmem := Table.mem_of_lookup hf
  rcases hh with rfl | rfl
  · rw [hs.record] at hmem
    cases List.mem_singleton.mp hmem
    exact .inl rfl
  · rw [hs.container] at hmem
    cases List.mem_singleton.mp hmem
    exact .inr rfl

theorem Space.Boxes.comprises (hs : s.Boxes v) (hv : ∀ i, v.Contains i → i = ⟨1⟩)
    (hh : s.Comprises (.record ⟨1⟩) h) : h = .record ⟨1⟩ ∨ h = .shared ⟨1⟩ := by
  induction hh with
  | here => exact .inl rfl
  | inside _ hf hi ih =>
    rcases hs.field? ih hf with he | he <;> rw [he] at hi
    · exact .inr (congrArg Holder.shared (hv _ hi))
    · cases hi

theorem Space.Boxes.made (hs : s.Boxes v) (hv : ∀ i, v.Contains i → i = ⟨1⟩)
    (hr : 1 < s.nextRecord) (hc : s.containers.contains ⟨1⟩ = true ∧ 1 < s.nextContainer)
    (hh : s.Comprises (.record ⟨1⟩) h) : s.Made h := by
  rcases hs.comprises hv hh with rfl | rfl
  · exact hr
  · exact hc

theorem boxedTwice_derived
    (h : answer (RecordId.derive ⟨1⟩ none) (Space.after (boxed v)) = some ⟨2⟩) :
    RecordId.derive ⟨1⟩ none (Space.after (boxed v)) = .ok ⟨2⟩ (boxedTwice v) := by
  obtain ⟨u, hd⟩ := answer_eq_some_iff.mp h
  rw [hd, boxedTwice, final_of_ok hd]

end Laws

theorem boxed_tree_boxes : (Space.after (boxed (.tree ⟨1⟩))).Boxes (.tree ⟨1⟩) :=
  ⟨by decide +kernel, by decide +kernel⟩

theorem boxed_list_boxes : (Space.after (boxed (.list [.tree ⟨1⟩]))).Boxes (.list [.tree ⟨1⟩]) :=
  ⟨by decide +kernel, by decide +kernel⟩

theorem copyable_boxed : (Space.after (boxed (.tree ⟨1⟩))).Copyable (.record ⟨1⟩) where
  made := boxed_tree_boxes.made (fun _ hi => hi.eq) (by decide +kernel) (by decide +kernel)
  direct {h} hh {k f i} hf hi := by
    have hin := boxed_tree_boxes.comprises (fun _ hi => hi.eq) hh
    rcases boxed_tree_boxes.field? hin hf with he | he <;> rw [he] at hi ⊢
    · rw [hi.eq]
    · cases hi

/-- Something else is put into the container, then into the record. -/
def unboxed : List Operation :=
  [.container ⟨1⟩ (.assign (.label (.name "x")) (.int 2)),
    .record ⟨1⟩ (.write (.label (.name "box")) .empty)]

theorem copies_apart_boxed :
    let t := boxedTwice (.tree ⟨1⟩)
    ((t.perform unboxed).container ⟨1⟩).entries = [(⟨1⟩, ⟨.name "x", .int 2⟩)] ∧
      (t.perform unboxed).contents (.record ⟨2⟩) = t.contents (.record ⟨2⟩) ∧
      ((t.perform unboxed).container ⟨2⟩).entries = [(⟨3⟩, ⟨.name "x", .int 1⟩)] := by
  intro t
  have hd : RecordId.derive ⟨1⟩ none (Space.after (boxed (.tree ⟨1⟩))) = .ok ⟨2⟩ t :=
    boxedTwice_derived (by decide +kernel)
  have hruns : t.RunsBeside ⟨1⟩ ⟨2⟩ unboxed := by
    have hbox : (t.contents (.record ⟨1⟩)).field? ⟨2⟩ = some ⟨.name "box", .tree ⟨1⟩⟩ := by
      decide +kernel
    have hslot : (t.perform (unboxed.take 1)).slot? ⟨1⟩ (.label (.name "box")) =
        some (⟨2⟩, ⟨.name "box", .tree ⟨1⟩⟩) := by decide +kernel
    refine ⟨⟨.inl (.inside .here hbox .tree), fun v hv => ?_⟩,
      ⟨.inl .here, Space.assignsBeside_plain (fun k l c hs => ?_) (by decide) fun i hi => ?_⟩,
      trivial⟩
    · obtain rfl := List.mem_singleton.mp hv
      exact fun i hi => by cases hi
    · cases hslot.symm.trans hs
    · cases hi
  have hkept := (Reachable.copies_apart (.after _) copyable_boxed hd).1 unboxed hruns
  have hcopied : (t.contents (.record ⟨2⟩)).field? ⟨4⟩ = some ⟨.name "box", .tree ⟨2⟩⟩ := by
    decide +kernel
  refine ⟨by decide +kernel, hkept _ .here, ?_⟩
  have hinner : (t.perform unboxed).container ⟨2⟩ = t.container ⟨2⟩ :=
    hkept (.shared ⟨2⟩) (.inside .here hcopied .tree)
  rw [hinner]
  decide +kernel

/-- A container that is a member of a list is not copied. -/
theorem not_copies_apart :
    ¬ ∀ {s t : Space} {id c : RecordId} {name : Option String}, Reachable s →
      (∀ h, s.Comprises (.record id) h → s.Made h) → id.derive name s = .ok c t →
      ∀ ops, t.RunsBeside id c ops → ∀ g, t.Comprises (.record c) g →
        (t.perform ops).contents g = t.contents g := by
  intro hall
  let t := boxedTwice (.list [.tree ⟨1⟩])
  have hd : RecordId.derive ⟨1⟩ none (Space.after (boxed (.list [.tree ⟨1⟩]))) = .ok ⟨2⟩ t :=
    boxedTwice_derived (by decide +kernel)
  have hlist : ∀ i, (Value.list [.tree ⟨1⟩]).Contains i → i = ⟨1⟩ := by
    rintro i (_ | ⟨hv, hi⟩)
    obtain rfl := List.mem_singleton.mp hv
    exact hi.eq
  have hone : (Value.list [.tree ⟨1⟩]).Contains ⟨1⟩ := .list (List.mem_singleton_self _) .tree
  have hmade : ∀ h, (Space.after (boxed (.list [.tree ⟨1⟩]))).Comprises (.record ⟨1⟩) h →
      (Space.after (boxed (.list [.tree ⟨1⟩]))).Made h :=
    fun _ => boxed_list_boxes.made hlist (by decide +kernel) (by decide +kernel)
  have hbox : (t.contents (.record ⟨1⟩)).field? ⟨2⟩ = some ⟨.name "box", .list [.tree ⟨1⟩]⟩ := by
    decide +kernel
  have hcopied : (t.contents (.record ⟨2⟩)).field? ⟨3⟩ = some ⟨.name "box", .list [.tree ⟨1⟩]⟩ := by
    decide +kernel
  have hruns : t.RunsBeside ⟨1⟩ ⟨2⟩ (unboxed.take 1) := by
    refine ⟨⟨.inl (.inside .here hbox hone), fun v hv => ?_⟩, trivial⟩
    obtain rfl := List.mem_singleton.mp hv
    exact fun i hi => by cases hi
  have hsame := hall (.after _) hmade hd _ hruns (.shared ⟨1⟩) (.inside .here hcopied hone)
  have hx : ((t.perform (unboxed.take 1)).contents (.shared ⟨1⟩)).field? ⟨1⟩ =
      some ⟨.name "x", .int 2⟩ := by decide +kernel
  have hx' : (t.contents (.shared ⟨1⟩)).field? ⟨1⟩ = some ⟨.name "x", .int 1⟩ := by
    decide +kernel
  rw [hsame, hx'] at hx
  exact absurd hx (by decide)

end Boxed

end LiveRecords
