import LiveRecords.Proofs.Operations

/-! # The steps of a write

A write ends in few ways: a field of a record is given another value, a field is appended, or a
cell is assigned through. A record's own fields take any value, since no record is nested in a
container.
-/

namespace LiveRecords

variable {α : Type}

namespace Space

variable (s : Space) (id : RecordId) (k : Key) (f : Field) (l : Label) (v : Value)

/-- The field `f` that a record holds at `k` given another value. -/
def assigned : Space := s.setContents (.record id) ((s.record id).fields.assign k f v)

/-- A field appended to a record under the next key. -/
def appended : Space :=
  { s with nextKey := s.nextKey + 1 }.setContents (.record id)
    ((s.record id).fields.insert ⟨s.nextKey⟩ ⟨l, v⟩
      ((s.record id).fields.order ++ [(⟨s.nextKey⟩ : Key)]))

theorem field?_assigned (j : RecordId) (q : Key) :
    ((s.assigned id k f v).record j).fields.field? q =
      if j = id ∧ q = k then some { f with value := v } else (s.record j).fields.field? q := by
  by_cases hj : j = id
  · subst hj
    simp [assigned, setContents, Container.field?_assign]
  · simp [assigned, setContents, record_setRecord, hj]

theorem changes_assigned (j : RecordId) :
    ((s.assigned id k f v).record j).changes = (s.record j).changes := by
  rw [assigned, setContents, record_setRecord]
  split
  · rename_i hj
    rw [hj]
  · rfl

theorem field?_appended (j : RecordId) (q : Key) :
    ((s.appended id l v).record j).fields.field? q =
      if j = id ∧ q = ⟨s.nextKey⟩ then some ⟨l, v⟩ else (s.record j).fields.field? q := by
  by_cases hj : j = id
  · subst hj
    simp [appended, setContents, Container.field?_insert]
  · simp only [appended, setContents, record_setRecord, hj, false_and, if_false]
    rfl

end Space

namespace Holder

variable {s : Space} {id : RecordId} {k : Key} {f : Field} {p : Place} {l : Label} (v : Value)

theorem replace_run (hk : (s.record id).fields.field? k = some f) :
    (Holder.record id).replace k v s = .ok f.value (s.assigned id k f v) := by
  have hk' : (s.contents (.record id)).field? k = some f := hk
  rw [replace, replaceWithin_run, hk']
  simp only [opened, s.nests_nil v]
  rfl

theorem assign_run (hs : s.slot? id p = some (k, f)) :
    (Holder.record id).assign p v s = .ok k (s.assigned id k f v) := by
  obtain ⟨hr, hk⟩ := (Container.slot?_eq_some ..).mp hs
  have hrun := replace_run v hk
  cases p with
  | label l =>
    have hl : (s.contents (.record id)).key? l = some k := hr
    rw [assign, bind_of_ok (contents_run _ s)]
    simp only [hl]
    exact bind_of_ok (discard_of_ok hrun)
  | key j =>
    have hj : (s.record id).fields.holds j = true ∧ j = k := by
      simpa [Container.resolve] using hr
    obtain ⟨hh, rfl⟩ := hj
    have hg : (get : Edit Space) s = .ok s s := rfl
    rw [assign, bind_of_ok (contents_run _ s)]
    dsimp only
    rw [bind_of_ok hg]
    have hloc : s.locate (s.contents (.record id)) j = some [] := s.locate_of_holds j hh
    simp only [hloc]
    exact bind_of_ok (discard_of_ok hrun)

theorem add_run (hl : (s.record id).fields.key? l = none) :
    (Holder.record id).add l v s = .ok ⟨s.nextKey⟩ (s.appended id l v) := by
  have hl' : (s.contents (.record id)).key? l = none := hl
  rw [add, insert_run, (Container.hasLabel_eq_false _ l).mpr hl', opened, s.nests_nil v]
  rfl

theorem assign_run_new (hl : (s.record id).fields.key? l = none) :
    (Holder.record id).assign (.label l) v s = .ok ⟨s.nextKey⟩ (s.appended id l v) := by
  have hl' : (s.contents (.record id)).key? l = none := hl
  rw [assign, bind_of_ok (contents_run _ s)]
  simp only [hl']
  exact add_run v hl

theorem final_assign_deeper (hk : (s.record id).fields.holds k = false) :
    final ((Holder.record id).assign (.key k) v) s = s ∨ ∃ i c,
      final ((Holder.record id).assign (.key k) v) s = s.setContents (.shared i) c := by
  have hg : (get : Edit Space) s = .ok s s := rfl
  rw [assign, final_bind, contents_run]
  dsimp only
  rw [final_bind, hg]
  cases hl : s.locate (s.contents (.record id)) k with
  | none =>
    left
    simp only [hl]
    rfl
  | some path =>
    obtain ⟨i, hi⟩ : ∃ i, path.getLast? = some i := by
      refine Option.isSome_iff_exists.mp (List.getLast?_isSome.mpr fun hp => ?_)
      exact s.locate_ne_nil k hk (hp ▸ hl)
    simp only [hl, hi, Option.map_some, Option.getD_some]
    have hfin := final_replaceWithin (.shared i) k v s ((Holder.record id).opened ++ path)
    rw [final_bind_pure _ fun _ => k, final_discard]
    exact hfin.imp_right fun ⟨_, _, _, he⟩ => ⟨i, _, he⟩

theorem field?_final_assign (hs : s.slot? id p = none)
    (hn : ∀ j, (s.record j).fields.field? ⟨s.nextKey⟩ = none)
    {j : RecordId} {q : Key} {g : Field} (hq : (s.record j).fields.field? q = some g) :
    ((final ((Holder.record id).assign p v) s).record j).fields.field? q = some g := by
  cases p with
  | label l =>
    cases hl : (s.record id).fields.key? l with
    | none =>
      have hne : ¬(j = id ∧ q = ⟨s.nextKey⟩) := by
        rintro ⟨-, rfl⟩
        rw [hn j] at hq
        cases hq
      rw [final_of_ok (assign_run_new v hl), Space.field?_appended, if_neg hne, hq]
    | some k =>
      have hk : (s.record id).fields.field? k = none := by
        simpa [Space.slot?, Container.slot?, Container.resolve, hl] using hs
      have hk' : (s.contents (.record id)).field? k = none := hk
      have hl' : (s.contents (.record id)).key? l = some k := hl
      rw [assign, final_bind, contents_run]
      simp only [hl']
      rw [final_bind, discard_of_error (e := .notFound (.key k)) (t := s)]
      · exact hq
      · rw [replace, replaceWithin_run, hk']
  | key k =>
    have hk : (s.record id).fields.holds k = false := by
      simpa [Space.slot?, Container.slot?_key, Container.holds, Table.contains,
        Container.field?] using hs
    rcases final_assign_deeper v hk with he | ⟨i, c, he⟩ <;> rw [he]
    · exact hq
    · exact hq

end Holder

theorem Holder.assign_label_dangling {s t : Space} {id : RecordId} {l : Label} {k j : Key}
    (hl : (s.record id).fields.key? l = some k) (hk : (s.record id).fields.field? k = none)
    (v : Value) : (Holder.record id).assign (.label l) v s ≠ .ok j t := by
  have hl' : (s.contents (.record id)).key? l = some k := hl
  have hk' : (s.contents (.record id)).field? k = none := hk
  have hr : (Holder.record id).replace k v s = .error (.notFound (.key k)) s := by
    rw [replace, replaceWithin_run, hk']
  rw [assign, bind_of_ok (contents_run _ s)]
  simp only [hl']
  rw [bind_of_error (discard_of_error hr)]
  exact nofun

/-- A label, or a key of the record itself, is assigned in one of two ways. -/
theorem Holder.assign_eq_ok {s t : Space} {id : RecordId} {p : Place} {v : Value} {k : Key}
    (hp : (∃ l, p = .label l) ∨ (s.slot? id p).isSome)
    (h : (Holder.record id).assign p v s = .ok k t) :
    (∃ f, s.slot? id p = some (k, f) ∧ t = s.assigned id k f v) ∨
      ∃ l, p = .label l ∧ (s.record id).fields.key? l = none ∧ t = s.appended id l v := by
  cases hs : s.slot? id p with
  | some e =>
    obtain ⟨j, f⟩ := e
    rw [Holder.assign_run v hs] at h
    cases h
    exact .inl ⟨f, rfl, rfl⟩
  | none =>
    obtain ⟨l, rfl⟩ : ∃ l, p = .label l := by simpa [hs] using hp
    cases hl : (s.record id).fields.key? l with
    | none =>
      rw [Holder.assign_run_new v hl] at h
      cases h
      exact .inr ⟨l, rfl, hl, rfl⟩
    | some j =>
      have hj : (s.record id).fields.field? j = none := by
        simpa [Space.slot?, Container.slot?, Container.resolve, hl] using hs
      exact absurd h (Holder.assign_label_dangling hl hj v)

theorem Eval.store_run {σ : Session} {id : RecordId} {k : Key} {f : Field}
    (hk : (σ.space.record id).fields.field? k = some f) (v : Value) :
    Eval.store id k v σ = .ok () { σ with space := σ.space.assigned id k f v } := by
  rw [Eval.store, Eval.edit, discard_of_ok (Holder.replace_run v hk)]

theorem Eval.store_of_none {σ : Session} {id : RecordId} {k : Key}
    (hk : (σ.space.record id).fields.field? k = none) (v : Value) :
    Eval.store id k v σ = .error (.notFound (.key k)) σ := by
  have hk' : (σ.space.contents (.record id)).field? k = none := hk
  have hr : (Holder.record id).replace k v σ.space = .error (.notFound (.key k)) σ.space := by
    rw [Holder.replace, Holder.replaceWithin_run, hk']
  rw [Eval.store, Eval.edit, discard_of_error hr]

theorem Eval.store_eq_ok {σ τ : Session} {id : RecordId} {k : Key} {v : Value} {u : Unit}
    (h : Eval.store id k v σ = .ok u τ) :
    ∃ f, (σ.space.record id).fields.field? k = some f ∧
      τ = { σ with space := σ.space.assigned id k f v } := by
  cases hk : (σ.space.record id).fields.field? k with
  | some f =>
    rw [Eval.store_run hk] at h
    cases h
    exact ⟨f, rfl, rfl⟩
  | none =>
    rw [Eval.store_of_none hk] at h
    cases h

theorem Eval.followedBy_eq_ok {m after : Eval Unit} {σ τ : Session} {u : Unit}
    (h : m.followedBy after σ = .ok u τ) : ∃ ρ, m σ = .ok () ρ ∧ after ρ = .ok () τ := by
  cases hm : m σ with
  | ok _ ρ =>
    simp only [followedBy, hm] at h
    exact ⟨ρ, rfl, h⟩
  | error e ρ =>
    simp only [followedBy, hm] at h
    cases ha : after ρ <;> rw [ha] at h <;> cases h

section React

variable (read : Reader) (write : Writer) (owner : RecordId) (d : Derived)

/-- A reaction by itself: evaluate its formula and assign the result. -/
def Derived.reactOnce (output : Label) (f : Formula) : Eval Unit := do
  let v ← f.eval read owner
  discard (write owner (.label output) v)

theorem Derived.react_cons (output : Label) (f : Formula) (rest : List (Label × Formula)) :
    { d with reactions := (output, f) :: rest }.react read write owner =
      (reactOnce read write owner output f >>= fun _ =>
        { d with reactions := rest }.react read write owner) :=
  rfl

theorem Derived.react_append (done rest : List (Label × Formula)) :
    { d with reactions := done ++ rest }.react read write owner =
      ({ d with reactions := done }.react read write owner >>= fun _ =>
        { d with reactions := rest }.react read write owner) :=
  List.forM_append

end React

section WriteBy

variable {assign : RecordId → Key → Label → Cell → Value → Eval Unit} {read : Reader}
  {σ : Session} {id : RecordId} {p : Place} {v : Value}

theorem through_or_plain (s : Space) (id : RecordId) (p : Place) (v : Value) :
    (∃ k l c, s.slot? id p = some (k, ⟨l, .cell c⟩) ∧ v.isCell = false) ∨
      ∀ k l c, s.slot? id p = some (k, ⟨l, .cell c⟩) → v.isCell = true := by
  cases hv : v.isCell with
  | true => exact .inr fun _ _ _ _ => rfl
  | false =>
    by_cases h : ∃ k l c, s.slot? id p = some (k, ⟨l, .cell c⟩)
    · obtain ⟨k, l, c, h⟩ := h
      exact .inl ⟨k, l, c, h, rfl⟩
    · exact .inr fun k l c hs => absurd ⟨k, l, c, hs⟩ h

/-- What a write through a cell does once the cell is assigned. -/
def Eval.noteEffective (read : Reader) (id : RecordId) (k : Key) (l : Label) : Eval Key := do
  let effective ← read id (.key k)
  Eval.edit (Edit.note id k l effective)
  return k

theorem Eval.noteEffective_moves {R : Session → Session → Prop} [IsPreorder Session R]
    (hread : ∀ id p, Moves R (read id p)) {k : Key} {l : Label}
    (hnote : ∀ v, Moves R (Eval.edit (Edit.note id k l v))) :
    Moves R (Eval.noteEffective read id k l) :=
  (hread id _).bind fun v => (hnote v).bind fun _ => moves_pure k

theorem writeBy_through {k : Key} {l : Label} {c : Cell}
    (hs : σ.space.slot? id p = some (k, ⟨l, .cell c⟩)) (hv : v.isCell = false) :
    writeBy assign read id p v σ =
      (assign id k l c v >>= fun _ => Eval.noteEffective read id k l) σ := by
  rw [writeBy, bind_of_ok (Eval.space_run σ)]
  simp only [hs, hv]
  rfl

/-- A write that does not go through a cell. -/
def Eval.writePlain (id : RecordId) (p : Place) (v : Value) : Eval Key := do
  let k ← Eval.edit ((Holder.record id).assign p v)
  let s ← Eval.space
  let f ← MonadExcept.ofExcept (s.field (s.record id).fields k)
  Eval.edit (Edit.note id k f.label v)
  return k

/-- Past the assignment, a write that does not go through a cell only notes what was assigned. -/
theorem Eval.leads_writePlain {R : Session → Session → Prop} [IsPreorder Session R]
    (ha : R σ (final (Eval.edit ((Holder.record id).assign p v)) σ))
    (hnote : ∀ k l, Moves R (Eval.edit (Edit.note id k l v))) :
    R σ (final (Eval.writePlain id p v) σ) :=
  leads_bind ha fun k => Eval.moves_space.bind fun _ => (moves_ofExcept _).bind fun f =>
    (hnote k f.label).bind fun _ => moves_pure k

theorem Eval.writePlain_eq_ok {τ : Session} {k : Key} (h : Eval.writePlain id p v σ = .ok k τ) :
    ∃ u changes, (Holder.record id).assign p v σ.space = .ok k u ∧
      τ = { σ with space := u.setRecord id { u.record id with changes } } := by
  rw [Eval.writePlain, bind_eq_ok_iff] at h
  obtain ⟨j, ρ, hassign, h⟩ := h
  rw [bind_of_ok (Eval.space_run ρ), bind_eq_ok_iff] at h
  obtain ⟨f, π, hfield, h⟩ := h
  obtain rfl : π = ρ := by
    cases hx : ρ.space.field (ρ.space.record id).fields j <;> rw [hx] at hfield <;> cases hfield
    rfl
  rw [bind_eq_ok_iff] at h
  obtain ⟨_, ξ, hnote, h⟩ := h
  cases h
  cases hnote
  rw [Eval.edit] at hassign
  cases ha : (Holder.record id).assign p v σ.space with
  | ok i u =>
    rw [ha] at hassign
    cases hassign
    exact ⟨u, _, rfl, rfl⟩
  | error e u =>
    rw [ha] at hassign
    cases hassign

theorem writeBy_plain
    (h : ∀ k l c, σ.space.slot? id p = some (k, ⟨l, .cell c⟩) → v.isCell = true) :
    writeBy assign read id p v σ = Eval.writePlain id p v σ := by
  rw [writeBy, bind_of_ok (Eval.space_run σ)]
  cases hs : σ.space.slot? id p with
  | none => rfl
  | some e =>
    obtain ⟨k, l, w⟩ := e
    cases w with
    | cell c => simp only [h k l c hs]; rfl
    | _ => rfl

theorem writeWithin_of_plain {limit room : Nat}
    (h : ∀ k l c, σ.space.slot? id p = some (k, ⟨l, .cell c⟩) → v.isCell = true) :
    writeWithin limit room id p v σ = Eval.writePlain id p v σ := by
  cases room <;> exact writeBy_plain h

end WriteBy

namespace Space

/-- Every record allows as many nested cells in `t` as in `s`. -/
def SameLimits (s t : Space) : Prop := ∀ id, (t.record id).maxDepth = (s.record id).maxDepth

instance : IsPreorder Space SameLimits where
  refl _ _ := rfl
  trans _ _ _ h h' id := (h' id).trans (h id)

theorem sameLimits_setRecord {s : Space} {id : RecordId} {r : Record}
    (hr : r.maxDepth = (s.record id).maxDepth) : SameLimits s (s.setRecord id r) := by
  intro j
  rw [record_setRecord]
  split
  · rename_i hj
    rw [hr, hj]
  · rfl

theorem closedForWrites_sameLimits : Eval.ClosedForWrites (OnSpace SameLimits) := by
  have hc : ∀ (s : Space) h c, SameLimits s (s.setContents h c) := by
    intro s h c
    cases h with
    | shared id => exact refl_of SameLimits s
    | record id => exact sameLimits_setRecord rfl
  have holder := Holder.closed_of_setContents hc fun s => refl_of SameLimits s
  have eval : Eval.Closed (OnSpace SameLimits) :=
    Eval.closed_of_marks fun _ _ _ _ => sameLimits_setRecord rfl
  exact eval.forWrites holder.add holder.replaceWithin fun _ _ _ => sameLimits_setRecord rfl

end Space

end LiveRecords
