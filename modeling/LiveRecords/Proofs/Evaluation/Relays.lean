import LiveRecords.Proofs.Evaluation.References

/-! # Assigning along references

An assignment to a field that holds a reference is handed on to the end of the path. Coming back,
each reference reads its field anew and notes what it reads, which is what was assigned. Where the
path has no end to assign to, nothing happens.
-/

namespace LiveRecords

/-- The field that an assignment comes to at the end of a path, with its label. -/
def Stop.field (s : Space) : Stop → Option ((RecordId × Key) × Label)
  | plain id k f => some ((id, k), f.label)
  | missing id l => some ((id, ⟨s.nextKey⟩), l)
  | _ => none

/-- The space once the end of a path has been assigned. -/
def Stop.assigned (s : Space) (v : Value) : Stop → Space
  | plain id k f => s.assigned id k f v
  | missing id l => s.appended id l v
  | _ => s

namespace Space

variable {s t u : Space} {behind cells : List (RecordId × Key)} {id i j : RecordId} {p : Place}
  {r : Place} {k q : Key} {f g : Field} {l : Label} {v : Value} {stop : Stop} {e : RecordId × Key}

section Slots

theorem slot?_assigned (hs : s.slot? i p = some (k, g)) (j : RecordId) (q : Key) (f : Field)
    (v : Value) :
    (s.assigned j q f v).slot? i p =
      some (k, if i = j ∧ k = q then { f with value := v } else g) := by
  obtain ⟨hr, hk⟩ := (Container.slot?_eq_some ..).mp hs
  have hfield := s.field?_assigned j q f v i k
  refine (Container.slot?_eq_some ..).mpr ⟨?_, ?_⟩
  · cases p with
    | label l =>
      have hkey : ((s.assigned j q f v).record i).fields.key? l = (s.record i).fields.key? l := by
        by_cases hij : i = j
        · subst hij
          simp [Space.assigned, setContents, Container.key?_assign]
        · simp [Space.assigned, setContents, record_setRecord, hij]
      exact hkey.trans hr
    | key k' =>
      obtain ⟨-, rfl⟩ : (s.record i).fields.holds k' = true ∧ k' = k := by
        simpa [Container.resolve] using hr
      have hh : ((s.assigned j q f v).record i).fields.holds k' = true := by
        rw [Container.holds_iff, hfield]
        split
        · exact ⟨_, rfl⟩
        · exact ⟨g, hk⟩
      simp [Container.resolve, hh]
  · rw [hfield]
    split
    · rfl
    · exact hk

theorem slot?_appended (hw : s.WellKept) (hs : s.slot? i p = some (k, g))
    (hl : (s.record j).fields.key? l = none) (v : Value) :
    (s.appended j l v).slot? i p = some (k, g) := by
  obtain ⟨hr, hk⟩ := (Container.slot?_eq_some ..).mp hs
  have hne : ¬ (i = j ∧ k = ⟨s.nextKey⟩) := by
    rintro ⟨-, rfl⟩
    have hfresh := hw.fresh (.record i)
    rw [show (s.contents (.record i)).field? ⟨s.nextKey⟩ = some g from hk] at hfresh
    cases hfresh
  have hfield := s.field?_appended j l v i k
  rw [if_neg hne, hk] at hfield
  refine (Container.slot?_eq_some ..).mpr ⟨?_, hfield⟩
  cases p with
  | label m =>
    have hm : (s.record i).fields.key? m = some k := hr
    have hkey : ((s.appended j l v).record i).fields.key? m = (s.record i).fields.key? m := by
      by_cases hij : i = j
      · subst hij
        have hlm : ¬ (m = l ∧ l ≠ .empty) := by
          rintro ⟨rfl, -⟩
          rw [hl] at hm
          cases hm
        simp [Space.appended, setContents, Container.key?_insert, hlm]
      · simp only [Space.appended, setContents, record_setRecord, hij, if_false]
        rfl
    exact hkey.trans hm
  | key k' =>
    obtain ⟨-, rfl⟩ : (s.record i).fields.holds k' = true ∧ k' = k := by
      simpa [Container.resolve] using hr
    have hh : ((s.appended j l v).record i).fields.holds k' = true :=
      (Container.holds_iff ..).mpr ⟨g, hfield⟩
    simp [Container.resolve, hh]

theorem slot?_appended_self (hl : l ≠ .empty) (v : Value) :
    (s.appended j l v).slot? j (.label l) = some (⟨s.nextKey⟩, ⟨l, v⟩) := by
  refine (Container.slot?_eq_some ..).mpr ⟨?_, ?_⟩
  · simp [Space.appended, setContents, Container.resolve, Container.key?_insert, hl]
  · rw [field?_appended, if_pos ⟨rfl, rfl⟩]

end Slots

section Paths

theorem Crosses.at_end (h : s.Crosses behind id p cells stop) :
    (∀ j q f, stop = .plain j q f → s.slot? j (.key q) = some (q, f) ∧ f.value.isCell = false) ∧
    ∀ j l, stop = .missing j l → (s.record j).fields.key? l = none ∧ s.alive j = true := by
  induction h with
  | plain hs hf =>
    refine ⟨?_, nofun⟩
    rintro j q f ⟨⟩
    exact ⟨slot?_key hs, hf⟩
  | missing hk ha =>
    refine ⟨nofun, ?_⟩
    rintro j l ⟨⟩
    exact ⟨hk, ha⟩
  | ring => exact ⟨nofun, nofun⟩
  | dropped => exact ⟨nofun, nofun⟩
  | reference _ _ _ _ ih => exact ih

/-- An assignment at the end of a path leaves every cell in its place. -/
theorem Crosses.slot?_cell (hw : s.WellKept) (h : s.Crosses behind id p cells stop) (v : Value)
    {c : Cell} (hs : s.slot? i r = some (k, ⟨l, .cell c⟩)) :
    (stop.assigned s v).slot? i r = some (k, ⟨l, .cell c⟩) := by
  cases stop with
  | plain j q f =>
    obtain ⟨hend, hcell⟩ := h.at_end.1 j q f rfl
    have hne : ¬ (i = j ∧ k = q) := by
      rintro ⟨rfl, rfl⟩
      rw [slot?_key hs] at hend
      cases hend
      cases hcell
    have hs' := slot?_assigned hs j q f v
    rwa [if_neg hne] at hs'
  | missing j m => exact slot?_appended hw hs (h.at_end.2 j m rfl).1 v
  | _ => exact hs

theorem alive_stop_assigned (h : s.alive i = true) (stop : Stop) (v : Value) :
    (stop.assigned s v).alive i = true := by
  cases stop with
  | plain => simp [Stop.assigned, Space.assigned, setContents, alive_setRecord, h]
  | missing =>
    have h' : ({ s with nextKey := s.nextKey + 1 } : Space).alive i = true := h
    simp [Stop.assigned, Space.appended, setContents, alive_setRecord, h']
  | _ => exact h

/-- An assignment at the end of a path leaves the same references leading there, where the value
is now. -/
theorem Crosses.after_assigned (hw : s.WellKept) (h : s.Crosses behind id p cells stop)
    (hend : stop.field s = some (e, l)) (hl : (s.record e.1).fields.field? e.2 = none → l ≠ .empty)
    (hv : v.isCell = false) :
    (stop.assigned s v).Crosses behind id p cells (.plain e.1 e.2 ⟨l, v⟩) := by
  have hcell : ∀ {i r k m c}, s.slot? i r = some (k, ⟨m, .cell c⟩) →
      (stop.assigned s v).slot? i r = some (k, ⟨m, .cell c⟩) := h.slot?_cell hw v
  induction h with
  | @plain behind id p k f hs _ =>
    cases hend
    have hs' := slot?_assigned hs id k f v
    rw [if_pos ⟨rfl, rfl⟩] at hs'
    exact .plain hs' hv
  | @missing behind id m _ _ =>
    cases hend
    exact .plain (slot?_appended_self (hl (hw.fresh (.record id))) v) hv
  | ring => cases hend
  | dropped => cases hend
  | @reference behind id p k l' target m cells stop hs hk ha _ ih =>
    exact .reference (hcell hs) hk (alive_stop_assigned ha stop v) (ih hend hcell)

theorem Crosses.anew (h : s.Crosses behind id p cells (.plain j q f)) :
    s.Crosses [] id p cells (.plain j q f) := by
  suffices ∀ {behind' : List (RecordId × Key)}, behind' ⊆ behind →
      s.Crosses behind' id p cells (.plain j q f) from this (List.nil_subset _)
  generalize hstop : Stop.plain j q f = stop at h
  intro behind' hsub
  induction h generalizing behind' with
  | plain hs hf => exact .plain hs hf
  | missing hk ha => exact .missing hk ha
  | ring => cases hstop
  | dropped => cases hstop
  | reference hs hk ha _ ih =>
    exact .reference hs (fun hm => hk (hsub hm)) ha (ih hstop (List.cons_subset_cons _ hsub))

theorem Crosses.of_mem (h : s.Crosses behind id p cells (.plain j q f))
    (he : e ∈ cells ++ [(j, q)]) :
    ∃ cells', s.Crosses [] e.1 (.key e.2) cells' (.plain j q f) ∧ cells'.length ≤ cells.length := by
  generalize hstop : Stop.plain j q f = stop at h
  induction h with
  | plain hs hf =>
    cases hstop
    obtain rfl := List.mem_singleton.mp he
    exact ⟨[], .plain (slot?_key hs) hf, Nat.le_refl 0⟩
  | reference hs hk ha hpath ih =>
    subst hstop
    rcases List.mem_cons.mp he with rfl | he
    · exact ⟨_, (Crosses.reference (slot?_key hs) hk ha hpath).anew, Nat.le_refl _⟩
    · obtain ⟨cells', hpath', hlen⟩ := ih he rfl
      exact ⟨cells', hpath', Nat.le_succ_of_le hlen⟩
  | _ => cases hstop

theorem Crosses.of_slot (h : s.Crosses behind id p cells stop) (hp : s.slot? id p = some (k, f))
    (hr : s.slot? id r = some (k, f)) : s.Crosses behind id r cells stop := by
  have back : ∀ {k' f'}, s.slot? id p = some (k', f') → s.slot? id r = some (k', f') := by
    intro k' f' hs
    rw [hr, ← hp, hs]
  cases h with
  | plain hs hf => exact .plain (back hs) hf
  | missing hk =>
    rw [key?_of_slot? hp] at hk
    cases hk
  | ring hs hk => exact .ring (back hs) hk
  | dropped hs hk ha => exact .dropped (back hs) hk ha
  | reference hs hk ha hpath => exact .reference (back hs) hk ha hpath

theorem Crosses.alive_of_mem (h : s.Crosses behind id p cells stop)
    (hend : stop.field s = some (e, l)) {g : RecordId × Key} (hg : g ∈ cells ++ [e]) :
    s.alive g.1 = true := by
  induction h with
  | plain hs =>
    cases hend
    obtain rfl := List.mem_singleton.mp hg
    exact alive_of_slot? hs
  | missing _ ha =>
    cases hend
    obtain rfl := List.mem_singleton.mp hg
    exact ha
  | ring => cases hend
  | dropped => cases hend
  | reference hs _ _ _ ih =>
    rcases List.mem_cons.mp hg with rfl | hg
    · exact alive_of_slot? hs
    · exact ih hend hg

theorem Crosses.label_ne_empty (h : s.Crosses behind id p cells (.missing j l))
    (hr : s.OnlyReferences) (hp : p ≠ .label .empty) : l ≠ .empty := by
  generalize hstop : Stop.missing j l = stop at h
  induction h with
  | missing =>
    cases hstop
    rintro rfl
    exact hp rfl
  | reference hs _ _ _ ih =>
    rcases hr.slot_cases hs with hv | ⟨target, m, hm, hc⟩
    · cases hv
    · cases hc
      refine ih ?_ hstop
      rintro ⟨⟩
      exact hm rfl
  | _ => cases hstop

end Paths

/-- What `base` holds, with `v` noted as the change of every field in `told` and nothing else noted
since `s`. -/
structure Handed (s base u : Space) (told : List (RecordId × Key)) (v : Value) : Prop where
  agree : base.Agree u
  noted : ∀ g ∈ told, ∃ f, (base.record g.1).fields.field? g.2 = some f ∧
    (u.record g.1).changes.get? g.2 = some ⟨f.label, v⟩
  unnoted : ∀ g ∉ told, (u.record g.1).changes.get? g.2 = (s.record g.1).changes.get? g.2

theorem Handed.note {base : Space} {told : List (RecordId × Key)}
    (h : Handed s base u told v) (hk : (base.record id).fields.field? k = some f) :
    Handed s base (u.setRecord id
      { u.record id with changes := (u.record id).changes.record k f.label v })
      ((id, k) :: told) v := by
  have hget : ∀ g : RecordId × Key, ((u.setRecord id
      { u.record id with changes := (u.record id).changes.record k f.label v }).record
        g.1).changes.get? g.2 =
      if g = (id, k) then some ⟨f.label, v⟩ else (u.record g.1).changes.get? g.2 := by
    rintro ⟨i, q⟩
    rw [record_setRecord]
    by_cases hi : i = id
    · subst hi
      simp [Changes.record, Table.get?_put_if]
    · simp [hi]
  have hs : base.slot? id (.key k) = some (k, f) := by
    rw [slot?, Container.slot?_key, hk]
    rfl
  refine ⟨h.agree.setChanges ((h.agree.alive id).trans (alive_of_slot? hs)) _, ?_, ?_⟩
  · rintro g hg
    rw [hget]
    split
    · rename_i hgk
      subst hgk
      exact ⟨f, hk, rfl⟩
    · rename_i hgk
      exact h.noted g ((List.mem_cons.mp hg).resolve_left hgk)
  · intro g hg
    rw [List.mem_cons, not_or] at hg
    rw [hget, if_neg hg.1]
    exact h.unnoted g hg.2

end Space

section Writing

variable {s : Space} {behind cells : List (RecordId × Key)} {id : RecordId} {p : Place}
  {k : Key} {f : Field} {l : Label} {v : Value} {stop : Stop} {e : RecordId × Key} {σ : Session}
  {limit room : Nat}

theorem Space.field_of_field? (hk : (s.record id).fields.field? k = some f) :
    s.field (s.record id).fields k = .ok f := by
  have hh : (s.record id).fields.holds k = true := (Container.holds_iff ..).mpr ⟨f, hk⟩
  have hf : s.field? (s.record id).fields k = some f := by
    rw [Space.field?, s.locate_of_holds k hh]
    exact hk
  rw [Space.field, hf]

theorem Holder.assign_label (hs : s.WellKept) (id : RecordId) (hl : l ≠ .empty) (v : Value) :
    ∃ k t, (Holder.record id).assign (.label l) v s = .ok k t ∧
      t.slot? id (.label l) = some (k, ⟨l, v⟩) := by
  cases hk : (s.record id).fields.key? l with
  | none => exact ⟨_, _, Holder.assign_run_new v hk, Space.slot?_appended_self hl v⟩
  | some k =>
    obtain ⟨w, hslot⟩ := hs.slot?_of_key? hk
    have hassigned := Space.slot?_assigned hslot id k ⟨l, w⟩ v
    rw [if_pos ⟨rfl, rfl⟩] at hassigned
    exact ⟨k, _, Holder.assign_run v hslot, hassigned⟩

theorem Eval.writePlain_run {u : Space}
    (ha : (Holder.record id).assign p v σ.space = .ok k u)
    (hk : (u.record id).fields.field? k = some f) :
    Eval.writePlain id p v σ = .ok k { σ with space := (u.setRecord id
      { u.record id with changes := (u.record id).changes.record k f.label v }) } := by
  have hedit : Eval.edit ((Holder.record id).assign p v) σ = .ok k { σ with space := u } := by
    rw [Eval.edit, ha]
  rw [Eval.writePlain, bind_of_ok hedit, bind_of_ok (Eval.space_run _)]
  simp only [Space.field_of_field? hk]
  rfl

theorem Space.Quiet.setChanges {s : Space} (h : s.Quiet) (id : RecordId) (changes : Changes) :
    (s.setRecord id { s.record id with changes }).Quiet :=
  (Space.balanced_setChanges s id changes).keeps h

theorem Eval.writePlain_handed {u : Space} (hq : u.Quiet)
    (ha : (Holder.record id).assign p v σ.space = .ok k u)
    (hk : (u.record id).fields.field? k = some f)
    (hc : ∀ j, (u.record j).changes = (σ.space.record j).changes) :
    ∃ t, Eval.writePlain id p v σ = .ok k { σ with space := t } ∧ t.Quiet ∧
      Space.Handed σ.space u t [(id, k)] v := by
  refine ⟨_, Eval.writePlain_run ha hk, hq.setChanges id _, Space.Handed.note ?_ hk⟩
  exact ⟨.refl u, nofun, fun g _ => by rw [hc]⟩

theorem Space.changes_setContents (s : Space) (h : Holder) (c : Container) (j : RecordId) :
    ((s.setContents h c).record j).changes = (s.record j).changes := by
  cases h with
  | shared id => rfl
  | record id =>
    simp only [Space.setContents, Space.record_setRecord]
    split
    · rename_i hj
      rw [hj]
    · rfl

theorem Space.Quiet.after_assign (hq : s.Quiet) {u : Space}
    (ha : (Holder.record id).assign p v s = .ok k u) : u.Quiet := by
  have := Space.closedForWrites_balanced.assign id p v { space := s }
  rw [final_of_ok (by rw [Eval.edit, ha])] at this
  exact this.keeps hq

/-- With room for all references of the path, a plain value assigned at its start comes to the
field at its end, and that field and all references on the way are told. The induction is along
the path; the field of a reference is read anew while the references before it are under
evaluation still. -/
theorem Space.Crosses.write_ok (h : s.Crosses behind id p cells stop) (hw : s.WellKept)
    (hq : s.Quiet) (hend : stop.field s = some (e, l))
    (hl : (s.record e.1).fields.field? e.2 = none → l ≠ .empty) (hv : v.isCell = false)
    (hσ : σ.space = s) (hf : σ.flight = behind) (hroom : cells.length ≤ room) :
    ∃ k u, writeWithin limit room id p v σ = .ok k { σ with space := u } ∧
      (∀ j f, s.slot? id p = some (j, f) → j = k) ∧ u.Quiet ∧
      Space.Handed s (stop.assigned s v) u (cells ++ [e]) v := by
  induction h generalizing room σ with
  | @plain behind id p k f hs hcell =>
    cases hend
    subst hσ
    have hplain : writeWithin limit room id p v σ = Eval.writePlain id p v σ := by
      refine writeWithin_of_plain fun k l c hs' => ?_
      rw [hs] at hs'
      cases hs'
      cases hcell
    have ha := Holder.assign_run v hs
    have hk : ((σ.space.assigned id k f v).record id).fields.field? k =
        some { f with value := v } := by
      rw [Space.field?_assigned, if_pos ⟨rfl, rfl⟩]
    obtain ⟨t, hrun, ht⟩ := Eval.writePlain_handed (hq.after_assign ha) ha hk
      (σ.space.changes_setContents _ _)
    refine ⟨k, t, hplain.trans hrun, fun j g hj => ?_, ht⟩
    rw [hs] at hj
    cases hj
    rfl
  | @missing behind id l hk ha =>
    cases hend
    subst hσ
    have hs : σ.space.slot? id (.label l) = none := by
      simp [Space.slot?, Container.slot?, Container.resolve, hk]
    have hplain : writeWithin limit room id (.label l) v σ =
        Eval.writePlain id (.label l) v σ := by
      refine writeWithin_of_plain fun k m c hs' => ?_
      rw [hs] at hs'
      cases hs'
    have happend := Holder.assign_run_new v hk
    have hk' : ((σ.space.appended id l v).record id).fields.field? ⟨σ.space.nextKey⟩ =
        some ⟨l, v⟩ := by
      rw [Space.field?_appended, if_pos ⟨rfl, rfl⟩]
    obtain ⟨t, hrun, ht⟩ := Eval.writePlain_handed (hq.after_assign happend) happend hk'
      (Space.changes_setContents _ _ _)
    refine ⟨_, t, hplain.trans hrun, fun j g hj => ?_, ht⟩
    rw [hs] at hj
    cases hj
  | ring => cases hend
  | dropped => cases hend
  | @reference behind id p k m target n cells stop hs hk ha hpath ih =>
    subst hσ
    obtain ⟨room, rfl⟩ : ∃ r, room = r + 1 := ⟨room - 1, by rw [List.length_cons] at hroom; omega⟩
    have hk' : (id, k) ∉ σ.flight := hf ▸ hk
    obtain ⟨j, u, hrun, -, hquiet, hh⟩ := ih (σ := { σ with flight := (id, k) :: σ.flight }) hend
      rfl (by rw [← hf]) (Nat.le_of_succ_le_succ hroom)
    have hfollow := Eval.follow_run (σ := { σ with flight := (id, k) :: σ.flight })
      (.refl σ.space) target n
    rw [if_pos ha] at hfollow
    have hassign : Cell.assign (readWithin limit room) (writeWithin limit room) id k v
        (.reference target n) { σ with flight := (id, k) :: σ.flight } =
        .ok () { σ with space := u, flight := (id, k) :: σ.flight } := by
      rw [Cell.assign, bind_of_ok hfollow, discard_of_ok hrun]
    have hguarded : Eval.guarded id k m (Cell.assign (readWithin limit room)
        (writeWithin limit room) id k v (.reference target n)) σ =
        .ok () { σ with space := u } := by
      refine Eval.guarded_eq_ok.mpr ⟨hk', _, hassign, ?_⟩
      simp
    have hbase := (Space.Crosses.reference (Space.slot?_key hs) hk ha hpath).after_assigned hw hend
      hl hv
    have hover : Session.Over { σ with space := u } (stop.assigned σ.space v) :=
      ⟨hh.agree, hquiet.ascending, hquiet.pending⟩
    have hread : readWithin limit (room + 1) id (.key k) { σ with space := u } =
        .ok v { σ with space := u } := hbase.read_ok hover hf hroom
    have hfield := hpath.slot?_cell hw v (Space.slot?_key hs)
    refine ⟨k, _, ?_, fun j g hj => ?_, hquiet.setChanges id _,
      hh.note (f := ⟨m, _⟩) ((Container.slot?_eq_some ..).mp hfield).2⟩
    · rw [writeWithin, writeBy_through hs hv, bind_of_ok hguarded, Eval.noteEffective,
        bind_of_ok hread]
      rfl
    · rw [hs] at hj
      cases hj
      rfl

/-- Without an end to assign to, or without the room to come to it, a write faults and leaves the
space as it is. -/
theorem Space.Crosses.write_fails (h : s.Crosses behind id p cells stop) (hv : v.isCell = false)
    (hσ : σ.space = s) (hf : σ.flight = behind)
    (hbad : stop.field s = none ∨ room < stop.depth cells.length) :
    ∃ w τ, writeWithin limit room id p v σ = .error w τ ∧ τ.space = s := by
  have deep : ∀ {σ : Session} {id p k m c}, σ.space = s →
      σ.space.slot? id p = some (k, ⟨m, .cell c⟩) →
      ∃ w τ, writeWithin limit 0 id p v σ = .error w τ ∧ τ.space = s := by
    intro σ id p k m c hσ hs
    rw [writeWithin, writeBy_through hs hv]
    exact ⟨_, σ, rfl, hσ⟩
  have fails : ∀ {σ : Session} {room id p k m c}, σ.space = s →
      σ.space.slot? id p = some (k, ⟨m, .cell c⟩) → (id, k) ∉ σ.flight →
      (∃ w τ, Cell.assign (readWithin limit room) (writeWithin limit room) id k v c
        { σ with flight := (id, k) :: σ.flight } = .error w τ ∧ τ.space = s) →
      ∃ w τ, writeWithin limit (room + 1) id p v σ = .error w τ ∧ τ.space = s := by
    rintro σ room id p k m c hσ hs hk ⟨w, τ, hrun, hτ⟩
    have hk' : ¬ σ.flight.contains (id, k) = true := by simpa using hk
    have hguarded : Eval.guarded id k m (Cell.assign (readWithin limit room)
        (writeWithin limit room) id k v c) σ = _ := Eval.guarded_of_not_mem _ hk'
    rw [Eval.andThen, hrun] at hguarded
    rw [writeWithin, writeBy_through hs hv, bind_of_error hguarded]
    refine ⟨w, _, rfl, ?_⟩
    cases w <;> exact hτ
  induction h generalizing room σ with
  | plain => exact absurd hbad (not_or.mpr ⟨Option.some_ne_none _, Nat.not_lt_zero room⟩)
  | missing => exact absurd hbad (not_or.mpr ⟨Option.some_ne_none _, Nat.not_lt_zero room⟩)
  | @ring behind id p k m target n hs hk =>
    subst hσ
    cases room with
    | zero => exact deep rfl hs
    | succ room =>
      have hguarded : Eval.guarded id k m (Cell.assign (readWithin limit room)
          (writeWithin limit room) id k v (.reference target n)) σ = _ :=
        Eval.guarded_of_mem _ (List.contains_iff_mem.mpr (hf ▸ hk))
      rw [writeWithin, writeBy_through hs hv, bind_of_error hguarded]
      exact ⟨_, σ, rfl, rfl⟩
  | @dropped behind id p k m target n hs hk ha =>
    subst hσ
    cases room with
    | zero => exact deep rfl hs
    | succ room =>
      refine fails rfl hs (hf ▸ hk) ?_
      have hfollow := Eval.follow_run (σ := { σ with flight := (id, k) :: σ.flight })
        (.refl σ.space) target n
      rw [ha] at hfollow
      rw [Cell.assign, bind_of_error hfollow]
      exact ⟨_, _, rfl, rfl⟩
  | @reference behind id p k m target n cells stop hs hk ha _ ih =>
    subst hσ
    cases room with
    | zero => exact deep rfl hs
    | succ room =>
      refine fails rfl hs (hf ▸ hk) ?_
      rw [List.length_cons, Stop.depth_succ] at hbad
      obtain ⟨w, τ, hrun, hτ⟩ := ih (σ := { σ with flight := (id, k) :: σ.flight }) rfl
        (by rw [← hf]) (hbad.imp_right Nat.lt_of_succ_lt_succ)
      have hfollow := Eval.follow_run (σ := { σ with flight := (id, k) :: σ.flight })
        (.refl σ.space) target n
      rw [if_pos ha] at hfollow
      rw [Cell.assign, bind_of_ok hfollow, discard_of_error hrun]
      exact ⟨w, τ, rfl, hτ⟩

end Writing

section Requests

variable {s : Space} {cells : List (RecordId × Key)} {id : RecordId} {p : Place} {k : Key}
  {f : Field} {l : Label} {v w : Value} {stop : Stop} {e : RecordId × Key}

theorem Space.Crosses.read (h : s.Crosses [] id p cells stop) (hq : s.Quiet) :
    (stop.depth cells.length ≤ (s.record id).maxDepth →
      (∀ w, stop.outcome s = .ok w → id.read p s = .ok w s) ∧
      ∀ w, stop.outcome s = .error w → id.read p s = .error w s) ∧
    ((s.record id).maxDepth < stop.depth cells.length →
      id.read p s = .error (.tooDeep (s.record id).maxDepth) s) := by
  have ends : ∀ {w}, (⟨(s.record id).maxDepth, { space := s }, .read id p⟩ : Moment).fault?
      (s.record id).maxDepth = some w → id.read p s = .error w s := by
    intro w hw
    rw [fault?_read, ← fault_run] at hw
    obtain ⟨t, ht⟩ := fault_eq_some_iff.mp hw
    have hread : id.read p s = .error w t := ht
    have hsame := id.read_same p s hq
    rw [final_of_error hread] at hsame
    rwa [hsame] at hread
  refine ⟨fun hroom => ⟨fun w hw => ?_, fun w hw => ?_⟩, fun hroom => ?_⟩
  · cases stop with
    | plain j q f =>
      cases hw
      exact Eval.run_eq_ok.mpr ⟨_, h.read_ok hq.over rfl hroom, rfl⟩
    | _ => cases hw
  · exact ends (h.read_fault hw (.refl s) rfl hroom)
  · exact ends (h.read_tooDeep (.refl s) rfl hroom)

end Requests

/-- In a space where all records allow `d` nested cells and hold no cells but references, from
every field a path leads along different references to an end. -/
theorem Reachable.references_followed {s : Space} (h : Reachable s) {d : Nat}
    (hd : ∀ id, s.alive id = true → (s.record id).maxDepth = d) (hr : s.OnlyReferences)
    {id : RecordId} {p : Place} {k : Key} {f : Field} (hs : s.slot? id p = some (k, f)) :
    ∃ cells stop, s.Crosses [] id p cells stop ∧ cells.Nodup ∧
      (stop.depth cells.length ≤ d →
        (∀ w, stop.outcome s = .ok w → id.read p s = .ok w s) ∧
        ∀ w, stop.outcome s = .error w → id.read p s = .error w s) ∧
      (d < stop.depth cells.length → id.read p s = .error (.tooDeep d) s) ∧
      ∀ v, v.isCell = false →
        (∀ e l, stop.field s = some (e, l) → cells.length ≤ d →
          ∃ t, id.write p v s = .ok k t ∧ s.Handed (stop.assigned s v) t (cells ++ [e]) v ∧
            ∀ g ∈ cells ++ [e], ∀ r m, t.slot? g.1 r = some (g.2, m) → g.1.read r t = .ok v t) ∧
        (stop.field s = none ∨ d < stop.depth cells.length →
          ∃ w, id.write p v s = .error w s) := by
  obtain ⟨cells, stop, hpath⟩ := h.wellKept.exists_crosses hr List.nodup_nil nofun
    (n := s.fieldKeys.length) (by simp) hs
  have hlimit : (s.record id).maxDepth = d := hd id (Space.alive_of_slot? hs)
  have hread := hpath.read h.quiet
  rw [hlimit] at hread
  refine ⟨cells, stop, hpath, hpath.nodup.1, hread.1, hread.2, fun v hv => ⟨?_, ?_⟩⟩
  · intro e l hend hroom
    have hl : (s.record e.1).fields.field? e.2 = none → l ≠ .empty := by
      cases stop with
      | plain j q g =>
        cases hend
        obtain ⟨hslot, -⟩ := hpath.at_end.1 j q g rfl
        rw [((Container.slot?_eq_some ..).mp hslot).2]
        exact nofun
      | missing j m =>
        cases hend
        refine fun _ => hpath.label_ne_empty hr ?_
        rintro rfl
        have hkey := Space.key?_of_slot? hs
        exact (((h.wellKept.contents (.record id)).key?_iff _ _).mp hkey).1 rfl
      | _ => cases hend
    obtain ⟨j, t, hrun, hkey, hquiet, hh⟩ := hpath.write_ok h.wellKept h.quiet hend hl
      hv (σ := { space := s }) rfl rfl hroom
    obtain rfl := hkey k f hs
    have hwrite : id.write p v s = .ok k t := by
      have hrun' : Eval.run (writeWithin (s.record id).maxDepth (s.record id).maxDepth id p v) s =
          .ok k t := by
        rw [hlimit]
        exact Eval.run_eq_ok.mpr ⟨_, hrun, rfl⟩
      exact hrun'
    refine ⟨t, hwrite, hh, fun g hg r m hr' => ?_⟩
    have hbase := hpath.after_assigned h.wellKept hend hl hv
    obtain ⟨cells', hfrom, hlen⟩ := hbase.of_mem hg
    have hpath' := (hfrom.congr hh.agree).of_slot (Space.slot?_key hr') hr'
    have hlimit' : (t.record g.1).maxDepth = d := by
      have hsame := id.write_moves Space.closedForWrites_sameLimits p v s
      rw [final_of_ok hwrite] at hsame
      exact (hsame g.1).trans (hd g.1 (hpath.alive_of_mem hend hg))
    refine ((hpath'.read hquiet).1 ?_).1 v rfl
    rw [hlimit']
    exact hlen.trans hroom
  · intro hbad
    obtain ⟨w, τ, hrun, hτ⟩ := hpath.write_fails hv (σ := { space := s }) rfl rfl hbad
    refine ⟨w, ?_⟩
    have hrun' : Eval.run (writeWithin (s.record id).maxDepth (s.record id).maxDepth id p v) s =
        .error w s := by
      rw [hlimit, Eval.run, hrun]
      dsimp only
      rw [hτ]
    exact hrun'

/-- A field of the first record stands for one of the second, which stands for one of the third. -/
def twoAliases : List Operation :=
  [.newRecord none 2, .newRecord none 2, .newRecord none 2,
    .record ⟨3⟩ (.add (.name "c") (.bool false)),
    .record ⟨2⟩ (.add (.name "b") (.cell (.reference ⟨3⟩ (.name "c")))),
    .record ⟨1⟩ (.add (.name "a") (.cell (.reference ⟨2⟩ (.name "b"))))]

theorem twoAliases_allows (id : RecordId) (h : (Space.after twoAliases).alive id = true) :
    ((Space.after twoAliases).record id).maxDepth = 2 := by
  have hall : ∀ e ∈ (Space.after twoAliases).records.entries, e.2.maxDepth = 2 := by
    decide +kernel
  obtain ⟨r, hr⟩ := Option.isSome_iff_exists.mp h
  have hid : (Space.after twoAliases).record id = r := by simp [Space.record, hr]
  rw [hid]
  exact hall _ (Table.mem_of_lookup hr)

theorem twoAliases_onlyReferences : (Space.after twoAliases).OnlyReferences := by
  have hall : ∀ e ∈ (Space.after twoAliases).records.entries,
      ∀ g ∈ e.2.fields.fields.entries, g.2.value.refersOnly = true := by
    decide +kernel
  intro id k f hf
  cases hr : (Space.after twoAliases).records.get? id with
  | none =>
    rw [Space.record, hr] at hf
    cases hf
  | some r =>
    rw [Space.record, hr] at hf
    exact hall _ (Table.mem_of_lookup hr) _ (Table.mem_of_lookup hf)

theorem twoAliases_crosses : (Space.after twoAliases).Crosses [] ⟨1⟩ (.label (.name "a"))
    [(⟨1⟩, ⟨3⟩), (⟨2⟩, ⟨2⟩)] (.plain ⟨3⟩ ⟨1⟩ ⟨.name "c", .bool false⟩) :=
  .reference rfl (by decide) rfl (.reference rfl (by decide) rfl (.plain rfl rfl))

theorem references_followed_twoAliases :
    RecordId.read ⟨1⟩ (.label (.name "a")) (Space.after twoAliases) =
        .ok (.bool false) (Space.after twoAliases) ∧
      ∃ t, RecordId.write ⟨1⟩ (.label (.name "a")) (.bool true) (Space.after twoAliases) =
          .ok ⟨3⟩ t ∧
        (t.record ⟨2⟩).changes.get? ⟨2⟩ = some ⟨.name "b", .bool true⟩ := by
  have hs : (Space.after twoAliases).slot? ⟨1⟩ (.label (.name "a")) =
      some (⟨3⟩, ⟨.name "a", .cell (.reference ⟨2⟩ (.name "b"))⟩) := rfl
  obtain ⟨cells, stop, hpath, -, hread, -, hwrite⟩ :=
    (Reachable.after twoAliases).references_followed twoAliases_allows twoAliases_onlyReferences hs
  obtain ⟨rfl, rfl⟩ := twoAliases_crosses.unique hpath
  obtain ⟨t, ht, hh, -⟩ := (hwrite (.bool true) rfl).1 (⟨3⟩, ⟨1⟩) (.name "c") rfl (by decide)
  obtain ⟨f, hf, hnoted⟩ := hh.noted (⟨2⟩, ⟨2⟩) (by decide)
  cases hf
  exact ⟨(hread (by decide)).1 _ rfl, t, ht, hnoted⟩

end LiveRecords
