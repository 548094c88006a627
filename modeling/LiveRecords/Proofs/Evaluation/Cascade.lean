import LiveRecords.Proofs.Evaluation.Reading
import LiveRecords.Proofs.Evaluation.Writing

/-! # What an assignment through cells amounts to

Assigning a field that holds a derived cell shows the value in its place, runs the reactions one
after the other, each on what the earlier ones left behind, and puts the cell back. The rules here
say so without guards, limits and failures put off: formulas have the values that plain evaluation
yields. An assignment that succeeds has done what the rules say.
-/

namespace LiveRecords

namespace Space

mutual

/-- To assign `v` to the place `p` of a record leads from `s` to `t`, while the fields in `busy`
are being assigned through their derived cells. -/
inductive Assigns : List (RecordId × Key) → Space → RecordId → Place → Value → Space → Prop where
  | plain {busy s id p v k f} :
      s.slot? id p = some (k, f) →
      (f.value.isCell = true → v.isCell = true ∨ (id, k) ∈ busy) →
      Assigns busy s id p v (s.assigned id k f v)
  | append {busy s id l v} :
      (s.record id).fields.key? l = none → Assigns busy s id (.label l) v (s.appended id l v)
  | reference {busy s id p v k l target m t} :
      s.slot? id p = some (k, ⟨l, .cell (.reference target m)⟩) → (id, k) ∉ busy →
      v.isCell = false → s.alive target = true → Assigns busy s target (.label m) v t →
      Assigns busy s id p v t
  | derived {busy s id p v k l i t g} :
      s.slot? id p = some (k, ⟨l, .cell (.derived i)⟩) → (id, k) ∉ busy → v.isCell = false →
      Reacts ((id, k) :: busy) (s.assigned id k ⟨l, .cell (.derived i)⟩ v) id
        (s.derivation i).reactions t →
      (t.record id).fields.field? k = some g →
      Assigns busy s id p v (t.assigned id k g (.cell (.derived i)))

/-- To run reactions in order on behalf of a record leads from `s` to `t`. -/
inductive Reacts :
    List (RecordId × Key) → Space → RecordId → List (Label × Formula) → Space → Prop where
  | nil {busy s id} : Reacts busy s id [] s
  | cons {busy s id output f w rest t u n} :
      s.FormulaYields n id f w → Assigns busy s id (.label output) w t →
      Reacts busy t id rest u → Reacts busy s id ((output, f) :: rest) u

end

theorem key?_of_slot? {s : Space} {id : RecordId} {l : Label} {k : Key} {f : Field}
    (h : s.slot? id (.label l) = some (k, f)) : (s.record id).fields.key? l = some k :=
  ((Container.slot?_eq_some ..).mp h).1

theorem not_plain {busy : List (RecordId × Key)} {e : RecordId × Key} {w v : Value}
    (h : w.isCell = true → v.isCell = true ∨ e ∈ busy) (hw : w.isCell = true) (he : e ∉ busy)
    (hv : v.isCell = false) : False := by
  rcases h hw with hc | hc
  · rw [hv] at hc
    cases hc
  · exact he hc

section Inversion

variable {busy : List (RecordId × Key)} {s u : Space} {id : RecordId} {p : Place} {k : Key}
  {l : Label} {v : Value}

theorem assigns_plain_iff {f : Field} (hs : s.slot? id p = some (k, f))
    (hf : f.value.isCell = true → v.isCell = true ∨ (id, k) ∈ busy) :
    Assigns busy s id p v u ↔ u = s.assigned id k f v := by
  constructor
  · intro h
    cases h with
    | plain hs' hf' =>
      rw [hs] at hs'
      cases hs'
      rfl
    | append hl =>
      rw [key?_of_slot? hs] at hl
      cases hl
    | reference hs' hb hv ha ht =>
      rw [hs] at hs'
      cases hs'
      exact (not_plain hf rfl hb hv).elim
    | derived hs' hb hv hr hg =>
      rw [hs] at hs'
      cases hs'
      exact (not_plain hf rfl hb hv).elim
  · rintro rfl
    exact .plain hs hf

theorem assigns_append_iff (hl : (s.record id).fields.key? l = none) :
    Assigns busy s id (.label l) v u ↔ u = s.appended id l v := by
  have hnone : ∀ k f, s.slot? id (.label l) ≠ some (k, f) := by
    intro k f hs
    rw [key?_of_slot? hs] at hl
    cases hl
  constructor
  · intro h
    cases h with
    | plain hs hf => exact absurd hs (hnone _ _)
    | append hl' => rfl
    | reference hs hb hv ha ht => exact absurd hs (hnone _ _)
    | derived hs hb hv hr hg => exact absurd hs (hnone _ _)
  · rintro rfl
    exact .append hl

theorem assigns_reference_iff {target : RecordId} {m : Label}
    (hs : s.slot? id p = some (k, ⟨l, .cell (.reference target m)⟩)) (hb : (id, k) ∉ busy)
    (hv : v.isCell = false) :
    Assigns busy s id p v u ↔ s.alive target = true ∧ Assigns busy s target (.label m) v u := by
  constructor
  · intro h
    cases h with
    | plain hs' hf =>
      rw [hs] at hs'
      cases hs'
      exact (not_plain hf rfl hb hv).elim
    | append hl =>
      rw [key?_of_slot? hs] at hl
      cases hl
    | reference hs' hb' hv' ha ht =>
      rw [hs] at hs'
      cases hs'
      exact ⟨ha, ht⟩
    | derived hs' hb' hv' hr hg =>
      rw [hs] at hs'
      cases hs'
  · rintro ⟨ha, ht⟩
    exact .reference hs hb hv ha ht

theorem assigns_derived_iff {i : DerivedId}
    (hs : s.slot? id p = some (k, ⟨l, .cell (.derived i)⟩)) (hb : (id, k) ∉ busy)
    (hv : v.isCell = false) :
    Assigns busy s id p v u ↔ ∃ t g,
      Reacts ((id, k) :: busy) (s.assigned id k ⟨l, .cell (.derived i)⟩ v) id
        (s.derivation i).reactions t ∧
      (t.record id).fields.field? k = some g ∧ u = t.assigned id k g (.cell (.derived i)) := by
  constructor
  · intro h
    cases h with
    | plain hs' hf =>
      rw [hs] at hs'
      cases hs'
      exact (not_plain hf rfl hb hv).elim
    | append hl =>
      rw [key?_of_slot? hs] at hl
      cases hl
    | reference hs' hb' hv' ha ht =>
      rw [hs] at hs'
      cases hs'
    | derived hs' hb' hv' hr hg =>
      rw [hs] at hs'
      cases hs'
      exact ⟨_, _, hr, hg, rfl⟩
  · rintro ⟨t, g, hr, hg, rfl⟩
    exact .derived hs hb hv hr hg

end Inversion

mutual

/-- The rules leave no choice. -/
theorem Assigns.unique {busy : List (RecordId × Key)} {s t u : Space} {id : RecordId} {p : Place}
    {v : Value} (h : Assigns busy s id p v t) (h' : Assigns busy s id p v u) : t = u := by
  match h with
  | .plain hs hf => exact ((assigns_plain_iff hs hf).mp h').symm
  | .append hl => exact ((assigns_append_iff hl).mp h').symm
  | .reference hs hb hv ha ht =>
    obtain ⟨-, ht'⟩ := (assigns_reference_iff hs hb hv).mp h'
    exact Assigns.unique ht ht'
  | .derived hs hb hv hr hg =>
    obtain ⟨t', g', hr', hg', rfl⟩ := (assigns_derived_iff hs hb hv).mp h'
    obtain rfl := Reacts.unique hr hr'
    rw [hg] at hg'
    cases hg'
    rfl
termination_by structural h

theorem Reacts.unique {busy : List (RecordId × Key)} {s t u : Space} {id : RecordId}
    {rs : List (Label × Formula)} (h : Reacts busy s id rs t) (h' : Reacts busy s id rs u) :
    t = u := by
  match h with
  | .nil =>
    cases h'
    rfl
  | .cons hw ht hr =>
    cases h' with
    | cons hw' ht' hr' =>
      obtain rfl := hw.unique hw'
      obtain rfl := Assigns.unique ht ht'
      exact Reacts.unique hr hr'
termination_by structural h

end

section Agreement

variable {s t : Space}

theorem Agree.assigned (h : Agree s t) (id : RecordId) (k : Key) (f : Field) (v : Value) :
    Agree (s.assigned id k f v) (t.assigned id k f v) := by
  rw [Space.assigned, Space.assigned, h.fields]
  exact h.setContents _ _

theorem Agree.appended (h : Agree s t) (id : RecordId) (l : Label) (v : Value) :
    Agree (s.appended id l v) (t.appended id l v) := by
  have hn : Agree { s with nextKey := s.nextKey + 1 } { t with nextKey := t.nextKey + 1 } :=
    ⟨h.containers, h.derived, congrArg (· + 1) h.nextKey, h.alive, h.name, h.fields⟩
  rw [Space.appended, Space.appended, h.fields, h.nextKey]
  rw [h.nextKey] at hn
  exact hn.setContents _ _

theorem alive_assigned (id : RecordId) (k : Key) (f : Field) (v : Value) :
    (s.assigned id k f v).alive id = true := by
  simp [Space.assigned, Space.setContents, alive_setRecord]

theorem alive_appended (id : RecordId) (l : Label) (v : Value) :
    (s.appended id l v).alive id = true := by
  simp [Space.appended, Space.setContents, alive_setRecord]

theorem Agree.setChanges (h : Agree s t) {id : RecordId} (ha : t.alive id = true)
    (changes : Changes) : Agree s (t.setRecord id { t.record id with changes }) :=
  h.trans (.setRecord ha rfl rfl)

end Agreement

end Space

open Space (Agree Assigns Reacts)

variable {α : Type}

section Simulation

variable {limit room : Nat} {σ τ : Session} {s : Space} {busy : List (RecordId × Key)}
  {id : RecordId} {p : Place} {v : Value} {k : Key}

/-- A session between whose steps no cell is under evaluation, on a space that holds what `s`
holds. -/
structure Session.At (σ : Session) (s : Space) : Prop where
  agree : Agree s σ.space
  quiet : σ.space.Quiet

theorem Session.At.over (h : σ.At s) : σ.Over s := ⟨h.agree, h.quiet.ascending, h.quiet.pending⟩

theorem Eval.edit_note_eq_ok {l : Label} {w : Value} {u : Unit}
    (h : Eval.edit (Edit.note id k l w) σ = .ok u τ) :
    τ = { σ with space := (σ.space.setRecord id { σ.space.record id with
      changes := (σ.space.record id).changes.record k l w }) } := by
  rw [Eval.edit, Edit.note_run] at h
  cases h
  rfl

theorem writePlain_assigns (ha : Agree s σ.space) (hp : (∃ l, p = .label l) ∨ (s.slot? id p).isSome)
    (hv : ∀ k l c, σ.space.slot? id p = some (k, ⟨l, .cell c⟩) → v.isCell = true)
    (h : Eval.writePlain id p v σ = .ok k τ) :
    τ.flight = σ.flight ∧ ∃ t, Assigns busy s id p v t ∧ Agree t τ.space := by
  obtain ⟨u, changes, hassign, rfl⟩ := Eval.writePlain_eq_ok h
  rw [← ha.slot?] at hp
  rcases Holder.assign_eq_ok hp hassign with ⟨f, hs, rfl⟩ | ⟨l, rfl, hl, rfl⟩
  · have hplain : Assigns busy s id p v (s.assigned id k f v) := by
      refine .plain ((ha.slot? id p).symm.trans hs) fun hf => .inl ?_
      obtain ⟨l, w⟩ := f
      cases w with
      | cell c => exact hv k l c hs
      | _ => cases hf
    exact ⟨rfl, _, hplain,
      (ha.assigned id k f v).setChanges (Space.alive_assigned id k f v) changes⟩
  · rw [ha.fields] at hl
    exact ⟨rfl, _, .append hl,
      (ha.appended id l v).setChanges (Space.alive_appended id l v) changes⟩

theorem writeWithin_quiet (limit room : Nat) (hq : σ.space.Quiet)
    (h : writeWithin limit room id p v σ = .ok k τ) : τ.space.Quiet := by
  have := writeWithin_moves Space.closedForWrites_balanced limit room id p v σ
  rw [final_of_ok h] at this
  exact this.keeps hq

/-- Evaluated between the steps of an assignment, a formula has the value that plain evaluation
yields. -/
theorem Session.At.eval (h : σ.At s) {f : Formula} {w : Value}
    (hf : f.eval (readWithin limit room) id σ = .ok w τ) : τ = σ ∧ s.FormulaYields room id f w := by
  have sound := readWithin_sound (s := s) limit room
  have hb := f.eval_moves Space.evalClosed_balanced sound.moves id σ
  rw [final_of_ok hf] at hb
  exact Formula.eval_sound sound f h.over (hb.keeps h.quiet).pending hf

/-- A successful write does what the rules say. -/
def Simulates (limit room : Nat) : Prop :=
  ∀ {σ τ : Session} {s : Space} {busy : List (RecordId × Key)} {id : RecordId} {p : Place}
    {v : Value} {k : Key}, σ.At s → busy ⊆ σ.flight →
    (∃ l, p = .label l) ∨ (s.slot? id p).isSome → writeWithin limit room id p v σ = .ok k τ →
    τ.flight = σ.flight ∧ ∃ t, Assigns busy s id p v t ∧ Agree t τ.space

theorem react_reacts (ih : Simulates limit room) {d : Derived} (rest : List (Label × Formula))
    (hσ : σ.At s) (hb : busy ⊆ σ.flight)
    (h : { d with reactions := rest }.react (readWithin limit room) (writeWithin limit room) id σ =
      .ok () τ) :
    τ.flight = σ.flight ∧ ∃ t, Reacts busy s id rest t ∧ Agree t τ.space := by
  induction rest generalizing σ s with
  | nil =>
    cases h
    exact ⟨rfl, s, .nil, hσ.agree⟩
  | cons r rest ihr =>
    obtain ⟨output, f⟩ := r
    rw [Derived.react_cons, bind_eq_ok_iff] at h
    obtain ⟨_, π, honce, hrest⟩ := h
    rw [Derived.reactOnce, bind_eq_ok_iff] at honce
    obtain ⟨w, ρ, hf, hw⟩ := honce
    obtain ⟨k, hw⟩ := discard_eq_ok_iff.mp hw
    obtain ⟨rfl, hy⟩ := hσ.eval hf
    obtain ⟨hπf, t, ht, hat⟩ := ih hσ hb (.inl ⟨output, rfl⟩) hw
    have hπ : π.At t := ⟨hat, writeWithin_quiet limit room hσ.quiet hw⟩
    obtain ⟨hτf, u, hu, hau⟩ := ihr hπ (hπf ▸ hb) hrest
    exact ⟨hτf.trans hπf, u, .cons hy ht hu, hau⟩

theorem assignCell_assigns (ih : Simulates limit room) {l : Label} {c : Cell} (hσ : σ.At s)
    (hs : s.slot? id p = some (k, ⟨l, .cell c⟩)) (hk : (id, k) ∉ busy)
    (hb : (id, k) :: busy ⊆ σ.flight) (hv : v.isCell = false)
    (h : c.assign (readWithin limit room) (writeWithin limit room) id k v σ = .ok () τ) :
    τ.flight = σ.flight ∧ ∃ t, Assigns busy s id p v t ∧ Agree t τ.space := by
  cases c with
  | derived i =>
    rw [Cell.assign, bind_of_ok (Eval.space_run σ), bind_eq_ok_iff] at h
    obtain ⟨_, ρ, hstore, h⟩ := h
    obtain ⟨f, hf, rfl⟩ := Eval.store_eq_ok hstore
    obtain ⟨π, hreact, hback⟩ := Eval.followedBy_eq_ok h
    obtain ⟨g, hg, rfl⟩ := Eval.store_eq_ok hback
    have hfs : (σ.space.record id).fields.field? k = some ⟨l, .cell (.derived i)⟩ := by
      rw [hσ.agree.fields]
      exact ((Container.slot?_eq_some ..).mp hs).2
    obtain rfl : f = ⟨l, .cell (.derived i)⟩ := Option.some.inj (hf.symm.trans hfs)
    have hquiet : (σ.space.assigned id k ⟨l, .cell (.derived i)⟩ v).Quiet := by
      have := Space.closedForWrites_balanced.store id k v σ
      rw [final_of_ok hstore] at this
      exact this.keeps hσ.quiet
    have hρ : Session.At { σ with space := σ.space.assigned id k ⟨l, .cell (.derived i)⟩ v }
        (s.assigned id k ⟨l, .cell (.derived i)⟩ v) := ⟨hσ.agree.assigned id k _ v, hquiet⟩
    rw [hσ.agree.derivation] at hreact
    obtain ⟨hπf, t, ht, hat⟩ := react_reacts ih (s.derivation i).reactions hρ hb hreact
    rw [hat.fields] at hg
    exact ⟨hπf, _, .derived hs hk hv ht hg, hat.assigned id k g _⟩
  | reference target m =>
    obtain ⟨ha, h⟩ := Eval.follow_bind_eq_ok hσ.over h
    obtain ⟨j, hw⟩ := discard_eq_ok_iff.mp h
    have hb' : busy ⊆ σ.flight := fun e he => hb (List.mem_cons_of_mem _ he)
    obtain ⟨hf, t, ht, hat⟩ := ih hσ hb' (.inl ⟨m, rfl⟩) hw
    exact ⟨hf, t, .reference hs hk hv ha ht, hat⟩

/-- After the cell is assigned, a write reads the field anew and notes what it reads. -/
theorem noteEffective_eq_ok {l : Label} {j : Key} (hσ : σ.At s)
    (h : Eval.noteEffective (readWithin limit room) id k l σ = .ok j τ) :
    ∃ w, s.Yields room id (.key k) w ∧
      τ = { σ with space := (σ.space.setRecord id { σ.space.record id with
        changes := (σ.space.record id).changes.record k l w }) } := by
  rw [Eval.noteEffective, bind_eq_ok_iff] at h
  obtain ⟨w, ρ, hr, h⟩ := h
  rw [bind_eq_ok_iff] at h
  obtain ⟨_, π, hn, h⟩ := h
  cases h
  have sound := readWithin_sound (s := s) limit room
  have hb := sound.moves id (.key k) σ
  rw [final_of_ok hr] at hb
  obtain ⟨rfl, hy⟩ := sound.ok hσ.over (hb.keeps hσ.quiet).pending hr
  exact ⟨w, hy, Eval.edit_note_eq_ok hn⟩

theorem write_through_eq_ok {l : Label} {c : Cell} {j : Key}
    (hs : σ.space.slot? id p = some (k, ⟨l, .cell c⟩)) (hv : v.isCell = false)
    (h : writeWithin limit (room + 1) id p v σ = .ok j τ) :
    (id, k) ∉ σ.flight ∧ ∃ ρ,
      c.assign (readWithin limit room) (writeWithin limit room) id k v
        { σ with flight := (id, k) :: σ.flight } = .ok () ρ ∧
      Eval.noteEffective (readWithin limit (room + 1)) id k l
        { ρ with flight := ρ.flight.erase (id, k) } = .ok j τ := by
  rw [writeWithin, writeBy_through hs hv, bind_eq_ok_iff] at h
  obtain ⟨_, π, hg, hn⟩ := h
  rw [Eval.guarded_eq_ok] at hg
  obtain ⟨hk, ρ, ha, rfl⟩ := hg
  exact ⟨hk, ρ, ha, hn⟩

theorem assignCell_quiet (limit room : Nat) {c : Cell} (hq : σ.space.Quiet)
    (h : c.assign (readWithin limit room) (writeWithin limit room) id k v σ = .ok () τ) :
    τ.space.Quiet := by
  have closed := Space.closedForWrites_balanced
  have := c.assign_moves closed.toClosed (readWithin_moves closed.toClosed limit room)
    (writeWithin_moves closed limit room) (closed.store id k) v σ
  rw [final_of_ok h] at this
  exact this.keeps hq

/-- A write through a cell assigns the cell by the rules, then notes what the field yields. -/
theorem write_through_assigns (ih : Simulates limit room) {l : Label} {c : Cell} {j : Key}
    (hσ : σ.At s) (hb : busy ⊆ σ.flight) (hs : s.slot? id p = some (k, ⟨l, .cell c⟩))
    (hv : v.isCell = false) (h : writeWithin limit (room + 1) id p v σ = .ok j τ) :
    τ.flight = σ.flight ∧ ∃ t w, Assigns busy s id p v t ∧ Agree t τ.space ∧
      t.Yields (room + 1) id (.key k) w ∧ (τ.space.record id).changes.get? k = some ⟨l, w⟩ := by
  have hs' : σ.space.slot? id p = some (k, ⟨l, .cell c⟩) := (hσ.agree.slot? id p).trans hs
  obtain ⟨hk, ρ, ha, hn⟩ := write_through_eq_ok hs' hv h
  have hguarded : Session.At { σ with flight := (id, k) :: σ.flight } s := ⟨hσ.agree, hσ.quiet⟩
  have hbusy : (id, k) :: busy ⊆ (id, k) :: σ.flight := List.cons_subset_cons _ hb
  obtain ⟨hf, t, ht, hat⟩ :=
    assignCell_assigns ih hguarded hs (fun hm => hk (hb hm)) hbusy hv ha
  have hquiet := assignCell_quiet limit room hguarded.quiet ha
  have hρ : Session.At { ρ with flight := ρ.flight.erase (id, k) } t := ⟨hat, hquiet⟩
  obtain ⟨w, hw, rfl⟩ := noteEffective_eq_ok hρ hn
  have hl : ρ.space.alive id = true := (hat.alive id).trans hw.alive
  refine ⟨?_, t, w, ht, hat.setChanges hl _, hw, ?_⟩
  · rw [hf]
    exact List.erase_cons_head ..
  · simp [Changes.record, Table.get?_put_if]

theorem writeWithin_assigns (limit room : Nat) : Simulates limit room := by
  induction room with
  | zero =>
    intro σ τ s busy id p v j hσ hb hp h
    rcases through_or_plain σ.space id p v with ⟨k, l, c, hs, hv⟩ | hv
    · rw [writeWithin, writeBy_through hs hv] at h
      cases h
    · rw [writeWithin, writeBy_plain hv] at h
      exact writePlain_assigns hσ.agree hp hv h
  | succ room ih =>
    intro σ τ s busy id p v j hσ hb hp h
    rcases through_or_plain σ.space id p v with ⟨k, l, c, hs, hv⟩ | hv
    · rw [hσ.agree.slot?] at hs
      obtain ⟨hf, t, w, ht, hat, -⟩ := write_through_assigns ih hσ hb hs hv h
      exact ⟨hf, t, ht, hat⟩
    · rw [writeWithin, writeBy_plain hv] at h
      exact writePlain_assigns hσ.agree hp hv h

end Simulation

/-- In every reachable space, a plain value assigned to a field that holds a derived cell, if the
assignment succeeds, has been assigned by the rules, in the one way they allow; and what is noted
as the change of the field is its label with what a fresh read of it answers. -/
theorem Reachable.write_cascade {s t : Space} (h : Reachable s) {id : RecordId} {p : Place}
    {k j : Key} {l : Label} {i : DerivedId} {v : Value}
    (hs : s.slot? id p = some (k, ⟨l, .cell (.derived i)⟩)) (hv : v.isCell = false)
    (hw : id.write p v s = .ok j t) :
    (∃ u, Assigns [] s id p v u ∧ (∀ u', Assigns [] s id p v u' → u' = u) ∧ u.Agree t) ∧
      ∃ w, (t.record id).changes.get? k = some ⟨l, w⟩ ∧ id.read (.key k) t = .ok w t := by
  have hquiet : t.Quiet := by
    have := Space.closed_quiet.write id p v s h.quiet
    rwa [final_of_ok hw] at this
  have hlimit : (t.record id).maxDepth = (s.record id).maxDepth := by
    have := id.write_moves Space.closedForWrites_sameLimits p v s
    rw [final_of_ok hw] at this
    exact this id
  have hrun : Eval.run (writeWithin (s.record id).maxDepth (s.record id).maxDepth id p v) s =
      .ok j t := hw
  obtain ⟨τ, hτ, rfl⟩ := Eval.run_eq_ok.mp hrun
  have hs' : ({ space := s } : Session).space.slot? id p = some (k, ⟨l, .cell (.derived i)⟩) := hs
  generalize (s.record id).maxDepth = limit at hτ hlimit
  cases limit with
  | zero =>
    rw [writeWithin, writeBy_through hs' hv] at hτ
    cases hτ
  | succ room =>
    have hσ : Session.At { space := s } s := ⟨.refl s, h.quiet⟩
    obtain ⟨-, u, w, hu, hau, hy, hnoted⟩ := write_through_assigns
      (writeWithin_assigns (room + 1) room) hσ (List.Subset.refl []) hs hv hτ
    refine ⟨⟨u, hu, fun u' hu' => hu'.unique hu, hau⟩, w, hnoted, ?_⟩
    rw [hquiet.read_eq_ok_iff, hlimit]
    exact ⟨rfl, hy.congr hau⟩

/-- Two derived fields that assign each other, the second one appending the field they read. -/
def mutualReactions : List Operation :=
  [.newRecord none 2,
    .newDerived
      { getter := .mk "first" Function.first [.here (.name "x")]
        reactions := [(.name "b", .mk "first" Function.first [.here (.name "a")])] },
    .newDerived
      { getter := .mk "first" Function.first [.here (.name "x")]
        reactions := [(.name "a", .mk "first" Function.first [.here (.name "b")]),
          (.name "x", .mk "list" Function.list [.here (.name "a"), .here (.name "b")])] },
    .record ⟨1⟩ (.add (.name "a") (.cell (.derived ⟨1⟩))),
    .record ⟨1⟩ (.add (.name "b") (.cell (.derived ⟨2⟩)))]

theorem write_cascade_mutualReactions :
    ∃ t, RecordId.write ⟨1⟩ (.label (.name "a")) (.bool true) (Space.after mutualReactions) =
        .ok ⟨1⟩ t ∧
      (∃ u, Assigns [] (Space.after mutualReactions) ⟨1⟩ (.label (.name "a")) (.bool true) u ∧
        u.Agree t) ∧
      ∃ w, (t.record ⟨1⟩).changes.get? ⟨1⟩ = some ⟨.name "a", w⟩ ∧
        RecordId.read ⟨1⟩ (.key ⟨1⟩) t = .ok w t := by
  have hs : (Space.after mutualReactions).slot? ⟨1⟩ (.label (.name "a")) =
      some (⟨1⟩, ⟨.name "a", .cell (.derived ⟨1⟩)⟩) := rfl
  have hv : (Value.bool true).isCell = false := rfl
  have ha : answer (RecordId.write ⟨1⟩ (.label (.name "a")) (.bool true))
      (Space.after mutualReactions) = some ⟨1⟩ := by decide +kernel
  obtain ⟨t, hw⟩ := answer_eq_some_iff.mp ha
  obtain ⟨⟨u, hu, -, hagree⟩, hnoted⟩ :=
    (Reachable.after mutualReactions).write_cascade hs hv hw
  exact ⟨t, hw, ⟨u, hu, hagree⟩, hnoted⟩

end LiveRecords
