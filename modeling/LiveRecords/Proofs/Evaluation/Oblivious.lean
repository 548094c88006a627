import LiveRecords.Proofs.Evaluation.Agreement
import LiveRecords.Proofs.Evaluation.Moves

/-! # Nothing looks at the changes

Spaces are alike if they differ at most in the changes that are noted of their records. A program
run in either of two such spaces answers the same, leaves alike spaces behind, and adds the same
notes to the changes of both.
-/

namespace LiveRecords

/-- A write that is noted. -/
structure Note where
  record : RecordId
  key : Key
  field : Field

namespace Note

/-- The changes of a record, with what is noted of it added. -/
def replay (id : RecordId) (notes : List Note) (c : Changes) : Changes :=
  notes.foldl (fun c n => if n.record = id then c.put n.key n.field else c) c

variable {id : RecordId} {notes : List Note} {c : Changes}

theorem replay_append (earlier later : List Note) :
    replay id (earlier ++ later) c = replay id later (replay id earlier c) :=
  List.foldl_append

theorem ascending_replay (hc : c.Ascending) : (replay id notes c).Ascending := by
  refine List.foldlRecOn notes _ hc fun c hc n _ => ?_
  split
  · exact hc.put _ _
  · exact hc

theorem replay_cons (n : Note) :
    replay id (n :: notes) c = replay id notes (if n.record = id then c.put n.key n.field else c) :=
  rfl

theorem get?_replay (k : Key) :
    (replay id notes c).get? k = ((replay id notes ∅).get? k).or (c.get? k) := by
  induction notes generalizing c with
  | nil => rfl
  | cons n notes ih =>
    rw [replay_cons, replay_cons]
    split
    · rw [ih, ih (c := Table.put ∅ _ _), Option.or_assoc, Table.get?_put_if, Table.get?_put_if]
      split <;> rfl
    · exact ih

end Note

/-- The record without its changes. -/
def Record.unnoted (r : Record) : Record := { r with changes := ∅ }

theorem Record.settle_unnoted (r : Record) (outcome : Except Fault Value) :
    r.unnoted.settle outcome = ((r.settle outcome).1, (r.settle outcome).2.unnoted) := by
  unfold settle unnoted
  split
  · dsimp only
    split <;> rfl
  · dsimp only
    split <;> rfl
  · dsimp only
    split <;> rfl

namespace Space

/-- The changes of a record that has been made. -/
def changesOf (s : Space) (id : RecordId) : Changes :=
  if id.number < s.nextRecord then (s.record id).changes else ∅

/-- Only records that have been made have names. -/
def Nameless (s : Space) : Prop := ∀ id, s.nextRecord ≤ id.number → (s.record id).name = none

/-- The same space but for the changes of records. -/
structure Alike (s t : Space) : Prop where
  containers : t.containers = s.containers
  derived : t.derived = s.derived
  nextKey : t.nextKey = s.nextKey
  nextContainer : t.nextContainer = s.nextContainer
  nextDerived : t.nextDerived = s.nextDerived
  nextRecord : t.nextRecord = s.nextRecord
  alive : ∀ id, t.alive id = s.alive id
  record : ∀ id, (t.record id).unnoted = (s.record id).unnoted

/-- From `s` to `t` no record gets another name. -/
structure KeepsNames (s t : Space) : Prop where
  nextRecord : s.nextRecord ≤ t.nextRecord
  name : ∀ id, id.number < s.nextRecord → (t.record id).name = (s.record id).name
  nameless : s.Nameless → t.Nameless

/-- From `s` to `t` these writes are noted. -/
structure Gains (s : Space) (notes : List Note) (t : Space) : Prop extends KeepsNames s t where
  changes : ∀ id, t.changesOf id = Note.replay id notes (s.changesOf id)

variable {s t u : Space} {id : RecordId} {r q : Record}

theorem Gains.refl (s : Space) : s.Gains [] s :=
  ⟨⟨Nat.le_refl _, fun _ _ => rfl, fun h => h⟩, fun _ => rfl⟩

theorem Gains.trans {earlier later : List Note} (h : s.Gains earlier t) (h' : t.Gains later u) :
    s.Gains (earlier ++ later) u where
  nextRecord := Nat.le_trans h.nextRecord h'.nextRecord
  name id hid := (h'.name id (Nat.lt_of_lt_of_le hid h.nextRecord)).trans (h.name id hid)
  nameless := h'.nameless ∘ h.nameless
  changes id := by rw [h'.changes, h.changes, Note.replay_append]

theorem gains_of_record (hr : ∀ id, t.record id = s.record id)
    (hn : t.nextRecord = s.nextRecord) : s.Gains [] t where
  nextRecord := Nat.le_of_eq hn.symm
  name id _ := by rw [hr]
  nameless h id hid := by
    rw [hr]
    exact h id (hn ▸ hid)
  changes id := by
    rw [changesOf, changesOf, hr, hn]
    rfl

theorem keepsNames_setRecord (hn : r.name = (s.record id).name) :
    s.KeepsNames (s.setRecord id r) := by
  have hname : ∀ j, ((s.setRecord id r).record j).name = (s.record j).name := by
    intro j
    rw [record_setRecord]
    split
    · rename_i hj
      rw [hn, hj]
    · rfl
  exact ⟨Nat.le_refl _, fun j _ => hname j, fun h j hj => (hname j).trans (h j hj)⟩

theorem gains_setRecord (hn : r.name = (s.record id).name)
    (hc : r.changes = (s.record id).changes) : s.Gains [] (s.setRecord id r) := by
  have hchanges : ∀ j, ((s.setRecord id r).record j).changes = (s.record j).changes := by
    intro j
    rw [record_setRecord]
    split
    · rename_i hj
      rw [hc, hj]
    · rfl
  refine ⟨keepsNames_setRecord hn, fun j => ?_⟩
  rw [changesOf, hchanges]
  rfl

theorem gains_setContents (h : Holder) (c : Container) : s.Gains [] (s.setContents h c) := by
  cases h with
  | shared id => exact gains_of_record (fun _ => rfl) rfl
  | record id => exact gains_setRecord rfl rfl

/-- What is noted of a record that has not been made yet goes when it is made. -/
def notes (s : Space) (id : RecordId) (k : Key) (f : Field) : List Note :=
  if id.number < s.nextRecord then [⟨id, k, f⟩] else []

theorem gains_note (id : RecordId) (k : Key) (l : Label) (v : Value) :
    s.Gains (s.notes id k ⟨l, v⟩)
      (s.setRecord id { s.record id with changes := (s.record id).changes.record k l v }) := by
  refine ⟨keepsNames_setRecord rfl, fun j => ?_⟩
  rw [changesOf, changesOf, record_setRecord, notes]
  change (if j.number < s.nextRecord then _ else _) = _
  by_cases hid : id.number < s.nextRecord
  · rw [if_pos hid]
    by_cases hj : j = id
    · subst hj
      rw [if_pos hid, if_pos rfl, if_pos hid, Note.replay_cons, if_pos rfl]
      rfl
    · rw [if_neg hj, Note.replay_cons, if_neg (Ne.symm hj)]
      rfl
  · rw [if_neg hid]
    by_cases hj : j = id
    · subst hj
      rw [if_neg hid, if_neg hid]
      rfl
    · rw [if_neg hj]
      rfl

namespace Alike

theorem refl (s : Space) : s.Alike s :=
  ⟨rfl, rfl, rfl, rfl, rfl, rfl, fun _ => rfl, fun _ => rfl⟩

theorem trans (h : s.Alike t) (h' : t.Alike u) : s.Alike u :=
  ⟨h'.containers.trans h.containers, h'.derived.trans h.derived, h'.nextKey.trans h.nextKey,
    h'.nextContainer.trans h.nextContainer, h'.nextDerived.trans h.nextDerived,
    h'.nextRecord.trans h.nextRecord, fun id => (h'.alive id).trans (h.alive id),
    fun id => (h'.record id).trans (h.record id)⟩

theorem setRecord (h : s.Alike t) (id : RecordId) (hr : q.unnoted = r.unnoted) :
    (s.setRecord id r).Alike (t.setRecord id q) := by
  refine ⟨h.containers, h.derived, h.nextKey, h.nextContainer, h.nextDerived, h.nextRecord,
    fun j => ?_, fun j => ?_⟩
  · rw [alive_setRecord, alive_setRecord, h.alive]
  · rw [record_setRecord, record_setRecord]
    split
    · exact hr
    · exact h.record j

variable (h : s.Alike t)
include h

theorem name (id : RecordId) : (t.record id).name = (s.record id).name :=
  (congrArg Record.name (h.record id) :)

theorem maxDepth (id : RecordId) : (t.record id).maxDepth = (s.record id).maxDepth :=
  (congrArg Record.maxDepth (h.record id) :)

theorem fields (id : RecordId) : (t.record id).fields = (s.record id).fields :=
  (congrArg Record.fields (h.record id) :)

theorem agree : s.Agree t :=
  ⟨h.containers, h.derived, h.nextKey, h.alive, h.name, h.fields⟩

theorem setContents (g : Holder) (c : Container) :
    (s.setContents g c).Alike (t.setContents g c) := by
  cases g with
  | shared id =>
    refine ⟨?_, h.derived, h.nextKey, h.nextContainer, h.nextDerived, h.nextRecord, h.alive,
      h.record⟩
    simp only [Space.setContents, setContainer, h.containers]
  | record id =>
    exact h.setRecord id (congrArg (fun r : Record => { r with fields := c }) (h.record id) :)

theorem notes (id : RecordId) (k : Key) (f : Field) : t.notes id k f = s.notes id k f := by
  rw [Space.notes, h.nextRecord, Space.notes]

end Alike

/-- The space before anything is noted. -/
def unnoted (s : Space) : Space :=
  { s with records := ⟨s.records.entries.map fun (id, r) => (id, r.unnoted)⟩ }

theorem get?_unnoted (s : Space) (id : RecordId) :
    s.unnoted.records.get? id = (s.records.get? id).map Record.unnoted := by
  change Table.lookup id (s.records.entries.map _) = (Table.lookup id s.records.entries).map _
  induction s.records.entries with
  | nil => rfl
  | cons e es ih =>
    rw [List.map_cons, Table.lookup, Table.lookup, ih]
    split <;> rfl

theorem record_unnoted (s : Space) (id : RecordId) :
    s.unnoted.record id = (s.record id).unnoted := by
  rw [record, record, get?_unnoted]
  cases s.records.get? id <;> rfl

theorem alike_unnoted (s : Space) : s.Alike s.unnoted where
  containers := rfl
  derived := rfl
  nextKey := rfl
  nextContainer := rfl
  nextDerived := rfl
  nextRecord := rfl
  alive id := by
    rw [alive, alive, Table.contains, Table.contains, get?_unnoted]
    cases s.records.get? id <;> rfl
  record id := by
    rw [record_unnoted]
    rfl

theorem changesOf_unnoted (s : Space) (id : RecordId) : s.unnoted.changesOf id = ∅ := by
  rw [changesOf, record_unnoted]
  exact ite_self _

theorem changesOf_setChanges (s : Space) (id j : RecordId) :
    (s.setRecord id { s.record id with changes := ∅ }).changesOf j =
      if j = id then ∅ else s.changesOf j := by
  rw [changesOf, record_setRecord]
  by_cases hj : j = id
  · rw [if_pos hj, if_pos hj]
    exact ite_self _
  · rw [if_neg hj, if_neg hj]
    rfl

theorem ascending_unnoted (h : s.records.Ascending) : s.unnoted.records.Ascending :=
  List.pairwise_map.mpr h

theorem alike_setChanges (hl : s.alive id = true) (c : Changes) :
    s.Alike (s.setRecord id { s.record id with changes := c }) := by
  refine ⟨rfl, rfl, rfl, rfl, rfl, rfl, fun j => ?_, fun j => ?_⟩
  · rw [alive_setRecord]
    by_cases hj : j = id <;> simp [hj, hl]
  · rw [record_setRecord]
    split
    · rename_i hj
      rw [hj]
      rfl
    · rfl

theorem alive_of_changes (h : (s.record id).changes.isEmpty = false) : s.alive id = true := by
  rw [alive, Table.contains]
  cases hr : s.records.get? id with
  | some r => rfl
  | none =>
    rw [record, hr] at h
    cases h

end Space

/-- The same session but for the changes of records. -/
structure Session.Alike (σ τ : Session) : Prop where
  space : σ.space.Alike τ.space
  flight : τ.flight = σ.flight
  targets : τ.targets = σ.targets

theorem Session.Alike.setRecord {σ τ : Session} (h : σ.Alike τ) (id : RecordId) {r q : Record}
    (hr : q.unnoted = r.unnoted) :
    Session.Alike { σ with space := σ.space.setRecord id r }
      { τ with space := τ.space.setRecord id q } :=
  ⟨h.space.setRecord id hr, h.flight, h.targets⟩

/-- States that have a space in them. -/
class HasSpace (σ : Type) where
  space : σ → Space
  Alike : σ → σ → Prop

instance : HasSpace Space := ⟨id, Space.Alike⟩

instance : HasSpace Session := ⟨Session.space, Session.Alike⟩

section Programs

variable {σ α β : Type} [HasSpace σ]

/-- Two programs ended the same in alike states, the second of them, which began in `t`, having
noted these writes. -/
inductive Together (notes : List Note) (t : σ) :
    EStateM.Result Fault σ α → EStateM.Result Fault σ α → Prop where
  | ok {a s' t'} (ha : HasSpace.Alike s' t')
      (hg : (HasSpace.space t).Gains notes (HasSpace.space t')) :
      Together notes t (.ok a s') (.ok a t')
  | error {e s' t'} (ha : HasSpace.Alike s' t')
      (hg : (HasSpace.space t).Gains notes (HasSpace.space t')) :
      Together notes t (.error e s') (.error e t')

/-- Which changes are there already makes no difference to a program but that what it notes is
added to them. -/
def Oblivious (m : EStateM Fault σ α) : Prop :=
  ∀ s, ∃ notes, ∀ t, HasSpace.Alike s t → Together notes t (m s) (m t)

variable {m : EStateM Fault σ α} {f : α → EStateM Fault σ β} {s t : σ}

theorem Together.after {earlier later : List Note} {t u : σ} {r q : EStateM.Result Fault σ α}
    (hg : (HasSpace.space t).Gains earlier (HasSpace.space u)) (h : Together later u r q) :
    Together (earlier ++ later) t r q := by
  cases h with
  | ok ha hg' => exact .ok ha (hg.trans hg')
  | error ha hg' => exact .error ha (hg.trans hg')

/-- A program that changes nothing, and answers the same in alike states. -/
theorem oblivious_of_outcome (outcome : σ → Except Fault α)
    (hm : ∀ s, m s = match outcome s with
      | .ok a => .ok a s
      | .error e => .error e s)
    (h : ∀ s t, HasSpace.Alike s t → outcome t = outcome s) : Oblivious m := by
  refine fun s => ⟨[], fun t ht => ?_⟩
  rw [hm, hm, h s t ht]
  cases outcome s with
  | ok a => exact .ok ht (.refl _)
  | error e => exact .error ht (.refl _)

theorem oblivious_pure (a : α) : Oblivious (pure a : EStateM Fault σ α) :=
  oblivious_of_outcome (fun _ => .ok a) (fun _ => rfl) fun _ _ _ => rfl

theorem oblivious_throw (e : Fault) : Oblivious (throw e : EStateM Fault σ α) :=
  oblivious_of_outcome (fun _ => .error e) (fun _ => rfl) fun _ _ _ => rfl

theorem oblivious_ofExcept (r : Except Fault α) :
    Oblivious (MonadExcept.ofExcept r : EStateM Fault σ α) :=
  oblivious_of_outcome (fun _ => r) (fun _ => by cases r <;> rfl) fun _ _ _ => rfl

theorem Oblivious.bind (hm : Oblivious m) (hf : ∀ a, Oblivious (f a)) : Oblivious (m >>= f) := by
  intro s
  obtain ⟨notes, hs⟩ := hm s
  cases hr : m s with
  | error e s' =>
    refine ⟨notes, fun t ht => ?_⟩
    have h := hs t ht
    rw [hr] at h
    rw [bind_of_error hr]
    generalize hq : m t = q at h
    cases h with
    | error ha hg =>
      rw [bind_of_error hq]
      exact .error ha hg
  | ok a s' =>
    obtain ⟨later, hs'⟩ := hf a s'
    refine ⟨notes ++ later, fun t ht => ?_⟩
    have h := hs t ht
    rw [hr] at h
    rw [bind_of_ok hr]
    generalize hq : m t = q at h
    cases h with
    | ok ha hg =>
      rw [bind_of_ok hq]
      exact (hs' _ ha).after hg

theorem oblivious_get_bind {f : σ → EStateM Fault σ β} (hf : ∀ s, Oblivious (f s))
    (h : ∀ s t, HasSpace.Alike s t → f t = f s) : Oblivious (get >>= f) := by
  intro s
  obtain ⟨notes, hs⟩ := hf s s
  refine ⟨notes, fun t ht => ?_⟩
  have hget : ∀ u : σ, (get >>= f) u = f u u := fun _ => rfl
  rw [hget, hget, h s t ht]
  exact hs t ht

theorem Oblivious.map (f : α → β) (hm : Oblivious m) : Oblivious (f <$> m) :=
  hm.bind fun a => oblivious_pure (f a)

theorem Oblivious.discard (hm : Oblivious m) : Oblivious (discard m) := hm.map _

theorem oblivious_forM {f : α → EStateM Fault σ Unit} (l : List α) (h : ∀ a, Oblivious (f a)) :
    Oblivious (l.forM f) := by
  induction l with
  | nil => exact oblivious_pure ()
  | cons a l ih => exact (h a).bind fun _ => ih

theorem oblivious_mapM {f : α → EStateM Fault σ β} (l : List α) (h : ∀ a, Oblivious (f a)) :
    Oblivious (l.mapM f) := by
  induction l with
  | nil => exact oblivious_pure []
  | cons a l ih =>
    rw [List.mapM_cons]
    exact (h a).bind fun _ => ih.bind fun _ => oblivious_pure _

end Programs

section Ends

variable {α : Type} {m : Edit α} {s t : Space}

theorem Together.ends {notes : List Note} (h : Together notes t (m s) (m t)) :
    (final m s).Alike (final m t) ∧ t.Gains notes (final m t) := by
  unfold final
  generalize m s = r at h
  generalize m t = q at h
  cases h with
  | ok ha hg => exact ⟨ha, hg⟩
  | error ha hg => exact ⟨ha, hg⟩

/-- From alike spaces a program leads to alike spaces, noting the same in both. -/
theorem Oblivious.ends (hm : Oblivious m) (h : s.Alike t) :
    ∃ notes, (final m s).Alike (final m t) ∧ s.Gains notes (final m s) ∧
      t.Gains notes (final m t) := by
  obtain ⟨notes, hs⟩ := hm s
  exact ⟨notes, (hs t h).ends.1, (hs s (.refl s)).ends.2, (hs t h).ends.2⟩

theorem Oblivious.get?_changesOf (hm : Oblivious m) (s : Space) (id : RecordId) (k : Key) :
    ((final m s).changesOf id).get? k =
      (((final m s.unnoted).changesOf id).get? k).or ((s.changesOf id).get? k) := by
  obtain ⟨notes, -, hs, hu⟩ := hm.ends s.alike_unnoted
  rw [hs.changes, hu.changes, s.changesOf_unnoted]
  exact Note.get?_replay k

end Ends

namespace Eval

variable {α β : Type} {m : Eval α}

theorem oblivious_space_bind {f : Space → Eval β} (hf : ∀ s, Oblivious (f s))
    (h : ∀ s t : Space, s.Alike t → f t = f s) : Oblivious (space >>= f) := by
  have hget : (space >>= f : Eval β) = get >>= fun σ => f σ.space := rfl
  rw [hget]
  exact oblivious_get_bind (fun σ => hf σ.space) fun σ τ hτ => h _ _ hτ.space

theorem oblivious_target : Oblivious target := by
  refine oblivious_of_outcome (fun σ => σ.targets.head?.elim
    (.error (.refused .outsideRecord)) .ok) (fun σ => ?_) fun σ τ h => ?_
  · rw [target_run]
    cases σ.targets <;> rfl
  · rw [h.targets]

theorem oblivious_edit {e : Edit α} (he : Oblivious e) : Oblivious (edit e) := by
  intro σ
  obtain ⟨notes, hs⟩ := he σ.space
  refine ⟨notes, fun τ hτ => ?_⟩
  have h := hs τ.space hτ.space
  unfold edit
  generalize e σ.space = r at h
  generalize e τ.space = q at h
  cases h with
  | ok ha hg => exact .ok ⟨ha, hτ.flight, hτ.targets⟩ hg
  | error ha hg => exact .error ⟨ha, hτ.flight, hτ.targets⟩ hg

theorem oblivious_run (hm : Oblivious m) : Oblivious (run m) := by
  intro s
  obtain ⟨notes, hs⟩ := hm { space := s }
  refine ⟨notes, fun t ht => ?_⟩
  have h := hs { space := t } ⟨ht, rfl, rfl⟩
  unfold run
  generalize m { space := s } = r at h
  generalize m { space := t } = q at h
  cases h with
  | ok ha hg => exact .ok ha.space hg
  | error ha hg => exact .error ha.space hg

/-- What is done to a session afterwards, besides its space, is done to both. -/
theorem together_andThen {notes : List Note} {σ τ : Session}
    (after : Except Fault α → Session → Session) (ha : ∀ o σ τ, Session.Alike σ τ →
      Session.Alike (after o σ) (after o τ)) (hs : ∀ o τ, (after o τ).space = τ.space)
    (h : Together notes τ (m σ) (m τ)) :
    Together notes τ (m.andThen after σ) (m.andThen after τ) := by
  unfold andThen
  generalize m σ = r at h
  generalize m τ = q at h
  cases h with
  | ok hl hg =>
    refine .ok (ha _ _ _ hl) ?_
    change τ.space.Gains notes (after _ _).space
    rw [hs]
    exact hg
  | error hl hg =>
    refine .error (ha _ _ _ hl) ?_
    change τ.space.Gains notes (after _ _).space
    rw [hs]
    exact hg

theorem oblivious_onTarget (id : RecordId) (hm : Oblivious m) : Oblivious (onTarget id m) := by
  intro σ
  obtain ⟨notes, hs⟩ := hm { σ with targets := id :: σ.targets }
  refine ⟨notes, fun τ hτ => ?_⟩
  rw [onTarget_run, onTarget_run]
  have h := hs { τ with targets := id :: τ.targets }
    ⟨hτ.space, hτ.flight, congrArg (id :: ·) hτ.targets⟩
  have hthen := together_andThen (fun _ τ => { τ with targets := τ.targets.tail })
    (fun _ _ _ hl => ⟨hl.space, hl.flight, congrArg List.tail hl.targets⟩) (fun _ _ => rfl) h
  exact hthen.after (.refl τ.space)

theorem oblivious_guarded (id : RecordId) (k : Key) (l : Label) (hm : Oblivious m) :
    Oblivious (guarded id k l m) := by
  intro σ
  by_cases hk : σ.flight.contains (id, k) = true
  · refine ⟨[], fun τ hτ => ?_⟩
    rw [guarded_of_mem m hk, guarded_of_mem m (hτ.flight ▸ hk), hτ.space.agree.displayName]
    exact .error hτ (.refl τ.space)
  · obtain ⟨notes, hs⟩ := hm { σ with flight := (id, k) :: σ.flight }
    refine ⟨notes, fun τ hτ => ?_⟩
    rw [guarded_of_not_mem m hk, guarded_of_not_mem m (hτ.flight ▸ hk)]
    have h := hs { τ with flight := (id, k) :: τ.flight }
      ⟨hτ.space, congrArg ((id, k) :: ·) hτ.flight, hτ.targets⟩
    refine (together_andThen _ ?_ ?_ h).after (.refl τ.space)
    · intro o σ τ hl
      split
      · exact hl
      · exact ⟨hl.space, congrArg (List.erase · (id, k)) hl.flight, hl.targets⟩
    · intro o τ
      split <;> rfl

theorem deepen_alike {σ τ : Session} (h : σ.Alike τ) (id : RecordId) :
    (deepen id σ).Alike (deepen id τ) :=
  h.setRecord id
    (congrArg (fun r : Record => { r with depth := r.depth + 1 }) (h.space.record id) :)

theorem together_conclude {σ τ : Session} (h : σ.Alike τ) (id : RecordId)
    (o : Except Fault Value) : Together [] τ (conclude id o σ) (conclude id o τ) := by
  have hopen := congrArg (fun r : Record => { r with depth := r.depth - 1 }) (h.space.record id)
  have hsettle := congrArg (Record.settle · o) hopen
  have hunnoted : ∀ r : Record, { r.unnoted with depth := r.unnoted.depth - 1 } =
      { r with depth := r.depth - 1 }.unnoted := fun _ => rfl
  rw [hunnoted, hunnoted, Record.settle_unnoted, Record.settle_unnoted, Prod.mk.injEq] at hsettle
  have hs := h.setRecord id hsettle.2
  have hg : τ.space.Gains [] (τ.space.setRecord id
      ({ τ.space.record id with depth := (τ.space.record id).depth - 1 }.settle o).2) := by
    rw [Record.settle_record]
    exact Space.gains_setRecord rfl rfl
  unfold conclude
  dsimp only
  rw [hsettle.1]
  cases ({ σ.space.record id with depth := (σ.space.record id).depth - 1 }.settle o).1 with
  | ok v => exact .ok hs hg
  | error e => exact .error hs hg

theorem oblivious_settling (id : RecordId) {m : Eval Value} (hm : Oblivious m) :
    Oblivious (settling id m) := by
  intro σ
  obtain ⟨notes, hs⟩ := hm (deepen id σ)
  refine ⟨notes, fun τ hτ => ?_⟩
  have h := hs (deepen id τ) (deepen_alike hτ id)
  have hg : τ.space.Gains [] (deepen id τ).space := Space.gains_setRecord rfl rfl
  unfold settling
  generalize m (deepen id σ) = r at h
  generalize m (deepen id τ) = q at h
  have hadd : notes = [] ++ (notes ++ []) := by simp
  rw [hadd]
  cases h with
  | ok ha hn => exact ((together_conclude ha id _).after hn).after hg
  | error ha hn => exact ((together_conclude ha id _).after hn).after hg

theorem oblivious_followedBy {m after : Eval Unit} (hm : Oblivious m) (ha : Oblivious after) :
    Oblivious (m.followedBy after) := by
  intro σ
  obtain ⟨notes, hs⟩ := hm σ
  cases hr : m σ with
  | ok a σ' =>
    obtain ⟨later, hs'⟩ := ha σ'
    refine ⟨notes ++ later, fun τ hτ => ?_⟩
    have h := hs τ hτ
    unfold followedBy
    rw [hr] at h ⊢
    generalize m τ = q at h
    cases h with
    | ok hl hg => exact (hs' _ hl).after hg
  | error e σ' =>
    obtain ⟨later, hs'⟩ := ha σ'
    refine ⟨notes ++ later, fun τ hτ => ?_⟩
    have h := hs τ hτ
    unfold followedBy
    rw [hr] at h ⊢
    generalize m τ = q at h
    cases h with
    | @error _ _ τ' hl hg =>
      have hafter := (hs' _ hl).after hg
      dsimp only
      generalize after σ' = r at hafter
      generalize after τ' = q at hafter
      cases hafter with
      | ok hl' hg' => exact .error hl' hg'
      | error hl' hg' => exact .error hl' hg'

theorem oblivious_resolve (n : RecordName) : Oblivious (Edit.resolve n) := by
  refine oblivious_of_outcome
    (fun s => if s.alive n.target then .ok n.target else .error (.notFound (.record n.text)))
    (fun s => ?_) fun s t h => ?_
  · rw [Edit.resolve_run]
    split <;> rfl
  · rw [h.alive]

theorem oblivious_follow (target : RecordId) (l : Label) : Oblivious (Edit.follow target l) := by
  refine oblivious_of_outcome
    (fun s => if s.alive target then .ok target else .error (.notFound (.referenced l)))
    (fun s => ?_) fun s t h => ?_
  · rw [Edit.follow_run]
    split <;> rfl
  · rw [h.alive]

end Eval

section Reading

variable {read : Reader}

mutual

theorem Formula.eval_oblivious (hread : ∀ id p, Oblivious (read id p)) (f : Formula)
    (id : RecordId) : Oblivious (f.eval read id) := by
  cases f with
  | mk name apply operands =>
    refine Eval.oblivious_onTarget id ((Operand.evalAll_oblivious hread operands).bind fun vs => ?_)
    refine Eval.oblivious_space_bind (fun s => ?_) fun s t h => by rw [h.agree.plainText]
    split
    · exact oblivious_pure _
    · exact oblivious_throw _

theorem Operand.eval_oblivious (hread : ∀ id p, Oblivious (read id p)) (a : Operand) :
    Oblivious (a.eval read) := by
  cases a with
  | constant v => exact oblivious_pure v
  | here l => exact Eval.oblivious_target.bind fun id => hread id _
  | nested f => exact Eval.oblivious_target.bind fun id => Formula.eval_oblivious hread f id
  | field n =>
    exact (Eval.oblivious_edit (Eval.oblivious_resolve n.record)).bind fun id => hread id _

theorem Operand.evalAll_oblivious (hread : ∀ id p, Oblivious (read id p)) (as : List Operand) :
    Oblivious (Operand.evalAll read as) := by
  cases as with
  | nil => exact oblivious_pure []
  | cons a as =>
    exact (Operand.eval_oblivious hread a).bind fun v =>
      (Operand.evalAll_oblivious hread as).bind fun vs => oblivious_pure _

end

theorem Cell.eval_oblivious (hread : ∀ id p, Oblivious (read id p)) (owner : RecordId)
    (c : Cell) : Oblivious (c.eval read owner) := by
  cases c with
  | derived id =>
    refine Eval.oblivious_space_bind (fun s => ?_) fun s t h => by rw [h.agree.derivation]
    exact (s.derivation id).getter.eval_oblivious hread owner
  | reference target l =>
    exact (Eval.oblivious_edit (Eval.oblivious_follow target l)).bind fun id => hread id _

theorem readBy_oblivious {evaluate : RecordId → Key → Label → Cell → Eval Value}
    (he : ∀ id k l c, Oblivious (evaluate id k l c)) (id : RecordId) (p : Place) :
    Oblivious (readBy evaluate id p) := by
  refine Eval.oblivious_space_bind (fun s => ?_) fun s t h => ?_
  · split
    · exact oblivious_ofExcept _
    · exact he id _ _ _
    · exact oblivious_pure _
  · rw [h.agree.slot?, h.agree.fields, h.agree.value]

theorem readWithin_oblivious (limit room : Nat) (id : RecordId) (p : Place) :
    Oblivious (readWithin limit room id p) := by
  induction room generalizing id p with
  | zero => exact readBy_oblivious (fun id _ _ _ =>
      Eval.oblivious_settling id (oblivious_throw _)) id p
  | succ room ih =>
    refine readBy_oblivious (fun id k l c => Eval.oblivious_settling id ?_) id p
    exact Eval.oblivious_guarded id k l (c.eval_oblivious ih id)

end Reading

end LiveRecords
