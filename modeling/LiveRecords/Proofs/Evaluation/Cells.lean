import LiveRecords.Formula.Functions
import LiveRecords.Proofs.Container.Outline
import LiveRecords.Proofs.Evaluation.Quiet
import LiveRecords.Proofs.Evaluation.Writing
import LiveRecords.Proofs.Packets

/-! # Assignments leave cells in place

A derived cell gives way to a plain value while its reactions run, and they may assign anything
in the course of it. Whichever way the assignment ends, the cell is back: a field that held a cell
holds it still, unless another cell was assigned to that very field.
-/

namespace LiveRecords

/-- To assign `value` to a place of a record. -/
structure Assignment where
  id : RecordId
  place : Place
  value : Value

/-- In the course of the assignment `a`, begun in the session `σ` with so much room, the assignment
`b` is begun in `τ`. -/
inductive Performs (limit : Nat) : Nat → Session → Assignment → Session → Assignment → Prop where
  | self {room σ a} : Performs limit room σ a σ a
  | reference {room σ id p v k l target m τ b} :
      σ.space.slot? id p = some (k, ⟨l, .cell (.reference target m)⟩) → v.isCell = false →
      (id, k) ∉ σ.flight → σ.space.alive target = true →
      Performs limit room { σ with flight := (id, k) :: σ.flight } ⟨target, .label m, v⟩ τ b →
      Performs limit (room + 1) σ ⟨id, p, v⟩ τ b
  | reaction {room σ id p v k l i done output f rest ρ π w τ b} :
      σ.space.slot? id p = some (k, ⟨l, .cell (.derived i)⟩) → v.isCell = false →
      (id, k) ∉ σ.flight → (σ.space.derivation i).reactions = done ++ (output, f) :: rest →
      (Eval.store id k v >>= fun _ =>
        { σ.space.derivation i with reactions := done }.react
          (readWithin limit room) (writeWithin limit room) id)
        { σ with flight := (id, k) :: σ.flight } = .ok () ρ →
      f.eval (readWithin limit room) id ρ = .ok w π →
      Performs limit room π ⟨id, .label output, w⟩ τ b →
      Performs limit (room + 1) σ ⟨id, p, v⟩ τ b

/-- In the course of an assignment the cell `c` is assigned to the field of a record at `k`. -/
def Installs (limit room : Nat) (σ : Session) (a : Assignment) (id : RecordId) (k : Key)
    (c : Cell) : Prop :=
  ∃ τ p f, Performs limit room σ a τ ⟨id, p, .cell c⟩ ∧ τ.space.slot? id p = some (k, f)

namespace Space

/-- Every field of a record holds in `t` what it held in `s`. -/
def Retains (s t : Space) : Prop :=
  ∀ id k f, (s.record id).fields.field? k = some f → (t.record id).fields.field? k = some f

/-- A field that held a cell in `s` holds one in `t`, under the same label: the same cell, or one
that `I` says was put there. -/
def KeepsCells (I : RecordId → Key → Cell → Prop) (s t : Space) : Prop :=
  ∀ id k l c, (s.record id).fields.field? k = some ⟨l, .cell c⟩ →
    ∃ d, (t.record id).fields.field? k = some ⟨l, .cell d⟩ ∧ (d = c ∨ I id k d)

variable {s t u : Space} {I J : RecordId → Key → Cell → Prop}

instance : IsPreorder Space Retains where
  refl _ _ _ _ h := h
  trans _ _ _ h h' id k f hf := h' id k f (h id k f hf)

theorem Retains.keepsCells (h : Retains s t) : KeepsCells I s t :=
  fun id k _ c hc => ⟨c, h id k _ hc, .inl rfl⟩

theorem KeepsCells.refl (I : RecordId → Key → Cell → Prop) (s : Space) : KeepsCells I s s :=
  Retains.keepsCells (refl_of Retains s)

theorem KeepsCells.mono (h : KeepsCells I s t) (hI : ∀ id k c, I id k c → J id k c) :
    KeepsCells J s t := by
  intro id k l c hc
  obtain ⟨d, hd, hdc⟩ := h id k l c hc
  exact ⟨d, hd, hdc.imp_right (hI id k d)⟩

theorem KeepsCells.trans (h : KeepsCells I s t) (h' : KeepsCells I t u) : KeepsCells I s u := by
  intro id k l c hc
  obtain ⟨d, hd, hdc⟩ := h id k l c hc
  obtain ⟨e, he, hed⟩ := h' id k l d hd
  refine ⟨e, he, ?_⟩
  rcases hed with rfl | hed
  · exact hdc
  · exact .inr hed

theorem retains_setRecord {id : RecordId} {r : Record} (hr : r.fields = (s.record id).fields) :
    Retains s (s.setRecord id r) := by
  intro j k f hf
  rw [record_setRecord]
  split
  · rename_i hj
    rw [hr, ← hj, hf]
  · exact hf

theorem evalClosed_retains : Eval.Closed (OnSpace Retains) :=
  Eval.closed_of_marks fun _ _ _ _ => retains_setRecord rfl

theorem moves_note (id : RecordId) (k : Key) (l : Label) (v : Value) :
    Moves (OnSpace Retains) (Eval.edit (Edit.note id k l v)) :=
  Moves.edit fun _ => retains_setRecord rfl

end Space

open Space (Retains KeepsCells Extends)

variable {α β : Type}

theorem keepsCells_bind {I : RecordId → Key → Cell → Prop} {m : Eval α} {f : α → Eval β}
    {σ : Session} (hm : KeepsCells I σ.space (final m σ).space)
    (hf : ∀ a, Moves (OnSpace Retains) (f a)) :
    KeepsCells I σ.space (final (m >>= f) σ).space := by
  rw [final_bind]
  cases h : m σ with
  | ok a τ =>
    rw [final_of_ok h] at hm
    exact hm.trans (Retains.keepsCells (hf a τ))
  | error e τ => rwa [final_of_error h] at hm

section Writes

variable {limit room : Nat} {σ : Session} {id : RecordId} {p : Place} {v : Value}

theorem writePlain_keepsCells {I : RecordId → Key → Cell → Prop} (hs : σ.space.WellKept)
    (hv : ∀ k l c, σ.space.slot? id p = some (k, ⟨l, .cell c⟩) → v.isCell = true)
    (hI : ∀ k f c, σ.space.slot? id p = some (k, f) → v = .cell c → I id k c) :
    KeepsCells I σ.space (final (Eval.writePlain id p v) σ).space := by
  refine keepsCells_bind ?_ fun k => Eval.moves_space.bind fun s =>
    (moves_ofExcept _).bind fun f => (Space.moves_note id _ _ _).bind fun _ => moves_pure _
  rw [Eval.final_edit]
  cases hp : σ.space.slot? id p with
  | none =>
    exact Retains.keepsCells fun _ _ _ =>
      Holder.field?_final_assign v hp fun j => hs.fresh (.record j)
  | some e =>
    obtain ⟨k, f⟩ := e
    rw [final_of_ok (Holder.assign_run v hp)]
    intro j q l c hc
    dsimp only
    rw [Space.field?_assigned]
    by_cases hjq : j = id ∧ q = k
    · obtain ⟨rfl, rfl⟩ := hjq
      have hf := ((Container.slot?_eq_some ..).mp hp).2
      obtain rfl : f = ⟨l, .cell c⟩ := Option.some.inj (hf.symm.trans hc)
      cases v with
      | cell d => exact ⟨d, if_pos ⟨rfl, rfl⟩, .inr (hI q _ d hp rfl)⟩
      | _ => cases hv q l c hp
    · exact ⟨c, by rw [if_neg hjq, hc], .inl rfl⟩

theorem readWithin_retains (limit room : Nat) (id : RecordId) (p : Place) :
    Moves (OnSpace Retains) (readWithin limit room id p) :=
  readWithin_moves Space.evalClosed_retains limit room id p

theorem writeBy_keepsCells {assign : RecordId → Key → Label → Cell → Value → Eval Unit}
    {read : Reader} {I : RecordId → Key → Cell → Prop} (hs : σ.space.WellKept)
    (hread : ∀ id p, Moves (OnSpace Retains) (read id p))
    (hI : ∀ k f c, σ.space.slot? id p = some (k, f) → v = .cell c → I id k c)
    (ha : ∀ k l c, σ.space.slot? id p = some (k, ⟨l, .cell c⟩) → v.isCell = false →
      KeepsCells I σ.space (final (assign id k l c v) σ).space) :
    KeepsCells I σ.space (final (writeBy assign read id p v) σ).space := by
  rcases through_or_plain σ.space id p v with ⟨k, l, c, hp, hv⟩ | hv
  · rw [final, writeBy_through hp hv]
    exact keepsCells_bind (ha k l c hp hv) fun _ =>
      Eval.noteEffective_moves hread (Space.moves_note id k l)
  · have h := writePlain_keepsCells hs hv hI
    rwa [final, ← writeBy_plain hv] at h

theorem writeWithin_extends (limit room : Nat) (id : RecordId) (p : Place) (v : Value) :
    Moves (OnSpace Extends) (writeWithin limit room id p v) :=
  writeWithin_moves Space.closedForWrites_extends limit room id p v

theorem eval_extends (limit room : Nat) (f : Formula) (id : RecordId) :
    Moves (OnSpace Extends) (f.eval (readWithin limit room) id) :=
  f.eval_moves Space.evalClosed_extends
    (readWithin_moves Space.evalClosed_extends limit room) id

theorem reactOnce_extends (limit room : Nat) (id : RecordId) (output : Label) (f : Formula) :
    Moves (OnSpace Extends)
      (Derived.reactOnce (readWithin limit room) (writeWithin limit room) id output f) :=
  (eval_extends limit room f id).bind fun w => (writeWithin_extends limit room id _ w).discard

theorem reactOnce_keepsCells {I : RecordId → Key → Cell → Prop} {output : Label} {f : Formula}
    (hs : σ.space.WellKept)
    (hstep : ∀ {w π}, f.eval (readWithin limit room) id σ = .ok w π → π.space.WellKept →
      KeepsCells I π.space (final (writeWithin limit room id (.label output) w) π).space) :
    KeepsCells I σ.space (final (Derived.reactOnce (readWithin limit room)
      (writeWithin limit room) id output f) σ).space := by
  have hread := f.eval_moves Space.evalClosed_retains (readWithin_retains limit room) id σ
  have hx := (eval_extends limit room f id σ hs).1
  rw [Derived.reactOnce, final_bind]
  cases hf : f.eval (readWithin limit room) id σ with
  | error e π =>
    rw [final_of_error hf] at hread
    exact Retains.keepsCells hread
  | ok w π =>
    rw [final_of_ok hf] at hread hx
    dsimp only
    rw [final_discard]
    exact (Retains.keepsCells hread).trans (hstep hf hx)

/-- If every assignment that a reaction makes keeps cells, so do all reactions together. The
induction is on the reactions still to come, after the ones in `done` have run. -/
theorem react_keepsCells {I : RecordId → Key → Cell → Prop} {d : Derived}
    (hstep : ∀ {done output f rest ρ w π}, d.reactions = done ++ (output, f) :: rest →
      { d with reactions := done }.react (readWithin limit room) (writeWithin limit room) id
        σ = .ok () ρ →
      f.eval (readWithin limit room) id ρ = .ok w π → π.space.WellKept →
      KeepsCells I π.space (final (writeWithin limit room id (.label output) w) π).space)
    (rest done : List (Label × Formula)) {ρ : Session} (hd : d.reactions = done ++ rest)
    (hdone : { d with reactions := done }.react (readWithin limit room)
      (writeWithin limit room) id σ = .ok () ρ)
    (hρ : ρ.space.WellKept) :
    KeepsCells I ρ.space (final ({ d with reactions := rest }.react (readWithin limit room)
      (writeWithin limit room) id) ρ).space := by
  induction rest generalizing done ρ with
  | nil => exact KeepsCells.refl I ρ.space
  | cons r rest ih =>
    obtain ⟨output, f⟩ := r
    have honce := reactOnce_keepsCells hρ fun hf hπ => hstep hd hdone hf hπ
    have hx := (reactOnce_extends limit room id output f ρ hρ).1
    rw [Derived.react_cons, final_bind]
    cases hrun : Derived.reactOnce (readWithin limit room) (writeWithin limit room) id output f
        ρ with
    | error e π => rwa [final_of_error hrun] at honce
    | ok _ π =>
      rw [final_of_ok hrun] at honce hx
      refine honce.trans (ih (done ++ [(output, f)]) ?_ ?_ hx)
      · rw [hd, List.append_assoc]
        rfl
      · rw [Derived.react_append, bind_of_ok hdone, Derived.react_cons, bind_of_ok hrun]
        rfl

theorem react_extends (limit room : Nat) (d : Derived) (id : RecordId) :
    Moves (OnSpace Extends) (d.react (readWithin limit room) (writeWithin limit room) id) :=
  d.react_moves Space.evalClosed_extends (readWithin_moves Space.evalClosed_extends limit room)
    (writeWithin_extends limit room) id

theorem final_followedBy (m after : Eval Unit) (σ : Session) :
    final (m.followedBy after) σ = final after (final m σ) := by
  cases h : m σ with
  | ok _ τ => simp only [final, Eval.followedBy, h]
  | error e τ => cases ha : after τ <;> simp only [final, Eval.followedBy, h, ha]

/-- The cell of a derived field is back once its reactions have run, however they ended. -/
theorem assignDerived_keepsCells {I : RecordId → Key → Cell → Prop} {k : Key} {l : Label}
    {i : DerivedId} (hs : σ.space.WellKept)
    (hk : (σ.space.record id).fields.field? k = some ⟨l, .cell (.derived i)⟩)
    (hreact : ∀ ρ, Eval.store id k v σ = .ok () ρ → ρ.space.WellKept →
      KeepsCells I ρ.space (final ((σ.space.derivation i).react (readWithin limit room)
        (writeWithin limit room) id) ρ).space) :
    KeepsCells I σ.space (final (Cell.assign (readWithin limit room) (writeWithin limit room) id k
      v (.derived i)) σ).space := by
  have hstore := Eval.store_run hk v
  let ρ : Session := { σ with space := σ.space.assigned id k ⟨l, .cell (.derived i)⟩ v }
  have hρ : ρ.space.WellKept := by
    have := (Space.closedForWrites_extends.store id k v σ hs).1
    rwa [final_of_ok hstore] at this
  have hcells := hreact ρ hstore hρ
  have hout := (react_extends limit room (σ.space.derivation i) id ρ hρ).2
  let τ := final ((σ.space.derivation i).react (readWithin limit room) (writeWithin limit room)
    id) ρ
  have hraw : (ρ.space.record id).fields.field? k = some ⟨l, v⟩ := by
    simp [ρ, Space.field?_assigned]
  obtain ⟨g, hg, hgl⟩ := hout.field? hρ (g := .record id) hraw
  have hg' : (τ.space.record id).fields.field? k = some g := hg
  have hfinal : (final (Cell.assign (readWithin limit room) (writeWithin limit room) id k v
      (.derived i)) σ).space = τ.space.assigned id k g (.cell (.derived i)) := by
    rw [Cell.assign, final_bind, Eval.space_run]
    dsimp only
    rw [final_bind, hstore]
    dsimp only
    rw [final_followedBy, final_of_ok (Eval.store_run hg' _)]
  rw [hfinal]
  intro j q m c hc
  rw [Space.field?_assigned]
  by_cases hjq : j = id ∧ q = k
  · obtain ⟨rfl, rfl⟩ := hjq
    rw [hk] at hc
    cases hc
    rw [if_pos ⟨rfl, rfl⟩]
    exact ⟨.derived i, by rw [hgl], .inl rfl⟩
  · have hc' : (ρ.space.record j).fields.field? q = some ⟨m, .cell c⟩ := by
      simp [ρ, Space.field?_assigned, hjq, hc]
    rw [if_neg hjq]
    exact hcells j q m c hc'

theorem writeWithin_keepsCells (limit room : Nat) {σ : Session} (hs : σ.space.WellKept)
    (id : RecordId) (p : Place) (v : Value) :
    KeepsCells (Installs limit room σ ⟨id, p, v⟩) σ.space
      (final (writeWithin limit room id p v) σ).space := by
  have hself : ∀ {room : Nat} {σ : Session} {id : RecordId} {p : Place} {v : Value} k f c,
      σ.space.slot? id p = some (k, f) → v = .cell c →
      Installs limit room σ ⟨id, p, v⟩ id k c := by
    rintro room σ id p v k f c hp rfl
    exact ⟨σ, p, f, .self, hp⟩
  induction room generalizing σ id p v with
  | zero =>
    exact writeBy_keepsCells hs (readWithin_retains limit 0) hself
      fun _ _ _ _ _ => KeepsCells.refl _ _
  | succ room ih =>
    refine writeBy_keepsCells hs (readWithin_retains limit (room + 1)) hself ?_
    intro k l c hp hv
    refine space_final_guarded l (KeepsCells.refl _ σ.space) fun hf => ?_
    cases c with
    | derived i =>
      refine assignDerived_keepsCells (σ := { σ with flight := (id, k) :: σ.flight }) hs
        ((Container.slot?_eq_some ..).mp hp).2 fun ρ hstore hρ => ?_
      refine react_keepsCells (σ := ρ) ?_ _ [] rfl rfl hρ
      intro done output f rest ξ w π hd hdone he hπ
      refine (ih hπ id (.label output) w).mono fun j q c hi => ?_
      obtain ⟨τ, p', f', hτ, hq⟩ := hi
      exact ⟨τ, p', f', .reaction hp hv hf hd ((bind_of_ok hstore).trans hdone) he hτ, hq⟩
    | reference target m =>
      rw [Cell.assign, final_bind, Eval.edit, Edit.follow_run]
      dsimp only
      cases hl : σ.space.alive target with
      | false => exact KeepsCells.refl _ _
      | true =>
        have hw := ih (σ := { σ with flight := (id, k) :: σ.flight }) hs target (.label m) v
        simp only [if_true]
        rw [final_discard]
        refine hw.mono fun j q c hi => ?_
        obtain ⟨τ, p', f', hτ, hq⟩ := hi
        exact ⟨τ, p', f', .reference hp hv hf hl hτ, hq⟩

end Writes

/-- What is asked for from outside: to assign a field, several fields in order, a field of a record
given by name, or a field of a record that a packet knows by name. -/
inductive Request (τ : Type) where
  | write (id : RecordId) (p : Place) (v : Value)
  | writeAll (id : RecordId) (fields : List (Label × Value))
  | named (n : FieldName) (v : Value)
  | packet (p : Packet τ) (n : FieldName) (v : Value)

namespace Request

variable {τ : Type}

def run : Request τ → Edit Unit
  | write id p v => discard (id.write p v)
  | writeAll id fields => id.writeAll fields
  | named n v => n.write v
  | packet p n v => p.write n v

/-- Carried out from `s`, the request begins the assignment `a` in the space `u`. -/
inductive Begins (s : Space) : Request τ → Space → Assignment → Prop where
  | write {id p v} : Begins s (.write id p v) s ⟨id, p, v⟩
  | writeAll {id done l v rest u} :
      id.writeAll done s = .ok () u →
      Begins s (.writeAll id (done ++ (l, v) :: rest)) u ⟨id, .label l, v⟩
  | named {n : FieldName} {v} :
      s.alive n.record.target = true →
      Begins s (.named n v) s ⟨n.record.target, .label n.label, v⟩
  | packet {p : Packet τ} {n v id} :
      p.records.get? n.record.text = some id →
      Begins s (.packet p n v) s ⟨id, .label n.label, v⟩

/-- In the course of the request the cell `c` is assigned to the field of a record at `k`. -/
def Installs (req : Request τ) (s : Space) (id : RecordId) (k : Key) (c : Cell) : Prop :=
  ∃ u a, req.Begins s u a ∧
    LiveRecords.Installs (u.record a.id).maxDepth (u.record a.id).maxDepth { space := u } a id k c

theorem moves {R : Space → Space → Prop} [IsPreorder Space R]
    (hw : ∀ (id : RecordId) p v, Moves R (id.write p v)) (req : Request τ) : Moves R req.run := by
  cases req with
  | write id p v => exact (hw id p v).discard
  | writeAll id fields => exact moves_forM _ fun e _ => (hw id _ e.2).discard
  | named n v => exact n.write_moves hw v
  | packet p n v => exact p.write_moves hw n v

end Request

theorem RecordId.write_keepsCells {s : Space} (hs : s.WellKept) (id : RecordId) (p : Place)
    (v : Value) :
    KeepsCells (Installs (s.record id).maxDepth (s.record id).maxDepth { space := s } ⟨id, p, v⟩) s
      (final (id.write p v) s) := by
  have h := writeWithin_keepsCells (s.record id).maxDepth (s.record id).maxDepth
    (σ := { space := s }) hs id p v
  rwa [← final_run] at h

theorem RecordId.write_extends (id : RecordId) (p : Place) (v : Value) :
    Moves Extends (id.write p v) :=
  id.write_moves Space.closedForWrites_extends p v

theorem RecordId.writeAll_cons (id : RecordId) (l : Label) (v : Value)
    (rest : List (Label × Value)) :
    id.writeAll ((l, v) :: rest) =
      (discard (id.write (.label l) v) >>= fun _ => id.writeAll rest) :=
  rfl

theorem RecordId.writeAll_append (id : RecordId) (done rest : List (Label × Value)) :
    id.writeAll (done ++ rest) = (id.writeAll done >>= fun _ => id.writeAll rest) :=
  List.forM_append

variable {τ : Type}

/-- The induction is on the fields still to come, after the ones in `done` were assigned. -/
theorem Request.writeAll_keepsCells {s : Space} {id : RecordId} {fields : List (Label × Value)}
    (rest done : List (Label × Value)) (hf : fields = done ++ rest) {u : Space} (hu : u.WellKept)
    (hdone : id.writeAll done s = .ok () u) :
    KeepsCells ((.writeAll id fields : Request τ).Installs s) u (final (id.writeAll rest) u) := by
  induction rest generalizing done u with
  | nil => exact KeepsCells.refl _ u
  | cons e rest ih =>
    obtain ⟨l, v⟩ := e
    have hbegin : (.writeAll id fields : Request τ).Begins s u ⟨id, .label l, v⟩ := by
      subst hf
      exact .writeAll hdone
    have hw := (id.write_keepsCells hu (.label l) v).mono fun j k c hc =>
      (⟨u, _, hbegin, hc⟩ : (.writeAll id fields : Request τ).Installs s j k c)
    have hx := (id.write_extends (.label l) v u hu).1
    rw [RecordId.writeAll_cons, final_bind]
    cases hr : id.write (.label l) v u with
    | error e t =>
      rw [discard_of_error hr]
      rwa [final_of_error hr] at hw
    | ok k t =>
      rw [final_of_ok hr] at hw hx
      rw [discard_of_ok hr]
      refine hw.trans (ih (done ++ [(l, v)]) ?_ hx ?_)
      · rw [hf, List.append_assoc]
        rfl
      · rw [RecordId.writeAll_append, bind_of_ok hdone, RecordId.writeAll_cons,
          bind_of_ok (discard_of_ok hr)]
        rfl

theorem Request.keepsCells {s : Space} (hs : s.WellKept) (req : Request τ) :
    KeepsCells (req.Installs s) s (final req.run s) := by
  cases req with
  | write id p v =>
    rw [run, final_discard]
    exact (id.write_keepsCells hs p v).mono fun j k c hc => ⟨s, _, .write, hc⟩
  | writeAll id fields => exact writeAll_keepsCells fields [] rfl hs rfl
  | named n v =>
    rw [run, FieldName.write, final_bind, Edit.resolve_run]
    cases hl : s.alive n.record.target with
    | false => exact KeepsCells.refl _ s
    | true =>
      simp only [if_true]
      rw [final_discard]
      exact (n.record.target.write_keepsCells hs (.label n.label) v).mono
        fun j k c hc => ⟨s, _, .named hl, hc⟩
  | packet p n v =>
    rw [run, Packet.write, final_bind, Packet.record]
    cases hr : p.records.get? n.record.text with
    | none => exact KeepsCells.refl _ s
    | some id =>
      change KeepsCells _ s (final (discard (id.write (.label n.label) v)) s)
      rw [final_discard]
      exact (id.write_keepsCells hs (.label n.label) v).mono
        fun j k c hc => ⟨s, _, .packet hr, hc⟩

/-- Whether a request succeeds or faults, wherever it faults: a field that held a cell holds it
still, unless a cell was assigned to it in the course of the request; in every container the fields
there were come first, in their order and under their labels; and no record is left with a cell
under evaluation or a failure put off. -/
theorem Reachable.request_keeps {s : Space} (h : Reachable s) (req : Request τ) :
    KeepsCells (req.Installs s) s (final req.run s) ∧
      (∀ g, (s.contents g).outline <+: ((final req.run s).contents g).outline) ∧
      ∀ id, ((final req.run s).record id).depth = 0 ∧
        ((final req.run s).record id).pending = none := by
  have hx : Extends s (final req.run s) := req.moves (fun id => id.write_extends) s
  have hq : (final req.run s).Quiet := req.moves Space.closed_quiet.write s h.quiet
  exact ⟨req.keepsCells h.wellKept, (hx h.wellKept).2, fun id => ⟨hq.depth id, hq.pending id⟩⟩

/-- A derived field whose first reaction appends a field and whose second one fails. -/
def failingReaction : List Operation :=
  [.newRecord none 8,
    .newDerived
      { getter := .mk "nothing" Function.nothing []
        reactions := [(.name "b", .mk "first" Function.first [.here (.name "a")]),
          (.name "c", .mk "first" Function.first [])] },
    .record ⟨1⟩ (.add (.name "a") (.cell (.derived ⟨1⟩)))]

def assignFailing : Request Unit := .write ⟨1⟩ (.label (.name "a")) (.bool true)

theorem request_keeps_failingReaction :
    (∃ e t, assignFailing.run (Space.after failingReaction) = .error e t) ∧
      (∃ d, ((final assignFailing.run (Space.after failingReaction)).record ⟨1⟩).fields.field? ⟨1⟩ =
          some ⟨.name "a", .cell d⟩ ∧
        (d = .derived ⟨1⟩ ∨ assignFailing.Installs (Space.after failingReaction) ⟨1⟩ ⟨1⟩ d)) ∧
      ((final assignFailing.run (Space.after failingReaction)).contents (.record ⟨1⟩)).outline =
        [(⟨1⟩, .name "a"), (⟨2⟩, .name "b")] :=
  ⟨⟨_, _, rfl⟩,
    ((Reachable.after failingReaction).request_keeps assignFailing).1 ⟨1⟩ ⟨1⟩ (.name "a")
      (.derived ⟨1⟩) rfl,
    rfl⟩

end LiveRecords
