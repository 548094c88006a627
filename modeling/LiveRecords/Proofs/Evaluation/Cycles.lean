import Mathlib.Logic.Relation
import LiveRecords.Proofs.Evaluation.Reading

/-! # Dependencies and cycles

A field depends on the fields that its cell reads. The cells under evaluation lead to one another
in this way, so that meeting one of them again means that it depends on itself. A derivation of a
value nests fewer cells in what a field depends on, so fields on cycles have none.
-/

namespace LiveRecords

open Relation (ReflTransGen TransGen)

/-- Evaluated for the record `id`, the operand reads the label `m` of the record `j`, itself or
in a formula nested in it. -/
inductive Operand.Reads (id : RecordId) : Operand → RecordId → Label → Prop where
  | here {l} : Reads id (.here l) id l
  | field {name : FieldName} : Reads id (.field name) name.record.target name.label
  | nested {name apply operands a j m} : a ∈ operands → Reads id a j m →
      Reads id (.nested (.mk name apply operands)) j m

def Formula.Reads (id : RecordId) (f : Formula) (j : RecordId) (m : Label) : Prop :=
  ∃ a ∈ f.operands, a.Reads id j m

/-- A cell held by the record `owner` reads the label `m` of the record `j`. -/
inductive Cell.Reads (s : Space) (owner : RecordId) : Cell → RecordId → Label → Prop where
  | derived {i j m} : (s.derivation i).getter.Reads owner j m → Reads s owner (.derived i) j m
  | reference {target l} : Reads s owner (.reference target l) target l

namespace Space

/-- The field at `e` holds a cell that reads a label which is that of the field at `g` now. -/
inductive Depends (s : Space) : RecordId × Key → RecordId × Key → Prop where
  | intro {id k l c j m q f} : s.slot? id (.key k) = some (k, ⟨l, .cell c⟩) →
      c.Reads s id j m → s.slot? j (.label m) = some (q, f) → Depends s (id, k) (j, q)

/-- Dependencies lead from `e` to `g`, and from `g` back to itself. -/
def Circles (s : Space) (e g : RecordId × Key) : Prop :=
  ReflTransGen s.Depends e g ∧ TransGen s.Depends g g

/-- The field at `g`, named as a fault over a cycle names it. -/
def Named (s : Space) (g : RecordId × Key) (name : String) (l : Label) : Prop :=
  name = s.displayName g.1 ∧ ∃ v, s.slot? g.1 (.key g.2) = some (g.2, ⟨l, v⟩)

variable {s : Space} {n : Nat} {id j : RecordId} {l m : Label} {k q : Key} {e g : RecordId × Key}
  {v : Value}

section Derivations

theorem OperandsYield.of_mem {as : List Operand} {vs : List Value} {a : Operand}
    (h : s.OperandsYield n id as vs) (ha : a ∈ as) : ∃ v, s.OperandYields n id a v := by
  induction as generalizing vs with
  | nil => cases ha
  | cons b as ih =>
    cases h with
    | cons hb has =>
      rcases List.mem_cons.mp ha with rfl | ha
      · exact ⟨_, hb⟩
      · exact ih has ha

theorem OperandYields.of_reads {a : Operand} (hr : a.Reads id j m)
    (h : s.OperandYields n id a v) : ∃ w, s.Yields n j (.label m) w := by
  induction hr generalizing v with
  | here => cases h with | here hy => exact ⟨v, hy⟩
  | field => cases h with | field _ hy => exact ⟨v, hy⟩
  | nested ha _ ih =>
    cases h with
    | nested hf =>
      cases hf with
      | apply hvs _ =>
        obtain ⟨w, hw⟩ := hvs.of_mem ha
        exact ih hw

theorem CellYields.of_reads {c : Cell} (hr : c.Reads s id j m) (h : s.CellYields n id c v) :
    ∃ w, s.Yields n j (.label m) w := by
  cases hr with
  | reference => cases h with | reference _ hy => exact ⟨v, hy⟩
  | derived hf =>
    obtain ⟨a, ha, hr⟩ := hf
    cases h with
    | derived hy =>
      cases hy' : (s.derivation _).getter with
      | mk name apply operands =>
        rw [hy'] at hy ha
        cases hy with
        | apply hvs _ =>
          obtain ⟨w, hw⟩ := hvs.of_mem ha
          exact hw.of_reads hr

theorem Yields.of_depends (hd : s.Depends e g) (h : s.Yields n e.1 (.key e.2) v) :
    ∃ i < n, ∃ w, s.Yields i g.1 (.key g.2) w := by
  cases hd with
  | intro hs hr hg =>
    obtain ⟨i, rfl, hc⟩ := (yields_cell_iff hs).mp h
    obtain ⟨w, hw⟩ := hc.of_reads hr
    exact ⟨i, Nat.lt_succ_self i, w, (yields_key_iff hg).mpr hw⟩

theorem Yields.of_reached (hd : ReflTransGen s.Depends e g) (h : s.Yields n e.1 (.key e.2) v) :
    ∃ i w, s.Yields i g.1 (.key g.2) w := by
  induction hd with
  | refl => exact ⟨n, v, h⟩
  | tail _ hd ih =>
    obtain ⟨i, w, hw⟩ := ih
    obtain ⟨j, -, u, hu⟩ := hw.of_depends hd
    exact ⟨j, u, hu⟩

theorem Yields.of_trans (hd : TransGen s.Depends e g) (h : s.Yields n e.1 (.key e.2) v) :
    ∃ i < n, ∃ w, s.Yields i g.1 (.key g.2) w := by
  induction hd with
  | single hd => exact h.of_depends hd
  | tail _ hd ih =>
    obtain ⟨i, hi, w, hw⟩ := ih
    obtain ⟨j, hj, u, hu⟩ := hw.of_depends hd
    exact ⟨j, Nat.lt_trans hj hi, u, hu⟩

/-- A field that depends on itself has no value: each derivation of one holds a smaller one. -/
theorem Yields.not_cycle (h : s.Yields n g.1 (.key g.2) v) : ¬ TransGen s.Depends g g := by
  intro hc
  induction n using Nat.strongRecOn generalizing v with
  | ind n ih =>
    obtain ⟨i, hi, w, hw⟩ := h.of_trans hc
    exact ih i hi hw

end Derivations

end Space

section Sessions

variable {α β : Type} {s : Space} {e g : RecordId × Key} {σ ρ τ : Session}

/-- Another session over what `s` holds, with the same cells and formulas under evaluation. -/
structure Session.Kept (s : Space) (σ τ : Session) : Prop where
  agree : s.Agree τ.space
  flight : τ.flight = σ.flight
  targets : τ.targets = σ.targets

theorem Session.Kept.trans (h : σ.Kept s ρ) (h' : ρ.Kept s τ) : σ.Kept s τ :=
  ⟨h'.agree, h'.flight.trans h.flight, h'.targets.trans h.targets⟩

theorem Session.Kept.refl (h : s.Agree σ.space) : σ.Kept s σ := ⟨h, rfl, rfl⟩

/-- What evaluation on the way from `e` comes to: if it is a cycle, the fault names a field on a
cycle that `e` leads to; otherwise the session goes on. -/
inductive Space.Meets (s : Space) (e : RecordId × Key) (σ : Session) :
    EStateM.Result Fault Session α → Prop where
  | ok {a τ} : σ.Kept s τ → Meets s e σ (.ok a τ)
  | fault {f τ} : f.isCycle = false → σ.Kept s τ → Meets s e σ (.error f τ)
  | cycle {g name l τ} : s.Circles e g → s.Named g name l → Meets s e σ (.error (.cycle name l) τ)

/-- A session over what `s` holds, in which all cells under evaluation lead to `e`. -/
structure Session.Toward (s : Space) (e : RecordId × Key) (σ : Session) : Prop where
  agree : s.Agree σ.space
  flight : ∀ x ∈ σ.flight, ReflTransGen s.Depends x e

theorem Session.Toward.kept (h : σ.Toward s e) (hk : σ.Kept s τ) : τ.Toward s e :=
  ⟨hk.agree, fun x hx => h.flight x (hk.flight ▸ hx)⟩

theorem Space.Meets.of_kept {r : EStateM.Result Fault Session α} (hk : σ.Kept s ρ)
    (h : s.Meets e ρ r) : s.Meets e σ r := by
  cases h with
  | ok hk' => exact .ok (hk.trans hk')
  | fault hf hk' => exact .fault hf (hk.trans hk')
  | cycle hc hn => exact .cycle hc hn

theorem Space.Meets.of_depends {r : EStateM.Result Fault Session α} (hd : s.Depends e g)
    (h : s.Meets g σ r) : s.Meets e σ r := by
  cases h with
  | ok hk => exact .ok hk
  | fault hf hk => exact .fault hf hk
  | cycle hc hn => exact .cycle ⟨.head hd hc.1, hc.2⟩ hn

theorem Space.Meets.bind {m : Eval α} {f : α → Eval β} (hm : s.Meets e σ (m σ))
    (hf : ∀ a τ, σ.Kept s τ → s.Meets e τ (f a τ)) : s.Meets e σ ((m >>= f) σ) := by
  cases h : m σ with
  | ok a τ =>
    rw [h] at hm
    cases hm with
    | ok hk =>
      rw [bind_of_ok h]
      exact (hf a τ hk).of_kept hk
  | error w τ =>
    rw [h] at hm
    rw [bind_of_error h]
    cases hm with
    | fault hw hk => exact .fault hw hk
    | cycle hc hn => exact .cycle hc hn

theorem Space.Meets.onTarget {m : Eval α} {id : RecordId}
    (h : s.Meets e { σ with targets := id :: σ.targets }
      (m { σ with targets := id :: σ.targets })) : s.Meets e σ (Eval.onTarget id m σ) := by
  have back : ∀ τ, Session.Kept s { σ with targets := id :: σ.targets } τ →
      σ.Kept s { τ with targets := τ.targets.tail } := fun τ hk =>
    ⟨hk.agree, hk.flight, congrArg List.tail hk.targets⟩
  rw [Eval.onTarget_run, Eval.andThen]
  cases hm : m { σ with targets := id :: σ.targets } with
  | ok a τ =>
    rw [hm] at h
    cases h with | ok hk => exact .ok (back τ hk)
  | error w τ =>
    rw [hm] at h
    cases h with
    | fault hw hk => exact .fault hw (back τ hk)
    | cycle hc hn => exact .cycle hc hn

section Cells

variable {id : RecordId} {k : Key} {l : Label} {v : Value}

/-- The guard finds a cycle just where the cell to be evaluated leads to itself. -/
theorem Space.Meets.guarded {m : Eval α} (hs : s.slot? id (.key k) = some (k, ⟨l, v⟩))
    (ha : s.Agree σ.space) (hf : ∀ x ∈ σ.flight, TransGen s.Depends x (id, k))
    (h : s.Meets (id, k) { σ with flight := (id, k) :: σ.flight }
      (m { σ with flight := (id, k) :: σ.flight })) :
    s.Meets (id, k) σ (Eval.guarded id k l m σ) := by
  by_cases hk : σ.flight.contains (id, k) = true
  · rw [Eval.guarded_of_mem m hk, ha.displayName]
    exact .cycle ⟨.refl, hf _ (List.contains_iff_mem.mp hk)⟩ ⟨rfl, v, hs⟩
  · have back : ∀ τ, Session.Kept s { σ with flight := (id, k) :: σ.flight } τ →
        σ.Kept s { τ with flight := τ.flight.erase (id, k) } := by
      intro τ hkept
      refine ⟨hkept.agree, ?_, hkept.targets⟩
      simp [hkept.flight]
    rw [Eval.guarded_of_not_mem m hk, Eval.andThen]
    cases hm : m { σ with flight := (id, k) :: σ.flight } with
    | ok a τ =>
      rw [hm] at h
      cases h with | ok hkept => exact .ok (back τ hkept)
    | error w τ =>
      rw [hm] at h
      cases h with
      | cycle hc hn => exact .cycle hc hn
      | fault hw hkept =>
        refine .fault hw ?_
        cases w with
        | cycle => cases hw
        | _ => exact back τ hkept

theorem Record.settle_cycle {r : Record} {outcome : Except Fault Value} {f : Fault}
    (h : (r.settle outcome).1 = .error f) (hf : f.isCycle = true) : outcome = .error f := by
  unfold settle at h
  split at h
  · split at h <;> cases h
    cases hf
  · split at h <;> cases h
    cases hf
  · exact h

theorem Record.settle_name (r : Record) (outcome : Except Fault Value) :
    (r.settle outcome).2.name = r.name := by
  rw [settle_record]

theorem Record.settle_fields (r : Record) (outcome : Except Fault Value) :
    (r.settle outcome).2.fields = r.fields := by
  rw [settle_record]

theorem Space.Meets.conclude {outcome : Except Fault Value} (hl : s.alive id = true)
    (hk : σ.Kept s τ) (ho : ∀ f, outcome = .error f → f.isCycle = false) :
    s.Meets e σ (Eval.conclude id outcome τ) := by
  obtain ⟨r, hr⟩ : ∃ r, r = { τ.space.record id with depth := (τ.space.record id).depth - 1 } :=
    ⟨_, rfl⟩
  have hkept : σ.Kept s { τ with space := τ.space.setRecord id (r.settle outcome).2 } := by
    refine ⟨hk.agree.trans (.setRecord ((hk.agree.alive id).trans hl) ?_ ?_), hk.flight,
      hk.targets⟩
    · rw [Record.settle_name, hr]
    · rw [Record.settle_fields, hr]
  unfold Eval.conclude
  dsimp only
  rw [← hr]
  cases hf : (r.settle outcome).1 with
  | ok v => exact .ok hkept
  | error f =>
    refine .fault (Bool.eq_false_iff.mpr fun hc => ?_) hkept
    rw [ho f (Record.settle_cycle hf hc)] at hc
    cases hc

theorem Space.Meets.settling {m : Eval Value} (hl : s.alive id = true) (ha : s.Agree σ.space)
    (h : s.Meets e (Eval.deepen id σ) (m (Eval.deepen id σ))) :
    s.Meets e σ (Eval.settling id m σ) := by
  have hdeeper : σ.Kept s (Eval.deepen id σ) :=
    ⟨ha.trans (.setRecord ((ha.alive id).trans hl) rfl rfl), rfl, rfl⟩
  rw [Eval.settling]
  cases hm : m (Eval.deepen id σ) with
  | ok v τ =>
    rw [hm] at h
    cases h with | ok hk => exact .conclude hl (hdeeper.trans hk) fun g hg => by cases hg
  | error f τ =>
    rw [hm] at h
    cases h with
    | fault hf hk => exact .conclude hl (hdeeper.trans hk) fun g hg => by cases hg; exact hf
    | cycle hc hn => exact .cycle hc hn

end Cells

end Sessions

section Readers

variable {s : Space} {read : Reader} {e : RecordId × Key} {σ : Session}

/-- The reader reads labels as `Space.Meets` says, on behalf of fields that depend on what has
these labels. -/
def Reader.Meets (s : Space) (read : Reader) : Prop :=
  ∀ {e : RecordId × Key} {σ : Session} {j : RecordId} {m : Label}, σ.Toward s e →
    (∀ q f, s.slot? j (.label m) = some (q, f) → s.Depends e (j, q)) →
    s.Meets e σ (read j (.label m) σ)

/-- The field at `e` depends on all that is read. -/
def Space.Covers (s : Space) (e : RecordId × Key) (reads : RecordId → Label → Prop) : Prop :=
  ∀ {j m}, reads j m → ∀ q f, s.slot? j (.label m) = some (q, f) → s.Depends e (j, q)

theorem Space.meets_pure {α : Type} (hσ : σ.Toward s e) (a : α) :
    s.Meets e σ ((pure a : Eval α) σ) :=
  .ok (.refl hσ.agree)

theorem Space.meets_throw {α : Type} (hσ : σ.Toward s e) {f : Fault} (hf : f.isCycle = false) :
    s.Meets e σ ((throw f : Eval α) σ) :=
  .fault hf (.refl hσ.agree)

theorem Space.meets_resolve {α : Type} {n : RecordName} {f : RecordId → Eval α}
    (hσ : σ.Toward s e) (hf : s.Meets e σ (f n.target σ)) :
    s.Meets e σ ((Eval.edit (Edit.resolve n) >>= f) σ) := by
  have hrun := Eval.resolve_run hσ.agree n
  by_cases hl : s.alive n.target = true
  · rw [if_pos hl] at hrun
    rwa [bind_of_ok hrun]
  · rw [if_neg hl] at hrun
    rw [bind_of_error hrun]
    exact .fault rfl (.refl hσ.agree)

theorem Space.meets_follow {α : Type} {target : RecordId} {l : Label} {f : RecordId → Eval α}
    (hσ : σ.Toward s e) (hf : s.Meets e σ (f target σ)) :
    s.Meets e σ ((Eval.edit (Edit.follow target l) >>= f) σ) := by
  have hrun := Eval.follow_run hσ.agree target l
  by_cases hl : s.alive target = true
  · rw [if_pos hl] at hrun
    rwa [bind_of_ok hrun]
  · rw [if_neg hl] at hrun
    rw [bind_of_error hrun]
    exact .fault rfl (.refl hσ.agree)

mutual

theorem Formula.eval_meets (hr : Reader.Meets s read) (f : Formula)
    (hf : s.Covers e (f.Reads e.1)) {σ : Session} (hσ : σ.Toward s e) :
    s.Meets e σ (f.eval read e.1 σ) := by
  cases f with
  | mk name apply operands =>
    refine Space.Meets.onTarget ?_
    have hσ' : Session.Toward s e { σ with targets := e.1 :: σ.targets } := ⟨hσ.agree, hσ.flight⟩
    refine (Operand.evalAll_meets hr operands (fun a ha _ _ h => hf ⟨a, ha, h⟩) hσ' rfl).bind
      fun vs τ hk => ?_
    have hτ := hσ'.kept hk
    rw [bind_of_ok (Eval.space_run τ)]
    cases apply τ.space.plainText vs with
    | ok v => exact Space.meets_pure hτ v
    | error failure => exact Space.meets_throw hτ rfl

theorem Operand.eval_meets (hr : Reader.Meets s read) (a : Operand)
    (ha : s.Covers e (a.Reads e.1)) {σ : Session} {targets : List RecordId} (hσ : σ.Toward s e)
    (ht : σ.targets = e.1 :: targets) : s.Meets e σ (a.eval read σ) := by
  have htarget : Eval.target σ = .ok e.1 σ := by rw [Eval.target_run, ht]
  cases a with
  | constant v => exact Space.meets_pure hσ v
  | here l =>
    rw [Operand.eval, bind_of_ok htarget]
    exact hr hσ (ha .here)
  | nested f =>
    rw [Operand.eval, bind_of_ok htarget]
    refine Formula.eval_meets hr f (fun ⟨b, hb, hread⟩ => ?_) hσ
    cases f with | mk => exact ha (.nested hb hread)
  | field name => exact Space.meets_resolve hσ (hr hσ (ha .field))

theorem Operand.evalAll_meets (hr : Reader.Meets s read) (as : List Operand)
    (has : ∀ a ∈ as, s.Covers e (a.Reads e.1)) {σ : Session} {targets : List RecordId}
    (hσ : σ.Toward s e) (ht : σ.targets = e.1 :: targets) :
    s.Meets e σ (Operand.evalAll read as σ) := by
  cases as with
  | nil => exact Space.meets_pure hσ []
  | cons a as =>
    rw [List.forall_mem_cons] at has
    refine (Operand.eval_meets hr a has.1 hσ ht).bind fun v τ hk => ?_
    refine (Operand.evalAll_meets hr as has.2 (hσ.kept hk) (hk.targets.trans ht)).bind
      fun vs υ hk' => ?_
    exact Space.meets_pure ((hσ.kept hk).kept hk') _

end

theorem Cell.eval_meets (hr : Reader.Meets s read) (c : Cell) (hc : s.Covers e (c.Reads s e.1))
    (hσ : σ.Toward s e) : s.Meets e σ (c.eval read e.1 σ) := by
  cases c with
  | derived i =>
    rw [Cell.eval, bind_of_ok (Eval.space_run σ), hσ.agree.derivation]
    exact Formula.eval_meets hr _ (fun h => hc (.derived h)) hσ
  | reference target l => exact Space.meets_follow hσ (hr hσ (hc .reference))

variable {id : RecordId} {p : Place} {k : Key} {f : Field}

theorem Space.notFound_of_value {c : Container} {w : Fault} (h : s.value c p = .error w) :
    ∃ sought, w = .notFound sought := by
  cases p with
  | key k =>
    rw [Space.value, Space.field] at h
    cases hk : s.field? c k <;> rw [hk] at h <;> cases h
    exact ⟨_, rfl⟩
  | label l =>
    rw [Space.value] at h
    split at h
    · cases h
      exact ⟨_, rfl⟩
    · split at h <;> cases h
      exact ⟨_, rfl⟩

section Fields

variable {evaluate : RecordId → Key → Label → Cell → Eval Value}

theorem readBy_meets_deeper (ha : s.Agree σ.space) (hs : s.slot? id p = none) :
    s.Meets e σ (readBy evaluate id p σ) := by
  rw [readBy_deeper ((ha.slot? id p).trans hs), ha.value, ha.fields]
  cases hv : s.value (s.record id).fields p with
  | ok v => exact .ok (.refl ha)
  | error w =>
    obtain ⟨sought, rfl⟩ := Space.notFound_of_value hv
    exact .fault rfl (.refl ha)

theorem readBy_meets (ha : s.Agree σ.space) (hs : s.slot? id p = some (k, f))
    (he : ∀ c, f.value = .cell c → s.Meets (id, k) σ (evaluate id k f.label c σ)) :
    s.Meets (id, k) σ (readBy evaluate id p σ) := by
  obtain ⟨l, v⟩ := f
  have hs' := (ha.slot? id p).trans hs
  cases hv : v.isCell with
  | false =>
    rw [readBy_plain hs' hv]
    exact .ok (.refl ha)
  | true =>
    cases v with
    | cell c =>
      rw [readBy_cell hs']
      exact he c rfl
    | _ => cases hv

end Fields

/-- The induction is on the room for nested cells. What a cell reads is read while that cell is
under evaluation as well, which depends on it, and so do all that lead to the cell. -/
theorem readWithin_meets (limit room : Nat) (ha : s.Agree σ.space)
    (hs : s.slot? id p = some (k, f)) (hf : ∀ x ∈ σ.flight, TransGen s.Depends x (id, k)) :
    s.Meets (id, k) σ (readWithin limit room id p σ) := by
  induction room generalizing id p k f σ with
  | zero =>
    refine readBy_meets ha hs fun c _ => .settling (Space.alive_of_slot? hs) ha ?_
    have hl := (ha.alive id).trans (Space.alive_of_slot? hs)
    exact .fault rfl (.refl (ha.trans (.setRecord hl rfl rfl)))
  | succ room ih =>
    have hreader : Reader.Meets s (readWithin limit room) := by
      intro e τ j m hτ hd
      cases hj : s.slot? j (.label m) with
      | none => cases room <;> exact readBy_meets_deeper hτ.agree hj
      | some entry =>
        obtain ⟨q, g⟩ := entry
        have hdep := hd q g hj
        exact (ih hτ.agree hj fun x hx => .tail' (hτ.flight x hx) hdep).of_depends hdep
    refine readBy_meets ha hs fun c hc => .settling (Space.alive_of_slot? hs) ha ?_
    have hl := (ha.alive id).trans (Space.alive_of_slot? hs)
    have hdeeper : s.Agree (Eval.deepen id σ).space := ha.trans (.setRecord hl rfl rfl)
    refine .guarded (Space.slot?_key hs) hdeeper hf ?_
    refine c.eval_meets hreader (fun hread q g hg => ?_) ⟨hdeeper, ?_⟩
    · refine .intro (l := f.label) (c := c) ?_ hread hg
      rw [← hc]
      exact Space.slot?_key hs
    · rintro x (_ | ⟨_, hx⟩)
      · exact .refl
      · exact (hf x hx).to_reflTransGen

end Readers

section Reads

variable {s : Space} {id : RecordId} {p : Place} {k : Key} {f : Field}

theorem Eval.run_eq_error {α : Type} {m : Eval α} {w : Fault} {t : Space}
    (h : Eval.run m s = .error w t) : ∃ τ, m { space := s } = .error w τ := by
  cases hm : m { space := s } with
  | ok a τ => simp [Eval.run, hm] at h
  | error v τ =>
    simp only [Eval.run, hm, EStateM.Result.error.injEq] at h
    exact ⟨τ, by rw [h.1]⟩

/-- A cycle that a read faults over is one that the field leads to. -/
theorem Space.Quiet.read_cycle (h : s.Quiet) (hs : s.slot? id p = some (k, f)) {name : String}
    {l : Label} {t : Space} (hr : id.read p s = .error (.cycle name l) t) :
    ∃ g, s.Circles (id, k) g ∧ s.Named g name l := by
  have hm := readWithin_meets (σ := { space := s }) (s.record id).maxDepth (s.record id).maxDepth
    h.over.agree hs nofun
  obtain ⟨τ, hτ⟩ := Eval.run_eq_error
    (m := readWithin (s.record id).maxDepth (s.record id).maxDepth id p) hr
  rw [hτ] at hm
  cases hm with
  | fault hw => cases hw
  | cycle hc hn => exact ⟨_, hc, hn⟩

theorem Space.Quiet.read_ne_ok (h : s.Quiet) (hs : s.slot? id p = some (k, f))
    {g : RecordId × Key} (hg : s.Circles (id, k) g) (v : Value) (t : Space) :
    id.read p s ≠ .ok v t := by
  intro hr
  obtain ⟨-, hy⟩ := h.read_eq_ok_iff.mp hr
  obtain ⟨n, w, hw⟩ := Yields.of_reached hg.1 ((yields_key_iff hs).mpr hy)
  exact hw.not_cycle hg.2

end Reads

/-- In every reachable space a read of a field faults over a cycle only if dependencies lead from
it to one, and then names a field on such a cycle. If they do lead to one, the read gives no
value. -/
theorem Reachable.read_meets_cycles {s : Space} (h : Reachable s) {id : RecordId} {p : Place}
    {k : Key} {f : Field} (hs : s.slot? id p = some (k, f)) :
    ((¬ ∃ g, s.Circles (id, k) g) → ∀ name l t, id.read p s ≠ .error (.cycle name l) t) ∧
      ((∃ g, s.Circles (id, k) g) → ∀ v t, id.read p s ≠ .ok v t) ∧
      ∀ name l t, id.read p s = .error (.cycle name l) t →
        ∃ g, s.Circles (id, k) g ∧ s.Named g name l := by
  refine ⟨fun hn name l t hr => ?_, fun ⟨g, hg⟩ => h.quiet.read_ne_ok hs hg, fun _ _ _ =>
    h.quiet.read_cycle hs⟩
  obtain ⟨g, hg, -⟩ := h.quiet.read_cycle hs hr
  exact hn ⟨g, hg⟩

/-- The field `a` reads one that fails, and then `b`, which stands for a field of the second record
that stands for `b`. -/
def failingDetour : List Operation :=
  [.newRecord (some "one") 4, .newRecord none 4,
    .newDerived { getter := .mk "fails" (fun _ _ => .error ⟨"", .overflow⟩) [] },
    .newDerived { getter := .mk "first" Function.first [.here (.name "fails"),
      .nested (.mk "first" Function.first [.here (.name "b")])] },
    .record ⟨1⟩ (.add (.name "fails") (.cell (.derived ⟨1⟩))),
    .record ⟨1⟩ (.add (.name "a") (.cell (.derived ⟨2⟩))),
    .record ⟨1⟩ (.add (.name "b") (.cell (.reference ⟨2⟩ (.name "c")))),
    .record ⟨2⟩ (.add (.name "c") (.cell (.reference ⟨1⟩ (.name "b"))))]

theorem read_meets_cycles_failingDetour :
    (∃ t, RecordId.read ⟨1⟩ (.label (.name "a")) (Space.after failingDetour) =
        .error (.cycle "one" (.name "b")) t) ∧
      ∃ g, (Space.after failingDetour).Circles (⟨1⟩, ⟨2⟩) g ∧
        (Space.after failingDetour).Named g "one" (.name "b") := by
  have ha : fault (RecordId.read ⟨1⟩ (.label (.name "a"))) (Space.after failingDetour) =
      some (.cycle "one" (.name "b")) := by decide +kernel
  obtain ⟨t, ht⟩ := fault_eq_some_iff.mp ha
  have hs : (Space.after failingDetour).slot? ⟨1⟩ (.label (.name "a")) =
      some (⟨2⟩, ⟨.name "a", .cell (.derived ⟨2⟩)⟩) := by decide +kernel
  exact ⟨⟨t, ht⟩, ((Reachable.after failingDetour).read_meets_cycles hs).2.2 _ _ t ht⟩

end LiveRecords
