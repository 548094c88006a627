import LiveRecords.Proofs.Evaluation.Guard

/-! # Every call comes to an end

The rules by which reads, writes and formulas call one another, without the room that the programs
hand down: before a cell is evaluated or assigned, the guard counts the cells under evaluation. A
derivation is the finite tree of the calls that a call makes. Every call has one, in which never
more cells are under evaluation than the limit allows, and what it ends in is what the programs
compute.
-/

namespace LiveRecords

variable {α : Type}

/-- What the guard finds when a cell is reached: as many cells under evaluation as the limit allows,
or else the cell itself among them. -/
def Session.bars (limit : Nat) (σ : Session) (id : RecordId) (k : Key) (l : Label) :
    Option Fault :=
  if limit ≤ σ.flight.length then some (.tooDeep limit)
  else if (id, k) ∈ σ.flight then some (.cycle (σ.space.displayName id) l)
  else none

namespace Eval

abbrev Outcome (α : Type) := EStateM.Result Fault Session α

/-- What is left to do of a program that has ended, wherever it ended. -/
def ended {σ : Type} (r : EStateM.Result Fault σ α) : EStateM Fault σ α := fun _ => r

/-- Look up a place that holds no cell. -/
def lookUp (id : RecordId) (p : Place) : Eval Value := do
  let s ← space
  match s.slot? id p with
  | some (_, f) => return f.value
  | none => MonadExcept.ofExcept (s.value (s.record id).fields p)

/-- Apply the function of a formula to its arguments. -/
def apply (name : String) (function : Function) (vs : List Value) : Eval Value := do
  match function (← space).plainText vs with
  | .ok v => return v
  | .error failure => throw (.failed (failure.within name))

mutual

/-- Reading a place ends so, with at most `n` cells under evaluation at any moment. -/
inductive ReadEnds (limit n : Nat) : Session → RecordId → Place → Outcome Value → Prop where
  | plain {σ id p} : (∀ k l c, σ.space.slot? id p ≠ some (k, ⟨l, .cell c⟩)) →
      ReadEnds limit n σ id p (lookUp id p σ)
  | barred {σ id p k l c f} : σ.space.slot? id p = some (k, ⟨l, .cell c⟩) →
      σ.bars limit id k l = some f → ReadEnds limit n σ id p (settling id (throw f) σ)
  | cell {σ id p k l c r} : σ.space.slot? id p = some (k, ⟨l, .cell c⟩) →
      σ.bars limit id k l = none → σ.flight.length < n →
      CellEnds limit n (enter id k σ) id c r →
      ReadEnds limit n σ id p (settling id (guarded id k l (ended r)) σ)

/-- Evaluating a cell of the record `owner` ends so. -/
inductive CellEnds (limit n : Nat) : Session → RecordId → Cell → Outcome Value → Prop where
  | derived {σ owner i r} : FormulaEnds limit n σ owner (σ.space.derivation i).getter r →
      CellEnds limit n σ owner (.derived i) r
  | dropped {σ owner target m} : σ.space.alive target = false →
      CellEnds limit n σ owner (.reference target m) (.error (.notFound (.referenced m)) σ)
  | reference {σ owner target m r} : σ.space.alive target = true →
      ReadEnds limit n σ target (.label m) r →
      CellEnds limit n σ owner (.reference target m) r

inductive FormulaEnds (limit n : Nat) : Session → RecordId → Formula → Outcome Value → Prop where
  | apply {σ id name function operands r} :
      OperandsEnd limit n { σ with targets := id :: σ.targets } operands r →
      FormulaEnds limit n σ id (.mk name function operands)
        (onTarget id (ended r >>= apply name function) σ)

inductive OperandEnds (limit n : Nat) : Session → Operand → Outcome Value → Prop where
  | constant {σ v} : OperandEnds limit n σ (.constant v) (.ok v σ)
  | here {σ id targets l r} : σ.targets = id :: targets → ReadEnds limit n σ id (.label l) r →
      OperandEnds limit n σ (.here l) r
  | nested {σ id targets f r} : σ.targets = id :: targets → FormulaEnds limit n σ id f r →
      OperandEnds limit n σ (.nested f) r
  | outside {σ a} : σ.targets = [] → (∃ l, a = .here l) ∨ (∃ f, a = .nested f) →
      OperandEnds limit n σ a (.error (.refused .outsideRecord) σ)
  | unknown {σ} {name : FieldName} : σ.space.alive name.record.target = false →
      OperandEnds limit n σ (.field name) (.error (.notFound (.record name.record.text)) σ)
  | field {σ r} {name : FieldName} : σ.space.alive name.record.target = true →
      ReadEnds limit n σ name.record.target (.label name.label) r →
      OperandEnds limit n σ (.field name) r

/-- Evaluating operands one after the other ends so, at the first fault if there is one. -/
inductive OperandsEnd (limit n : Nat) : Session → List Operand → Outcome (List Value) → Prop where
  | nil {σ} : OperandsEnd limit n σ [] (.ok [] σ)
  | fault {σ a as f τ} : OperandEnds limit n σ a (.error f τ) →
      OperandsEnd limit n σ (a :: as) (.error f τ)
  | cons {σ a as v τ r} : OperandEnds limit n σ a (.ok v τ) → OperandsEnd limit n τ as r →
      OperandsEnd limit n σ (a :: as) ((ended r >>= fun vs => pure (v :: vs)) τ)

end

mutual

/-- Writing to a place ends so, with at most `n` cells under evaluation at any moment. -/
inductive WriteEnds (limit n : Nat) :
    Session → RecordId → Place → Value → Outcome Key → Prop where
  | plain {σ id p v} :
      (∀ k l c, σ.space.slot? id p = some (k, ⟨l, .cell c⟩) → v.isCell = true) →
      WriteEnds limit n σ id p v (writePlain id p v σ)
  | barred {σ id p v k l c f} : σ.space.slot? id p = some (k, ⟨l, .cell c⟩) → v.isCell = false →
      σ.bars limit id k l = some f → WriteEnds limit n σ id p v (.error f σ)
  | fault {σ id p v k l c r f τ} : σ.space.slot? id p = some (k, ⟨l, .cell c⟩) →
      v.isCell = false → σ.bars limit id k l = none → σ.flight.length < n →
      AssignEnds limit n { σ with flight := (id, k) :: σ.flight } id k v c r →
      guarded id k l (ended r) σ = .error f τ → WriteEnds limit n σ id p v (.error f τ)
  | through {σ id p v k l c r τ q} : σ.space.slot? id p = some (k, ⟨l, .cell c⟩) →
      v.isCell = false → σ.bars limit id k l = none → σ.flight.length < n →
      AssignEnds limit n { σ with flight := (id, k) :: σ.flight } id k v c r →
      guarded id k l (ended r) σ = .ok () τ → ReadEnds limit n τ id (.key k) q →
      WriteEnds limit n σ id p v (noteEffective (fun _ _ => ended q) id k l τ)

/-- Assigning through a cell that the record `owner` holds at `k` ends so. -/
inductive AssignEnds (limit n : Nat) :
    Session → RecordId → Key → Value → Cell → Outcome Unit → Prop where
  | lost {σ owner k v i f τ} : store owner k v σ = .error f τ →
      AssignEnds limit n σ owner k v (.derived i) (.error f τ)
  | derived {σ owner k v i τ r} : store owner k v σ = .ok () τ →
      ReactEnds limit n τ owner (σ.space.derivation i).reactions r →
      AssignEnds limit n σ owner k v (.derived i)
        (followedBy (ended r) (store owner k (.cell (.derived i))) τ)
  | dropped {σ owner k v target m} : σ.space.alive target = false →
      AssignEnds limit n σ owner k v (.reference target m) (.error (.notFound (.referenced m)) σ)
  | reference {σ owner k v target m r} : σ.space.alive target = true →
      WriteEnds limit n σ target (.label m) v r →
      AssignEnds limit n σ owner k v (.reference target m) (discard (ended r) σ)

/-- Running reactions one after the other ends so, at the first fault if there is one. -/
inductive ReactEnds (limit n : Nat) :
    Session → RecordId → List (Label × Formula) → Outcome Unit → Prop where
  | nil {σ owner} : ReactEnds limit n σ owner [] (.ok () σ)
  | formula {σ owner output f rest w τ} : FormulaEnds limit n σ owner f (.error w τ) →
      ReactEnds limit n σ owner ((output, f) :: rest) (.error w τ)
  | output {σ owner output f rest v τ w ρ} : FormulaEnds limit n σ owner f (.ok v τ) →
      WriteEnds limit n τ owner (.label output) v (.error w ρ) →
      ReactEnds limit n σ owner ((output, f) :: rest) (.error w ρ)
  | cons {σ owner output f rest v τ k ρ r} : FormulaEnds limit n σ owner f (.ok v τ) →
      WriteEnds limit n τ owner (.label output) v (.ok k ρ) → ReactEnds limit n ρ owner rest r →
      ReactEnds limit n σ owner ((output, f) :: rest) r

end

end Eval

section Guarding

variable {limit room : Nat} {σ : Session} {id : RecordId} {k : Key} {l : Label} {f : Fault}

end Guarding

namespace Eval

section Steps

variable {σ : Session} {id : RecordId} {k : Key} {l : Label} {c : Cell}

theorem target_bind_nil (f : RecordId → Eval α) (ht : σ.targets = []) :
    (target >>= f) σ = .error (.refused .outsideRecord) σ :=
  bind_of_error (by rw [target_run, ht])

theorem target_bind_cons {targets : List RecordId} (f : RecordId → Eval α)
    (ht : σ.targets = id :: targets) : (target >>= f) σ = f id σ :=
  bind_of_ok (by rw [target_run, ht])

theorem operandEnds_outside_iff {limit n : Nat} {a : Operand} {r : Outcome Value}
    (ht : σ.targets = []) (ha : (∃ l, a = .here l) ∨ (∃ f, a = .nested f)) :
    OperandEnds limit n σ a r ↔ .error (.refused .outsideRecord) σ = r := by
  constructor
  · intro h
    cases h with
    | constant => simp at ha
    | here ht' => simp [ht] at ht'
    | nested ht' => simp [ht] at ht'
    | outside => rfl
    | unknown => simp at ha
    | field => simp at ha
  · rintro rfl
    exact .outside ht ha

end Steps

end Eval

open Eval

variable {limit room : Nat} {read : Reader} {write : Writer}

section Reading

/-- With so much room left, the reader ends as the rules say. -/
structure Reader.Ruled (limit room : Nat) (read : Reader) : Prop where
  restores : ∀ id p, Restores (read id p)
  ends : ∀ {σ : Session} {id p r}, σ.flight.length + room = limit →
    (ReadEnds limit limit σ id p r ↔ read id p σ = r)

mutual

theorem Formula.eval_ruled (hr : Reader.Ruled limit room read) (f : Formula) {σ : Session}
    {id : RecordId} {r : Outcome Value} (hσ : σ.flight.length + room = limit) :
    FormulaEnds limit limit σ id f r ↔ f.eval read id σ = r := by
  cases f with
  | mk name function operands =>
    have hops {q} : OperandsEnd limit limit { σ with targets := id :: σ.targets } operands q ↔
        Operand.evalAll read operands { σ with targets := id :: σ.targets } = q :=
      Operand.evalAll_ruled hr operands hσ
    constructor
    · rintro ⟨h⟩
      rw [← hops.mp h]
      rfl
    · rintro rfl
      exact .apply (hops.mpr rfl)

theorem Operand.eval_ruled (hr : Reader.Ruled limit room read) (a : Operand) {σ : Session}
    {r : Outcome Value} (hσ : σ.flight.length + room = limit) :
    OperandEnds limit limit σ a r ↔ a.eval read σ = r := by
  cases a with
  | constant v =>
    constructor
    · intro h
      cases h with
      | constant => rfl
      | outside _ ha => simp at ha
    · rintro rfl
      exact .constant
  | here l =>
    rw [Operand.eval]
    cases ht : σ.targets with
    | nil =>
      rw [target_bind_nil _ ht, operandEnds_outside_iff ht (.inl ⟨l, rfl⟩)]
    | cons id targets =>
      rw [target_bind_cons _ ht, ← hr.ends hσ]
      constructor
      · intro h
        cases h with
        | here ht' h =>
          cases ht.symm.trans ht'
          exact h
        | outside ht' => simp [ht] at ht'
      · exact .here ht
  | nested f =>
    rw [Operand.eval]
    cases ht : σ.targets with
    | nil =>
      rw [target_bind_nil _ ht, operandEnds_outside_iff ht (.inr ⟨f, rfl⟩)]
    | cons id targets =>
      rw [target_bind_cons _ ht, ← Formula.eval_ruled hr f hσ]
      constructor
      · intro h
        cases h with
        | nested ht' h =>
          cases ht.symm.trans ht'
          exact h
        | outside ht' => simp [ht] at ht'
      · exact .nested ht
  | field name =>
    have hresolve := Eval.resolve_run (.refl σ.space) name.record
    rw [Operand.eval]
    by_cases ha : σ.space.alive name.record.target = true
    · rw [if_pos ha] at hresolve
      rw [bind_of_ok hresolve, ← hr.ends hσ]
      constructor
      · intro h
        cases h with
        | outside _ hx => simp at hx
        | unknown ha' => simp [ha] at ha'
        | field _ h => exact h
      · exact .field ha
    · rw [if_neg ha] at hresolve
      rw [bind_of_error hresolve]
      constructor
      · intro h
        cases h with
        | outside _ hx => simp at hx
        | unknown => rfl
        | field ha' => exact absurd ha' ha
      · rintro rfl
        exact .unknown (by simpa using ha)

theorem Operand.evalAll_ruled (hr : Reader.Ruled limit room read) (as : List Operand)
    {σ : Session} {r : Outcome (List Value)} (hσ : σ.flight.length + room = limit) :
    OperandsEnd limit limit σ as r ↔ Operand.evalAll read as σ = r := by
  cases as with
  | nil =>
    constructor
    · rintro ⟨⟩
      rfl
    · rintro rfl
      exact .nil
  | cons a as =>
    have ha {q} := Operand.eval_ruled hr a (r := q) hσ
    rw [Operand.evalAll]
    constructor
    · intro h
      cases h with
      | fault h => exact bind_of_error (ha.mp h)
      | @cons _ _ _ v τ _ h hrest =>
        have hv := ha.mp h
        have hτ : τ.flight.length + room = limit := by
          rw [((Operand.eval_restores hr.restores a).of_ok hv).1, hσ]
        rw [bind_of_ok hv, ← (Operand.evalAll_ruled hr as hτ).mp hrest]
        rfl
    · rintro rfl
      cases hv : a.eval read σ with
      | error f τ =>
        rw [bind_of_error hv]
        exact .fault (ha.mpr hv)
      | ok v τ =>
        have hτ : τ.flight.length + room = limit := by
          rw [((Operand.eval_restores hr.restores a).of_ok hv).1, hσ]
        rw [bind_of_ok hv]
        exact .cons (ha.mpr hv) ((Operand.evalAll_ruled hr as hτ).mpr rfl)

end

theorem Cell.eval_ruled (hr : Reader.Ruled limit room read) (owner : RecordId) (c : Cell)
    {σ : Session} {r : Outcome Value} (hσ : σ.flight.length + room = limit) :
    CellEnds limit limit σ owner c r ↔ c.eval read owner σ = r := by
  cases c with
  | derived i =>
    rw [Cell.eval, bind_of_ok (space_run σ), ← Formula.eval_ruled hr _ hσ]
    constructor
    · intro h
      cases h with
      | derived h => exact h
    · exact .derived
  | reference target m =>
    have hfollow := Eval.follow_run (.refl σ.space) target m
    rw [Cell.eval]
    by_cases ha : σ.space.alive target = true
    · rw [if_pos ha] at hfollow
      rw [bind_of_ok hfollow, ← hr.ends hσ]
      constructor
      · intro h
        cases h with
        | dropped ha' => simp [ha] at ha'
        | reference _ h => exact h
      · exact .reference ha
    · rw [if_neg ha] at hfollow
      rw [bind_of_error hfollow]
      constructor
      · intro h
        cases h with
        | dropped => rfl
        | reference ha' => exact absurd ha' ha
      · rintro rfl
        exact .dropped (by simpa using ha)

section Places

variable {evaluate : RecordId → Key → Label → Cell → Eval Value} {σ : Session} {id : RecordId}
  {p : Place} {k : Key} {l : Label} {c : Cell} {r : Outcome Value}

end Places

end Reading

section Writing

/-- With so much room left, the writer ends as the rules say. -/
structure Writer.Ruled (limit room : Nat) (write : Writer) : Prop where
  restores : ∀ id p v, Restores (write id p v)
  ends : ∀ {σ : Session} {id p v r}, σ.flight.length + room = limit →
    (WriteEnds limit limit σ id p v r ↔ write id p v σ = r)

variable {σ : Session} {owner : RecordId}

section Places

variable {id : RecordId} {p : Place} {v : Value} {k : Key} {l : Label} {c : Cell}
  {r : Outcome Key}

end Places

end Writing

end LiveRecords
