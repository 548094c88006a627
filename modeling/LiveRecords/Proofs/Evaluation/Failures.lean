import LiveRecords.Proofs.Evaluation.Cycles

/-! # Failures put off

Rules by which the evaluation of a field first meets a failure, and rules by which evaluation ends
that puts failures off: while a record has cells under evaluation it hears of the failures of its
other cells, which count as empty, and when the outermost of its cells is done it answers with the
first failure it heard of. Up to the first failure the two go alike. From there on the first one
to be heard of need not be the first one met, because evaluation may come back to a record, fail
there, and be heard of before the record in between has answered.
-/

namespace LiveRecords

open Relation (ReflTransGen)

variable {α β : Type}

/-- What a record hears when one of its cells ends so. -/
def noted (id : RecordId) : Except Failure α → List (RecordId × Failure)
  | .ok _ => []
  | .error f => [(id, f)]

/-- The first failure that a record heard of. -/
def firstFor (id : RecordId) (heard : List (RecordId × Failure)) : Option Failure :=
  (heard.find? (·.1 = id)).map (·.2)

/-- The first failure to come to light, where these were heard of and evaluation ended so. -/
def told (heard : List (RecordId × Failure)) (o : Except Failure α) : Option Failure :=
  match heard, o with
  | (_, f) :: _, _ => some f
  | [], .error f => some f
  | [], .ok _ => none

/-- What the outermost cell of a record answers, when it ends so in itself. -/
def surfacing (id : RecordId) (o : Except Failure α) (heard : List (RecordId × Failure)) :
    Except Failure α :=
  match firstFor id heard with
  | some f => .error f
  | none => o

section Told

variable {id : RecordId} {heard heard' : List (RecordId × Failure)} {f : Failure}

theorem told_append {v : α} {o : Except Failure β}
    (h : told heard (.ok v : Except Failure α) = some f) :
    told (heard ++ heard') o = some f := by
  cases heard with
  | nil => cases h
  | cons x heard => exact h

theorem told_bind {o : Except Failure α} (g : α → Except Failure β) (h : told heard o = some f) :
    told heard (o.bind g) = some f := by
  cases heard with
  | cons x heard => exact h
  | nil =>
    cases o with
    | ok v => cases h
    | error w => exact h

theorem told_map {o : Except Failure α} (g : α → β) (h : told heard o = some f) :
    told heard (o.map g) = some f := by
  cases heard with
  | cons x heard => exact h
  | nil =>
    cases o with
    | ok v => cases h
    | error w => exact h

theorem told_noted {o : Except Failure α} {v : β} (h : told heard o = some f) :
    told (heard ++ noted id o) (.ok v : Except Failure β) = some f := by
  cases heard with
  | cons x heard => exact h
  | nil =>
    cases o with
    | ok v => cases h
    | error w => exact h

theorem own_noted {o : Except Failure α} (h : ∀ x ∈ heard, x.1 = id) :
    ∀ x ∈ heard ++ noted id o, x.1 = id := by
  refine List.forall_mem_append.mpr ⟨h, ?_⟩
  cases o <;> simp [noted]

theorem others_eq_nil (h : ∀ x ∈ heard, x.1 = id) : heard.filter (·.1 ≠ id) = [] := by
  simpa using h

theorem surfacing_of_told {o : Except Failure α} (hown : ∀ x ∈ heard, x.1 = id)
    (h : told heard o = some f) : surfacing id o heard = .error f := by
  cases heard with
  | cons x heard =>
    cases h
    simp [surfacing, firstFor, hown x List.mem_cons_self]
  | nil =>
    cases o with
    | ok v => cases h
    | error w =>
      cases h
      rfl

theorem firstFor_append (id : RecordId) (heard heard' : List (RecordId × Failure)) :
    firstFor id (heard ++ heard') = (firstFor id heard).or (firstFor id heard') := by
  simp [firstFor, List.find?_append, Option.map_or]

theorem firstFor_noted (id : RecordId) (o : Except Failure α) :
    firstFor id (noted id o) = told [] o := by
  cases o <;> simp [firstFor, noted, told]

theorem firstFor_noted_of_ne {j : RecordId} (h : j ≠ id) (o : Except Failure α) :
    firstFor j (noted id o) = none := by
  cases o <;> simp [firstFor, noted, h.symm]

theorem firstFor_others (id j : RecordId) (heard : List (RecordId × Failure)) :
    firstFor j (heard.filter (·.1 ≠ id)) = if j = id then none else firstFor j heard := by
  unfold firstFor
  rw [List.find?_filter]
  split
  · rename_i hj
    simp [hj]
  · rename_i hj
    congr 2
    funext x
    by_cases hx : x.1 = j
    · simp [hx, hj]
    · simp [hx]

theorem eq_nil_of_firstFor (h : ∀ id, firstFor id heard = none) : heard = [] := by
  cases heard with
  | nil => rfl
  | cons x heard => simpa [firstFor] using h x.1

end Told

namespace Space

section Rules

mutual

/-- The evaluation of a place of a record meets the failure `f` before any other, with at most so
many cells nested in one another. All that is evaluated before has a value. -/
inductive Fails (s : Space) : Nat → RecordId → Place → Failure → Prop where
  | cell {n id p k l c f} :
      s.slot? id p = some (k, ⟨l, .cell c⟩) → CellFails s n id c f → Fails s (n + 1) id p f

inductive CellFails (s : Space) : Nat → RecordId → Cell → Failure → Prop where
  | derived {n owner i f} :
      FormulaFails s n owner (s.derivation i).getter f → CellFails s n owner (.derived i) f
  | reference {n owner target l f} :
      s.alive target = true → Fails s n target (.label l) f →
      CellFails s n owner (.reference target l) f

inductive FormulaFails (s : Space) : Nat → RecordId → Formula → Failure → Prop where
  | apply {n id name apply operands vs f} :
      OperandsYield s n id operands vs → apply s.plainText vs = .error f →
      FormulaFails s n id (.mk name apply operands) (f.within name)
  | operand {n id name apply operands f} :
      OperandsFail s n id operands f → FormulaFails s n id (.mk name apply operands) f

inductive OperandFails (s : Space) : Nat → RecordId → Operand → Failure → Prop where
  | here {n id l f} : Fails s n id (.label l) f → OperandFails s n id (.here l) f
  | nested {n id g f} : FormulaFails s n id g f → OperandFails s n id (.nested g) f
  | field {n id f} {name : FieldName} :
      s.alive name.record.target = true → Fails s n name.record.target (.label name.label) f →
      OperandFails s n id (.field name) f

inductive OperandsFail (s : Space) : Nat → RecordId → List Operand → Failure → Prop where
  | head {n id a as f} : OperandFails s n id a f → OperandsFail s n id (a :: as) f
  | tail {n id a as v f} :
      OperandYields s n id a v → OperandsFail s n id as f → OperandsFail s n id (a :: as) f

end

mutual

/-- While the records in `busy` have cells under evaluation, the evaluation of a place of a record
ends in a value or a failure, and these records hear of the failures listed, in this order. -/
inductive Ends (s : Space) : List RecordId → Nat → RecordId → Place → Except Failure Value →
    List (RecordId × Failure) → Prop where
  | plain {busy n id p k l v} :
      s.slot? id p = some (k, ⟨l, v⟩) → v.isCell = false → Ends s busy n id p (.ok v) []
  | deeper {busy n id p v} :
      s.slot? id p = none → s.value (s.record id).fields p = .ok v → Ends s busy n id p (.ok v) []
  | inner {busy n id p k l c o heard} :
      s.slot? id p = some (k, ⟨l, .cell c⟩) → id ∈ busy → CellEnds s busy n id c o heard →
      Ends s busy (n + 1) id p (.ok (o.toOption.getD .empty)) (heard ++ noted id o)
  | outermost {busy n id p k l c o heard} :
      s.slot? id p = some (k, ⟨l, .cell c⟩) → id ∉ busy → CellEnds s (id :: busy) n id c o heard →
      Ends s busy (n + 1) id p (surfacing id o heard) (heard.filter (·.1 ≠ id))

inductive CellEnds (s : Space) : List RecordId → Nat → RecordId → Cell → Except Failure Value →
    List (RecordId × Failure) → Prop where
  | derived {busy n owner i o heard} :
      FormulaEnds s busy n owner (s.derivation i).getter o heard →
      CellEnds s busy n owner (.derived i) o heard
  | reference {busy n owner target l o heard} :
      s.alive target = true → Ends s busy n target (.label l) o heard →
      CellEnds s busy n owner (.reference target l) o heard

inductive FormulaEnds (s : Space) : List RecordId → Nat → RecordId → Formula →
    Except Failure Value → List (RecordId × Failure) → Prop where
  | apply {busy n id name apply operands o heard} :
      OperandsEnd s busy n id operands o heard →
      FormulaEnds s busy n id (.mk name apply operands)
        (o.bind fun vs => (apply s.plainText vs).mapError (·.within name)) heard

inductive OperandEnds (s : Space) : List RecordId → Nat → RecordId → Operand →
    Except Failure Value → List (RecordId × Failure) → Prop where
  | constant {busy n id v} : OperandEnds s busy n id (.constant v) (.ok v) []
  | here {busy n id l o heard} :
      Ends s busy n id (.label l) o heard → OperandEnds s busy n id (.here l) o heard
  | nested {busy n id f o heard} :
      FormulaEnds s busy n id f o heard → OperandEnds s busy n id (.nested f) o heard
  | field {busy n id o heard} {name : FieldName} :
      s.alive name.record.target = true →
      Ends s busy n name.record.target (.label name.label) o heard →
      OperandEnds s busy n id (.field name) o heard

inductive OperandsEnd (s : Space) : List RecordId → Nat → RecordId → List Operand →
    Except Failure (List Value) → List (RecordId × Failure) → Prop where
  | nil {busy n id} : OperandsEnd s busy n id [] (.ok []) []
  | cons {busy n id a as v o heard heard'} :
      OperandEnds s busy n id a (.ok v) heard → OperandsEnd s busy n id as o heard' →
      OperandsEnd s busy n id (a :: as) (o.map (v :: ·)) (heard ++ heard')
  | fails {busy n id a as f heard} :
      OperandEnds s busy n id a (.error f) heard →
      OperandsEnd s busy n id (a :: as) (.error f) heard

end

end Rules

variable {s : Space}

section Unique

mutual

/-- The rules leave no choice, whatever room their derivations need. -/
theorem Ends.unique {busy : List RecordId} {n m : Nat} {id : RecordId} {p : Place}
    {o o' : Except Failure Value} {heard heard' : List (RecordId × Failure)}
    (h : s.Ends busy n id p o heard) (h' : s.Ends busy m id p o' heard') :
    o = o' ∧ heard = heard' := by
  match h with
  | .plain hs hv =>
    cases h' with
    | plain hs' => rw [hs] at hs'; cases hs'; exact ⟨rfl, rfl⟩
    | deeper hs' => rw [hs] at hs'; cases hs'
    | inner hs' => rw [hs] at hs'; cases hs'; cases hv
    | outermost hs' => rw [hs] at hs'; cases hs'; cases hv
  | .deeper hs hv =>
    cases h' with
    | plain hs' => rw [hs] at hs'; cases hs'
    | deeper _ hv' => rw [hv] at hv'; cases hv'; exact ⟨rfl, rfl⟩
    | inner hs' => rw [hs] at hs'; cases hs'
    | outermost hs' => rw [hs] at hs'; cases hs'
  | .inner hs hb hc =>
    cases h' with
    | plain hs' hv' => rw [hs] at hs'; cases hs'; cases hv'
    | deeper hs' => rw [hs] at hs'; cases hs'
    | inner hs' _ hc' =>
      rw [hs] at hs'
      cases hs'
      obtain ⟨rfl, rfl⟩ := CellEnds.unique hc hc'
      exact ⟨rfl, rfl⟩
    | outermost _ hb' => exact absurd hb hb'
  | .outermost hs hb hc =>
    cases h' with
    | plain hs' hv' => rw [hs] at hs'; cases hs'; cases hv'
    | deeper hs' => rw [hs] at hs'; cases hs'
    | inner _ hb' => exact absurd hb' hb
    | outermost hs' _ hc' =>
      rw [hs] at hs'
      cases hs'
      obtain ⟨rfl, rfl⟩ := CellEnds.unique hc hc'
      exact ⟨rfl, rfl⟩
termination_by structural h

theorem CellEnds.unique {busy : List RecordId} {n m : Nat} {id : RecordId} {c : Cell}
    {o o' : Except Failure Value} {heard heard' : List (RecordId × Failure)}
    (h : s.CellEnds busy n id c o heard) (h' : s.CellEnds busy m id c o' heard') :
    o = o' ∧ heard = heard' := by
  match h with
  | .derived hf => cases h' with | derived hf' => exact FormulaEnds.unique hf hf'
  | .reference _ he => cases h' with | reference _ he' => exact Ends.unique he he'
termination_by structural h

theorem FormulaEnds.unique {busy : List RecordId} {n m : Nat} {id : RecordId} {f : Formula}
    {o o' : Except Failure Value} {heard heard' : List (RecordId × Failure)}
    (h : s.FormulaEnds busy n id f o heard) (h' : s.FormulaEnds busy m id f o' heard') :
    o = o' ∧ heard = heard' := by
  match h with
  | .apply ha =>
    cases h' with
    | apply ha' =>
      obtain ⟨rfl, rfl⟩ := OperandsEnd.unique ha ha'
      exact ⟨rfl, rfl⟩
termination_by structural h

theorem OperandEnds.unique {busy : List RecordId} {n m : Nat} {id : RecordId} {a : Operand}
    {o o' : Except Failure Value} {heard heard' : List (RecordId × Failure)}
    (h : s.OperandEnds busy n id a o heard) (h' : s.OperandEnds busy m id a o' heard') :
    o = o' ∧ heard = heard' := by
  match h with
  | .constant => cases h'; exact ⟨rfl, rfl⟩
  | .here he => cases h' with | here he' => exact Ends.unique he he'
  | .nested hf => cases h' with | nested hf' => exact FormulaEnds.unique hf hf'
  | .field _ he => cases h' with | field _ he' => exact Ends.unique he he'
termination_by structural h

theorem OperandsEnd.unique {busy : List RecordId} {n m : Nat} {id : RecordId}
    {as : List Operand} {o o' : Except Failure (List Value)}
    {heard heard' : List (RecordId × Failure)}
    (h : s.OperandsEnd busy n id as o heard) (h' : s.OperandsEnd busy m id as o' heard') :
    o = o' ∧ heard = heard' := by
  match h with
  | .nil => cases h'; exact ⟨rfl, rfl⟩
  | .cons ha has =>
    cases h' with
    | cons ha' has' =>
      obtain ⟨hv, rfl⟩ := OperandEnds.unique ha ha'
      obtain ⟨rfl, rfl⟩ := OperandsEnd.unique has has'
      cases hv
      exact ⟨rfl, rfl⟩
    | fails ha' => cases (OperandEnds.unique ha ha').1
  | .fails ha =>
    cases h' with
    | cons ha' => cases (OperandEnds.unique ha ha').1
    | fails ha' =>
      obtain ⟨hf, rfl⟩ := OperandEnds.unique ha ha'
      cases hf
      exact ⟨rfl, rfl⟩
termination_by structural h

end

end Unique

section FirstFailure

mutual

theorem Fails.not_yields {n m : Nat} {id : RecordId} {p : Place} {f : Failure} {v : Value}
    (h : s.Fails n id p f) : ¬ s.Yields m id p v := by
  match h with
  | .cell hs hc =>
    intro hv
    obtain ⟨i, -, hv⟩ := (yields_cell_iff hs).mp hv
    exact CellFails.not_yields hc hv
termination_by structural h

theorem CellFails.not_yields {n m : Nat} {id : RecordId} {c : Cell} {f : Failure} {v : Value}
    (h : s.CellFails n id c f) : ¬ s.CellYields m id c v := by
  match h with
  | .derived hf => rintro ⟨hv⟩; exact FormulaFails.not_yields hf hv
  | .reference _ hf => rintro (_ | ⟨_, hv⟩); exact Fails.not_yields hf hv
termination_by structural h

theorem FormulaFails.not_yields {n m : Nat} {id : RecordId} {a : Formula} {f : Failure}
    {v : Value} (h : s.FormulaFails n id a f) : ¬ s.FormulaYields m id a v := by
  match h with
  | .apply hvs hf =>
    rintro ⟨hvs', hv⟩
    rw [hvs'.unique hvs, hf] at hv
    cases hv
  | .operand hf => rintro ⟨hvs, -⟩; exact OperandsFail.not_yield hf hvs
termination_by structural h

theorem OperandFails.not_yields {n m : Nat} {id : RecordId} {a : Operand} {f : Failure}
    {v : Value} (h : s.OperandFails n id a f) : ¬ s.OperandYields m id a v := by
  match h with
  | .here hf => intro hv; cases hv with | here hv => exact Fails.not_yields hf hv
  | .nested hf => intro hv; cases hv with | nested hv => exact FormulaFails.not_yields hf hv
  | .field _ hf => intro hv; cases hv with | field _ hv => exact Fails.not_yields hf hv
termination_by structural h

theorem OperandsFail.not_yield {n m : Nat} {id : RecordId} {as : List Operand} {f : Failure}
    {vs : List Value} (h : s.OperandsFail n id as f) : ¬ s.OperandsYield m id as vs := by
  match h with
  | .head ha => intro hvs; cases hvs with | cons hv _ => exact OperandFails.not_yields ha hv
  | .tail _ has => intro hvs; cases hvs with | cons _ hvs => exact OperandsFail.not_yield has hvs
termination_by structural h

end

mutual

theorem Fails.unique {n m : Nat} {id : RecordId} {p : Place} {f g : Failure}
    (h : s.Fails n id p f) (h' : s.Fails m id p g) : f = g := by
  match h with
  | .cell hs hc =>
    obtain ⟨hs', hc'⟩ := h'
    rw [hs] at hs'
    cases hs'
    exact CellFails.unique hc hc'
termination_by structural h

theorem CellFails.unique {n m : Nat} {id : RecordId} {c : Cell} {f g : Failure}
    (h : s.CellFails n id c f) (h' : s.CellFails m id c g) : f = g := by
  match h with
  | .derived hf => cases h' with | derived hf' => exact FormulaFails.unique hf hf'
  | .reference _ hf => cases h' with | reference _ hf' => exact Fails.unique hf hf'
termination_by structural h

theorem FormulaFails.unique {n m : Nat} {id : RecordId} {a : Formula} {f g : Failure}
    (h : s.FormulaFails n id a f) (h' : s.FormulaFails m id a g) : f = g := by
  match h with
  | .apply hvs hf =>
    cases h' with
    | apply hvs' hf' =>
      rw [hvs'.unique hvs, hf] at hf'
      cases hf'
      rfl
    | operand hf' => exact absurd hvs hf'.not_yield
  | .operand hf =>
    cases h' with
    | apply hvs => exact absurd hvs hf.not_yield
    | operand hf' => exact OperandsFail.unique hf hf'
termination_by structural h

theorem OperandFails.unique {n m : Nat} {id : RecordId} {a : Operand} {f g : Failure}
    (h : s.OperandFails n id a f) (h' : s.OperandFails m id a g) : f = g := by
  match h with
  | .here hf => cases h' with | here hf' => exact Fails.unique hf hf'
  | .nested hf => cases h' with | nested hf' => exact FormulaFails.unique hf hf'
  | .field _ hf => cases h' with | field _ hf' => exact Fails.unique hf hf'
termination_by structural h

theorem OperandsFail.unique {n m : Nat} {id : RecordId} {as : List Operand} {f g : Failure}
    (h : s.OperandsFail n id as f) (h' : s.OperandsFail m id as g) : f = g := by
  match h with
  | .head ha =>
    cases h' with
    | head ha' => exact OperandFails.unique ha ha'
    | tail hv _ => exact absurd hv ha.not_yields
  | .tail hv has =>
    cases h' with
    | head ha' => exact absurd hv ha'.not_yields
    | tail _ has' => exact OperandsFail.unique has has'
termination_by structural h

end

end FirstFailure

section Order

/-- Evaluation that sets out from `root` passes through a record, goes on to another one and comes
back to the first at the field `z`. -/
def ComesBack (s : Space) (root z : RecordId × Key) : Prop :=
  ∃ x y, ReflTransGen s.Depends root x ∧ ReflTransGen s.Depends x y ∧
    ReflTransGen s.Depends y z ∧ y.1 ≠ x.1 ∧ z.1 = x.1

/-- No field at which evaluation from `root` comes back to a record meets a failure. -/
def ReturnsSafely (s : Space) (root : RecordId × Key) : Prop :=
  ∀ z, s.ComesBack root z → ∀ n f, ¬ s.Fails n z.1 (.key z.2) f

/-- Evaluation from `root` on to the field `e` passes through all records in `busy`. -/
structure Trail (s : Space) (root : RecordId × Key) (busy : List RecordId) (e : RecordId × Key) :
    Prop where
  mem : e.1 ∈ busy
  passed : ∀ r ∈ busy, ∃ x, x.1 = r ∧ ReflTransGen s.Depends root x ∧ ReflTransGen s.Depends x e

variable {root e g : RecordId × Key} {busy : List RecordId}

theorem Trail.start (root : RecordId × Key) : s.Trail root [root.1] root :=
  ⟨List.mem_singleton_self _, fun _ hr => ⟨root, (List.mem_singleton.mp hr).symm, .refl, .refl⟩⟩

theorem Trail.enter (h : s.Trail root busy e) (hd : s.Depends e g) :
    s.Trail root (g.1 :: busy) g := by
  refine ⟨List.mem_cons_self, fun r hr => ?_⟩
  rcases List.mem_cons.mp hr with rfl | hr
  · obtain ⟨x, -, hx, hxe⟩ := h.passed _ h.mem
    exact ⟨g, rfl, (hx.trans hxe).tail hd, .refl⟩
  · obtain ⟨x, hxr, hx, hxe⟩ := h.passed r hr
    exact ⟨x, hxr, hx, hxe.tail hd⟩

theorem Trail.next (h : s.Trail root busy e) (hd : s.Depends e g) (hg : g.1 ∈ busy) :
    s.Trail root busy g :=
  ⟨hg, fun r hr => (h.enter hd).passed r (List.mem_cons_of_mem _ hr)⟩

theorem Trail.comesBack (h : s.Trail root busy e) (hd : s.Depends e g) (hg : g.1 ∈ busy)
    (hne : g.1 ≠ e.1) : s.ComesBack root g := by
  obtain ⟨x, hxg, hx, hxe⟩ := h.passed _ hg
  exact ⟨x, e, hx, hxe, .single hd, fun he => hne (he.trans hxg).symm, hxg.symm⟩

/-- What has been heard of on behalf of the record `r`, and how evaluation ended, accounts for a
value or for a failure met first. If evaluation from `root` returns safely, the failure met first
is the first to come to light. -/
inductive Accounts (s : Space) (root : RecordId × Key) (r : RecordId) (yields : α → Prop)
    (fails : Failure → Prop) (o : Except Failure α) (heard : List (RecordId × Failure)) : Prop
  | value {v} : yields v → o = .ok v → heard = [] → Accounts s root r yields fails o heard
  | failure {f} : fails f →
      (s.ReturnsSafely root → (∀ x ∈ heard, x.1 = r) ∧ told heard o = some f) →
      Accounts s root r yields fails o heard

theorem Accounts.own {r : RecordId} {yields : α → Prop} {fails : Failure → Prop}
    {o : Except Failure α} {heard : List (RecordId × Failure)}
    (h : s.Accounts root r yields fails o heard) (hs : s.ReturnsSafely root) :
    ∀ x ∈ heard, x.1 = r := by
  cases h with
  | value _ _ hh => simp [hh]
  | failure _ hf => exact (hf hs).1

mutual

/-- The induction is on the derivation of the end. Where the first failure is met at a field of a
record with cells under evaluation, evaluation has either stayed with this record, or has come
back to it. -/
theorem Ends.accounts {root e : RecordId × Key} {busy : List RecordId} {n : Nat} {j : RecordId}
    {p : Place} {o : Except Failure Value} {heard : List (RecordId × Failure)}
    (h : s.Ends busy n j p o heard) (ht : s.Trail root busy e)
    (hd : ∀ q f, s.slot? j p = some (q, f) → s.Depends e (j, q)) :
    s.Accounts root e.1 (s.Yields n j p) (s.Fails n j p) o heard := by
  match h with
  | .plain hs hv => exact .value (.plain hs hv) rfl rfl
  | .deeper hs hv => exact .value (.deeper hs hv) rfl rfl
  | .inner hs hb hc =>
    have hde := hd _ _ hs
    cases CellEnds.accounts hc (ht.next hde hb) (slot?_key hs) with
    | value hy ho hh =>
      subst ho hh
      exact .value (.cell hs hy) rfl rfl
    | failure hf hfirst =>
      refine .failure (.cell hs hf) fun hsafe => ?_
      -- A return to this record by way of another one would not have been safe.
      have hj : j = e.1 := Classical.byContradiction fun hne =>
        hsafe _ (ht.comesBack hde hb hne) _ _ (.cell (slot?_key hs) hf)
      obtain ⟨hown, htold⟩ := hfirst hsafe
      exact ⟨hj ▸ own_noted hown, told_noted htold⟩
  | .outermost hs hb hc =>
    cases CellEnds.accounts hc (ht.enter (hd _ _ hs)) (slot?_key hs) with
    | value hy ho hh =>
      subst ho hh
      exact .value (.cell hs hy) rfl rfl
    | failure hf hfirst =>
      refine .failure (.cell hs hf) fun hsafe => ?_
      obtain ⟨hown, htold⟩ := hfirst hsafe
      rw [surfacing_of_told hown htold, others_eq_nil hown]
      exact ⟨nofun, rfl⟩
termination_by structural h

theorem CellEnds.accounts {root : RecordId × Key} {busy : List RecordId} {n : Nat}
    {id : RecordId} {k : Key} {l : Label} {c : Cell} {o : Except Failure Value}
    {heard : List (RecordId × Failure)} (h : s.CellEnds busy n id c o heard)
    (ht : s.Trail root busy (id, k)) (hs : s.slot? id (.key k) = some (k, ⟨l, .cell c⟩)) :
    s.Accounts root id (s.CellYields n id c) (s.CellFails n id c) o heard := by
  match h with
  | .derived hf =>
    cases FormulaEnds.accounts hf ht fun hr _ _ hg => .intro hs (.derived hr) hg with
    | value hy ho hh => exact .value (.derived hy) ho hh
    | failure hf hfirst => exact .failure (.derived hf) hfirst
  | .reference hl he =>
    cases Ends.accounts he ht fun _ _ hg => .intro hs .reference hg with
    | value hy ho hh => exact .value (.reference hl hy) ho hh
    | failure hf hfirst => exact .failure (.reference hl hf) hfirst
termination_by structural h

theorem FormulaEnds.accounts {root : RecordId × Key} {busy : List RecordId} {n : Nat}
    {id : RecordId} {k : Key} {f : Formula} {o : Except Failure Value}
    {heard : List (RecordId × Failure)} (h : s.FormulaEnds busy n id f o heard)
    (ht : s.Trail root busy (id, k)) (hf : s.Covers (id, k) (f.Reads id)) :
    s.Accounts root id (s.FormulaYields n id f) (s.FormulaFails n id f) o heard := by
  match h with
  | @FormulaEnds.apply _ _ _ _ name apply _ _ _ ha =>
    cases OperandsEnd.accounts ha ht fun a ha _ _ hr => hf ⟨a, ha, hr⟩ with
    | value hys ho hh =>
      subst ho
      cases hv : apply s.plainText _ with
      | ok v =>
        refine .value (.apply hys hv) ?_ hh
        rw [Except.bind, hv]
        rfl
      | error g =>
        refine .failure (.apply hys hv) fun _ => ?_
        subst hh
        rw [Except.bind, hv]
        exact ⟨nofun, rfl⟩
    | failure hf hfirst =>
      exact .failure (.operand hf) fun hsafe =>
        ⟨(hfirst hsafe).1, told_bind _ (hfirst hsafe).2⟩
termination_by structural h

theorem OperandEnds.accounts {root : RecordId × Key} {busy : List RecordId} {n : Nat}
    {id : RecordId} {k : Key} {a : Operand} {o : Except Failure Value}
    {heard : List (RecordId × Failure)} (h : s.OperandEnds busy n id a o heard)
    (ht : s.Trail root busy (id, k)) (ha : s.Covers (id, k) (a.Reads id)) :
    s.Accounts root id (s.OperandYields n id a) (s.OperandFails n id a) o heard := by
  match h with
  | .constant => exact .value .constant rfl rfl
  | .here he =>
    cases Ends.accounts he ht (ha .here) with
    | value hy ho hh => exact .value (.here hy) ho hh
    | failure hf hfirst => exact .failure (.here hf) hfirst
  | .nested (f := .mk _ _ _) hf =>
    cases FormulaEnds.accounts hf ht fun ⟨b, hb, hr⟩ => ha (.nested hb hr) with
    | value hy ho hh => exact .value (.nested hy) ho hh
    | failure hf hfirst => exact .failure (.nested hf) hfirst
  | .field hl he =>
    cases Ends.accounts he ht (ha .field) with
    | value hy ho hh => exact .value (.field hl hy) ho hh
    | failure hf hfirst => exact .failure (.field hl hf) hfirst
termination_by structural h

theorem OperandsEnd.accounts {root : RecordId × Key} {busy : List RecordId} {n : Nat}
    {id : RecordId} {k : Key} {as : List Operand} {o : Except Failure (List Value)}
    {heard : List (RecordId × Failure)} (h : s.OperandsEnd busy n id as o heard)
    (ht : s.Trail root busy (id, k)) (has : ∀ a ∈ as, s.Covers (id, k) (a.Reads id)) :
    s.Accounts root id (s.OperandsYield n id as) (s.OperandsFail n id as) o heard := by
  match h with
  | .nil => exact .value .nil rfl rfl
  | .cons hhead hrest =>
    rw [List.forall_mem_cons] at has
    have hrest := OperandsEnd.accounts hrest ht has.2
    cases OperandEnds.accounts hhead ht has.1 with
    | value hy ho hh =>
      cases ho
      subst hh
      cases hrest with
      | value hys ho hh =>
        subst ho hh
        exact .value (.cons hy hys) rfl rfl
      | failure hf hfirst =>
        exact .failure (.tail hy hf) fun hsafe => ⟨(hfirst hsafe).1, told_map _ (hfirst hsafe).2⟩
    | failure hf hfirst =>
      refine .failure (.head hf) fun hsafe => ⟨?_, told_append (hfirst hsafe).2⟩
      exact List.forall_mem_append.mpr ⟨(hfirst hsafe).1, hrest.own hsafe⟩
  | .fails hhead =>
    rw [List.forall_mem_cons] at has
    cases OperandEnds.accounts hhead ht has.1 with
    | value _ ho => cases ho
    | failure hf hfirst =>
      exact .failure (.head hf) fun hsafe =>
        ⟨(hfirst hsafe).1, told_map (fun v => [v]) (hfirst hsafe).2⟩
termination_by structural h

end

end Order

end Space

end LiveRecords
