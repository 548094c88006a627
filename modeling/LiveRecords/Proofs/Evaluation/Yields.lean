import LiveRecords.Proofs.Evaluation.Agreement

/-! # Plain evaluation

What reading a field amounts to when nothing is guarded, counted or put off: rules by which
fields, cells, formulas and operands have values. A derivation has a value for everything it
mentions, so it has none where anything on the way fails. The rules only keep track of how many
cells are nested in one another.
-/

namespace LiveRecords

namespace Space

mutual

/-- The place `p` of a record has the value `v`, with at most so many cells nested in one
another. -/
inductive Yields (s : Space) : Nat → RecordId → Place → Value → Prop where
  | plain {n id p k l v} :
      s.slot? id p = some (k, ⟨l, v⟩) → v.isCell = false → Yields s n id p v
  | deeper {n id p v} :
      s.slot? id p = none → s.value (s.record id).fields p = .ok v → Yields s n id p v
  | cell {n id p k l c v} :
      s.slot? id p = some (k, ⟨l, .cell c⟩) → CellYields s n id c v → Yields s (n + 1) id p v

/-- A cell held by the record `owner` has the value `v`. -/
inductive CellYields (s : Space) : Nat → RecordId → Cell → Value → Prop where
  | derived {n owner i v} :
      FormulaYields s n owner (s.derivation i).getter v → CellYields s n owner (.derived i) v
  | reference {n owner target l v} :
      s.alive target = true → Yields s n target (.label l) v →
      CellYields s n owner (.reference target l) v

/-- A formula has the value `v` for the record `id`. -/
inductive FormulaYields (s : Space) : Nat → RecordId → Formula → Value → Prop where
  | apply {n id name apply operands vs v} :
      OperandsYield s n id operands vs → apply s.plainText vs = .ok v →
      FormulaYields s n id (.mk name apply operands) v

inductive OperandYields (s : Space) : Nat → RecordId → Operand → Value → Prop where
  | constant {n id v} : OperandYields s n id (.constant v) v
  | here {n id l v} : Yields s n id (.label l) v → OperandYields s n id (.here l) v
  | nested {n id f v} : FormulaYields s n id f v → OperandYields s n id (.nested f) v
  | field {n id v} {name : FieldName} :
      s.alive name.record.target = true → Yields s n name.record.target (.label name.label) v →
      OperandYields s n id (.field name) v

inductive OperandsYield (s : Space) : Nat → RecordId → List Operand → List Value → Prop where
  | nil {n id} : OperandsYield s n id [] []
  | cons {n id a as v vs} :
      OperandYields s n id a v → OperandsYield s n id as vs →
      OperandsYield s n id (a :: as) (v :: vs)

end

variable {s t : Space}

section Inversion

variable {n : Nat} {id : RecordId} {p : Place} {k : Key} {l : Label} {v w : Value}

theorem yields_plain_iff (hs : s.slot? id p = some (k, ⟨l, v⟩)) (hv : v.isCell = false) :
    s.Yields n id p w ↔ w = v := by
  constructor
  · rintro (⟨hs', -⟩ | ⟨hs', -⟩ | ⟨hs', -⟩) <;> rw [hs] at hs' <;> cases hs'
    · rfl
    · cases hv
  · rintro rfl
    exact .plain hs hv

theorem yields_deeper_iff (hs : s.slot? id p = none) :
    s.Yields n id p v ↔ s.value (s.record id).fields p = .ok v := by
  refine ⟨?_, .deeper hs⟩
  rintro (⟨hs', -⟩ | ⟨-, hv⟩ | ⟨hs', -⟩)
  · rw [hs] at hs'
    cases hs'
  · exact hv
  · rw [hs] at hs'
    cases hs'

theorem yields_cell_iff {c : Cell} (hs : s.slot? id p = some (k, ⟨l, .cell c⟩)) :
    s.Yields n id p v ↔ ∃ m, n = m + 1 ∧ s.CellYields m id c v := by
  constructor
  · rintro (⟨hs', hv⟩ | ⟨hs', -⟩ | ⟨hs', hc⟩) <;> rw [hs] at hs' <;> cases hs'
    · cases hv
    · exact ⟨_, rfl, hc⟩
  · rintro ⟨m, rfl, hc⟩
    exact .cell hs hc

end Inversion

mutual

theorem Yields.mono {n m : Nat} {id : RecordId} {p : Place} {v : Value}
    (h : s.Yields n id p v) (hnm : n ≤ m) : s.Yields m id p v := by
  match h with
  | .plain hs hv => exact .plain hs hv
  | .deeper hs hv => exact .deeper hs hv
  | .cell hs hc =>
    obtain ⟨k, rfl⟩ : ∃ k, m = k + 1 := ⟨m - 1, by omega⟩
    exact .cell hs (CellYields.mono hc (Nat.le_of_succ_le_succ hnm))

theorem CellYields.mono {n m : Nat} {id : RecordId} {c : Cell} {v : Value}
    (h : s.CellYields n id c v) (hnm : n ≤ m) : s.CellYields m id c v := by
  match h with
  | .derived hf => exact .derived (FormulaYields.mono hf hnm)
  | .reference ha hy => exact .reference ha (Yields.mono hy hnm)

theorem FormulaYields.mono {n m : Nat} {id : RecordId} {f : Formula} {v : Value}
    (h : s.FormulaYields n id f v) (hnm : n ≤ m) : s.FormulaYields m id f v := by
  match h with
  | .apply hvs hv => exact .apply (OperandsYield.mono hvs hnm) hv

theorem OperandYields.mono {n m : Nat} {id : RecordId} {a : Operand} {v : Value}
    (h : s.OperandYields n id a v) (hnm : n ≤ m) : s.OperandYields m id a v := by
  match h with
  | .constant => exact .constant
  | .here hy => exact .here (Yields.mono hy hnm)
  | .nested hf => exact .nested (FormulaYields.mono hf hnm)
  | .field ha hy => exact .field ha (Yields.mono hy hnm)

theorem OperandsYield.mono {n m : Nat} {id : RecordId} {as : List Operand} {vs : List Value}
    (h : s.OperandsYield n id as vs) (hnm : n ≤ m) : s.OperandsYield m id as vs := by
  match h with
  | .nil => exact .nil
  | .cons ha has => exact .cons (OperandYields.mono ha hnm) (OperandsYield.mono has hnm)

end

mutual

/-- A field has one value at most, whatever room its derivations need. -/
theorem Yields.unique {n m : Nat} {id : RecordId} {p : Place} {v w : Value}
    (h : s.Yields n id p v) (h' : s.Yields m id p w) : v = w := by
  match h with
  | .plain hs hv => exact ((yields_plain_iff hs hv).mp h').symm
  | .deeper hs hv =>
    rw [yields_deeper_iff hs, hv] at h'
    exact Except.ok.inj h'
  | .cell hs hc =>
    obtain ⟨_, -, hc'⟩ := (yields_cell_iff hs).mp h'
    exact CellYields.unique hc hc'
termination_by structural h

theorem CellYields.unique {n m : Nat} {id : RecordId} {c : Cell} {v w : Value}
    (h : s.CellYields n id c v) (h' : s.CellYields m id c w) : v = w := by
  match h with
  | .derived hf => cases h' with | derived hf' => exact FormulaYields.unique hf hf'
  | .reference ha hy => cases h' with | reference ha' hy' => exact Yields.unique hy hy'
termination_by structural h

theorem FormulaYields.unique {n m : Nat} {id : RecordId} {f : Formula} {v w : Value}
    (h : s.FormulaYields n id f v) (h' : s.FormulaYields m id f w) : v = w := by
  match h with
  | .apply hvs hv =>
    cases h' with
    | apply hvs' hw =>
      rw [OperandsYield.unique hvs hvs', hw] at hv
      exact (Except.ok.inj hv).symm
termination_by structural h

theorem OperandYields.unique {n m : Nat} {id : RecordId} {a : Operand} {v w : Value}
    (h : s.OperandYields n id a v) (h' : s.OperandYields m id a w) : v = w := by
  match h with
  | .constant => cases h'; rfl
  | .here hy => cases h' with | here hy' => exact Yields.unique hy hy'
  | .nested hf => cases h' with | nested hf' => exact FormulaYields.unique hf hf'
  | .field ha hy => cases h' with | field ha' hy' => exact Yields.unique hy hy'
termination_by structural h

theorem OperandsYield.unique {n m : Nat} {id : RecordId} {as : List Operand}
    {vs ws : List Value} (h : s.OperandsYield n id as vs) (h' : s.OperandsYield m id as ws) :
    vs = ws := by
  match h with
  | .nil => cases h'; rfl
  | .cons ha has =>
    cases h' with
    | cons ha' has' => rw [OperandYields.unique ha ha', OperandsYield.unique has has']
termination_by structural h

end

mutual

/-- Fields have the same values in all spaces that hold the same. -/
theorem Yields.congr (ha : Agree s t) {n : Nat} {id : RecordId} {p : Place} {v : Value}
    (h : s.Yields n id p v) : t.Yields n id p v := by
  match h with
  | .plain hs hv => exact .plain ((ha.slot? id p).trans hs) hv
  | .deeper hs hv =>
    refine .deeper ((ha.slot? id p).trans hs) ?_
    rwa [ha.fields, ha.value]
  | .cell hs hc => exact .cell ((ha.slot? id p).trans hs) (CellYields.congr ha hc)

theorem CellYields.congr (ha : Agree s t) {n : Nat} {id : RecordId} {c : Cell} {v : Value}
    (h : s.CellYields n id c v) : t.CellYields n id c v := by
  match h with
  | .derived hf => exact .derived (ha.derivation _ ▸ FormulaYields.congr ha hf)
  | .reference hl hy => exact .reference ((ha.alive _).trans hl) (Yields.congr ha hy)

theorem FormulaYields.congr (ha : Agree s t) {n : Nat} {id : RecordId} {f : Formula} {v : Value}
    (h : s.FormulaYields n id f v) : t.FormulaYields n id f v := by
  match h with
  | .apply hvs hv => exact .apply (OperandsYield.congr ha hvs) (ha.plainText ▸ hv)

theorem OperandYields.congr (ha : Agree s t) {n : Nat} {id : RecordId} {a : Operand} {v : Value}
    (h : s.OperandYields n id a v) : t.OperandYields n id a v := by
  match h with
  | .constant => exact .constant
  | .here hy => exact .here (Yields.congr ha hy)
  | .nested hf => exact .nested (FormulaYields.congr ha hf)
  | .field hl hy => exact .field ((ha.alive _).trans hl) (Yields.congr ha hy)

theorem OperandsYield.congr (ha : Agree s t) {n : Nat} {id : RecordId} {as : List Operand}
    {vs : List Value} (h : s.OperandsYield n id as vs) : t.OperandsYield n id as vs := by
  match h with
  | .nil => exact .nil
  | .cons hv hvs => exact .cons (OperandYields.congr ha hv) (OperandsYield.congr ha hvs)

end

end Space

end LiveRecords
