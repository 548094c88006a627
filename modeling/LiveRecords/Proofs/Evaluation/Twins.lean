import Mathlib.Data.List.Forall2
import LiveRecords.Proofs.Container.Mirror
import LiveRecords.Proofs.Evaluation.Reading

/-! # Records that read alike

Two records with the same labels and values in the same order read alike, even if each has derived
cells of its own, as long as the formulas are the same. What a formula looks up by label it finds
in the one record or in the other; by name or reference it gets to one and the same record from
both.
-/

namespace LiveRecords

namespace Space

/-- Equal values, or derived cells with the same formulas. -/
inductive Twin (s : Space) : Value → Value → Prop where
  | same (v : Value) : Twin s v v
  | derived {i j d} : s.derived.get? i = some d → s.derived.get? j = some d →
      Twin s (.cell (.derived i)) (.cell (.derived j))

/-- Fields with the same label and with twins for values. -/
def TwinFields (s : Space) (f g : Field) : Prop := g.label = f.label ∧ s.Twin f.value g.value

/-- The fields of both records are twins in order. -/
def Twins (s : Space) (a b : RecordId) : Prop :=
  List.Forall₂ (fun e e' => s.TwinFields e.2 e'.2) (s.record a).fields.entries
    (s.record b).fields.entries

/-- The fields at both places have twins for values. -/
def TwinPlaces (s : Space) (a : RecordId) (p : Place) (b : RecordId) (q : Place) : Prop :=
  ∃ k f j g, s.slot? a p = some (k, f) ∧ s.slot? b q = some (j, g) ∧ s.Twin f.value g.value

variable {s t : Space} {a b : RecordId} {p q : Place} {k j : Key} {f g : Field} {l : Label}
  {v w : Value} {c c' : Cell} {i : DerivedId} {n : Nat}

namespace Twin

theorem symm (h : s.Twin v w) : s.Twin w v := by
  cases h with
  | same => exact .same v
  | derived hi hj => exact .derived hj hi

theorem mono (h : s.Twin v w)
    (hd : ∀ {i d}, s.derived.get? i = some d → t.derived.get? i = some d) : t.Twin v w := by
  cases h with
  | same => exact .same v
  | derived hi hj => exact .derived (hd hi) (hd hj)

theorem eq_of_plain (h : s.Twin v w) (hv : v.isCell = false) : w = v := by
  cases h with
  | same => rfl
  | derived => cases hv

theorem exists_cell (h : s.Twin (.cell c) w) :
    ∃ c', w = .cell c' ∧ s.Twin (.cell c) (.cell c') := by
  cases h with
  | same => exact ⟨c, rfl, .same _⟩
  | derived hi hj => exact ⟨_, rfl, .derived hi hj⟩

theorem of_derived (h : s.Twin (.cell (.derived i)) (.cell c)) :
    ∃ j, c = .derived j ∧ s.derivation j = s.derivation i := by
  cases h with
  | same => exact ⟨i, rfl, rfl⟩
  | derived hi hj => exact ⟨_, rfl, by rw [derivation, derivation, hi, hj]⟩

end Twin

theorem TwinFields.mono (h : s.TwinFields f g)
    (hd : ∀ {i d}, s.derived.get? i = some d → t.derived.get? i = some d) : t.TwinFields f g :=
  ⟨h.1, h.2.mono hd⟩

theorem labels_of_twins {es es' : List (Key × Field)}
    (h : List.Forall₂ (fun e e' => s.TwinFields e.2 e'.2) es es') :
    es'.map (·.2.label) = es.map (·.2.label) := by
  induction h with
  | nil => rfl
  | cons he _ ih => rw [List.map_cons, List.map_cons, he.1, ih]

section Places

theorem TwinPlaces.symm (h : s.TwinPlaces a p b q) : s.TwinPlaces b q a p := by
  obtain ⟨k, f, j, g, hf, hg, hfg⟩ := h
  exact ⟨j, g, k, f, hg, hf, hfg.symm⟩

theorem Twins.symm (h : s.Twins a b) : s.Twins b a :=
  .flip (h.imp fun _ _ he => ⟨he.1.symm, he.2.symm⟩)

theorem Twins.exists_getElem? (h : s.Twins a b) {e : Key × Field}
    (he : (s.record a).fields.entries[n]? = some e) :
    ∃ e', (s.record b).fields.entries[n]? = some e' ∧ s.TwinFields e.2 e'.2 := by
  unfold Twins at h
  generalize (s.record a).fields.entries = as at h he
  generalize (s.record b).fields.entries = bs at h
  induction h generalizing n with
  | nil => cases he
  | cons hxy _ ih =>
    cases n with
    | zero =>
      cases he
      exact ⟨_, rfl, hxy⟩
    | succ n => exact ih he

theorem Twins.exists_slot (h : s.Twins a b) (hs : s.WellKept)
    (ha : s.slot? a (.label l) = some (k, f)) : s.TwinPlaces a (.label l) b (.label l) := by
  obtain ⟨hk, hf⟩ := (Container.slot?_eq_some ..).mp ha
  obtain ⟨hl, v, hv⟩ := ((hs.contents (.record a)).key?_iff l k).mp hk
  obtain rfl : f = ⟨l, v⟩ := Option.some.inj (hf.symm.trans hv)
  have hmem : (k, (⟨l, v⟩ : Field)) ∈ (s.record a).fields.entries :=
    (hs.contents (.record a)).mem_entries_iff.mpr hf
  obtain ⟨n, hn⟩ := List.mem_iff_getElem?.mp hmem
  obtain ⟨⟨j, m, w⟩, hj, rfl, hvw⟩ := h.exists_getElem? hn
  have hg := (hs.contents (.record b)).mem_entries_iff.mp (List.mem_of_getElem? hj)
  have hr := (hs.contents (.record b)).key?_of_field? hg hl
  exact ⟨k, _, j, _, ha, (Container.slot?_eq_some ..).mpr ⟨hr, hg⟩, hvw⟩

theorem slot?_of_mem_entries (hs : s.WellKept) {e : Key × Field}
    (he : e ∈ (s.record a).fields.entries) : s.slot? a (.key e.1) = some e := by
  have hf := (hs.contents (.record a)).mem_entries_iff.mp he
  exact (Container.slot?_key ..).trans (congrArg (Option.map (e.1, ·)) hf)

theorem Twins.places (h : s.Twins a b) (hs : s.WellKept) {e e' : Key × Field}
    (he : (s.record a).fields.entries[n]? = some e)
    (he' : (s.record b).fields.entries[n]? = some e') :
    s.TwinPlaces a (.key e.1) b (.key e'.1) := by
  obtain ⟨e₁, he₁, -, hv⟩ := h.exists_getElem? he
  obtain rfl : e' = e₁ := Option.some.inj (he'.symm.trans he₁)
  exact ⟨_, _, _, _, slot?_of_mem_entries hs (List.mem_of_getElem? he),
    slot?_of_mem_entries hs (List.mem_of_getElem? he'), hv⟩

theorem Yields.exists_slot (h : s.Yields n a (.label l) v) :
    ∃ k f, s.slot? a (.label l) = some (k, f) := by
  cases h with
  | plain hs => exact ⟨_, _, hs⟩
  | cell hs => exact ⟨_, _, hs⟩
  | deeper hn hv =>
    cases hk : (s.record a).fields.key? l with
    | none =>
      simp only [value, hk] at hv
      cases hv
    | some k =>
      cases hf : (s.record a).fields.field? k with
      | none =>
        simp only [value, hk, hf] at hv
        cases hv
      | some f => exact ⟨k, f, (Container.slot?_eq_some ..).mpr ⟨hk, hf⟩⟩

end Places

mutual

/-- Of two records with twins for fields, places with twins have the same value. -/
theorem Yields.twin (hs : s.WellKept) (hab : s.Twins a b) {n : Nat} {p q : Place} {v : Value}
    (hp : s.TwinPlaces a p b q) (h : s.Yields n a p v) : s.Yields n b q v := by
  obtain ⟨k, ⟨l, w⟩, j, ⟨m, w'⟩, hk, hj, hw⟩ := hp
  match h with
  | .plain hk' hv =>
    rw [hk] at hk'
    cases hk'
    obtain rfl : w' = v := hw.eq_of_plain hv
    exact .plain hj hv
  | .deeper hn _ =>
    rw [hk] at hn
    cases hn
  | .cell (c := c) hk' hy =>
    have hc : w = .cell c := by
      rw [hk] at hk'
      cases hk'
      rfl
    obtain ⟨c', rfl, hcc⟩ := (hc ▸ hw).exists_cell
    exact .cell hj (CellYields.twin hs hab hcc hy)

theorem CellYields.twin (hs : s.WellKept) (hab : s.Twins a b) {n : Nat} {c c' : Cell} {v : Value}
    (hc : s.Twin (.cell c) (.cell c')) (h : s.CellYields n a c v) : s.CellYields n b c' v := by
  match h with
  | .derived hf =>
    obtain ⟨j, rfl, hj⟩ := hc.of_derived
    exact .derived (hj ▸ FormulaYields.twin hs hab hf)
  | .reference ha hy =>
    cases hc
    exact .reference ha hy

theorem FormulaYields.twin (hs : s.WellKept) (hab : s.Twins a b) {n : Nat} {f : Formula} {v : Value}
    (h : s.FormulaYields n a f v) : s.FormulaYields n b f v := by
  match h with
  | .apply hvs hv => exact .apply (OperandsYield.twin hs hab hvs) hv

theorem OperandYields.twin (hs : s.WellKept) (hab : s.Twins a b) {n : Nat} {o : Operand} {v : Value}
    (h : s.OperandYields n a o v) : s.OperandYields n b o v := by
  match h with
  | .constant => exact .constant
  | .here hy =>
    obtain ⟨_, _, hk⟩ := hy.exists_slot
    exact .here (Yields.twin hs hab (hab.exists_slot hs hk) hy)
  | .nested hf => exact .nested (FormulaYields.twin hs hab hf)
  | .field ha hy => exact .field ha hy

theorem OperandsYield.twin (hs : s.WellKept) (hab : s.Twins a b) {n : Nat} {os : List Operand}
    {vs : List Value} (h : s.OperandsYield n a os vs) : s.OperandsYield n b os vs := by
  match h with
  | .nil => exact .nil
  | .cons ho hos => exact .cons (OperandYields.twin hs hab ho) (OperandsYield.twin hs hab hos)

end

end Space

/-- In a reachable space, two records with twins for fields and with the same room for nested cells
answer alike where the places have twins. -/
theorem Reachable.read_twin {s : Space} {a b : RecordId} {p q : Place} (h : Reachable s)
    (hab : s.Twins a b) (hd : (s.record b).maxDepth = (s.record a).maxDepth)
    (hp : s.TwinPlaces a p b q) (v : Value) :
    (∃ t, a.read p s = .ok v t) ↔ ∃ t, b.read q s = .ok v t := by
  rw [h.read_iff_yields, h.read_iff_yields, hd]
  exact ⟨.twin h.wellKept hab hp, .twin h.wellKept hab.symm hp.symm⟩

end LiveRecords
