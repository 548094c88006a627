import LiveRecords.Proofs.Tables
import LiveRecords.Sensor.Patterns

/-! # Sensors fire as their policies say

A sensor collects, for every changed record, the patterns that its changes meet, and decides by this
table whether it fires and which records it names. The policies speak about patterns and records
instead. Both come to the same.
-/

namespace LiveRecords

variable {τ : Type}

namespace Sensor

/-- The changes of a record meet the pattern with this index. -/
def Meets (s : Sensor τ) (c : Changes) (i : Nat) : Prop := ∃ p, s.patterns[i]? = some p ∧ p c = true

/-- What a policy asks of a changeset. -/
def Called (s : Sensor τ) (cs : Changeset) : Prop :=
  match s.policy with
  | .allPatterns => ∀ i < s.patterns.length, ∃ name c, cs.get? name = some c ∧ s.Meets c i
  | .anyPattern => ∃ i < s.patterns.length, ∃ name c, cs.get? name = some c ∧ s.Meets c i
  | .sameRecord => ∃ name c, cs.get? name = some c ∧ ∀ i < s.patterns.length, s.Meets c i

/-- What a policy asks of the changes of a record that is named. -/
def Counts (s : Sensor τ) (c : Changes) : Prop :=
  match s.policy with
  | .allPatterns => ∃ i, s.Meets c i
  | .anyPattern => ∃ i, s.Meets c i
  | .sameRecord => ∀ i < s.patterns.length, s.Meets c i

/-- Just the records that count are named, each with the patterns that it meets, in order. -/
structure Reports (s : Sensor τ) (cs : Changeset) (found : Matches) : Prop where
  ascending : found.Ascending
  named : ∀ name, (∃ is, found.get? name = some is) ↔ ∃ c, cs.get? name = some c ∧ s.Counts c
  met : ∀ name is c, found.get? name = some is → cs.get? name = some c →
    is.Pairwise (· < ·) ∧ ∀ i, i ∈ is ↔ s.Meets c i

variable {s t : Sensor τ} {cs : Changeset} {c : Changes} {found : Matches} {name : String}
  {i : Nat} {is : List Nat}

section Patterns

theorem Meets.lt (h : s.Meets c i) : i < s.patterns.length := by
  obtain ⟨p, hp, -⟩ := h
  exact (List.getElem?_eq_some_iff.mp hp).1

theorem mem_matched : i ∈ s.matched c ↔ s.Meets c i := by
  simp only [matched, List.mem_map, List.mem_filter, List.mem_zipIdx_iff_getElem?, Meets]
  constructor
  · rintro ⟨⟨p, j⟩, ⟨hp, hc⟩, rfl⟩
    exact ⟨p, hp, hc⟩
  · rintro ⟨p, hp, hc⟩
    exact ⟨(p, i), ⟨hp, hc⟩, rfl⟩

theorem pairwise_matched (s : Sensor τ) (c : Changes) : (s.matched c).Pairwise (· < ·) := by
  have hsub : (s.matched c).Sublist (s.patterns.zipIdx.map (·.2)) := List.filter_sublist.map _
  rw [List.zipIdx_map_snd] at hsub
  exact List.Pairwise.sublist hsub List.pairwise_lt_range'

theorem matched_ne_nil_iff : s.matched c ≠ [] ↔ ∃ i, s.Meets c i := by
  simp only [← mem_matched, ← List.isEmpty_eq_false_iff_exists_mem, List.isEmpty_eq_false_iff]

/-- As many patterns are met as there are just if every one of them is. -/
theorem length_matched_iff :
    (s.matched c).length = s.patterns.length ↔ ∀ i < s.patterns.length, s.Meets c i := by
  have hlength : (s.matched c).length = (s.patterns.zipIdx.filter fun e => e.1 c).length :=
    List.length_map _
  rw [hlength, ← List.length_zipIdx (l := s.patterns) (i := 0), List.length_filter_eq_length_iff,
    List.length_zipIdx]
  constructor
  · intro h i hi
    have hp : s.patterns[i]? = some s.patterns[i] := List.getElem?_eq_getElem hi
    exact ⟨_, hp, h (_, i) (List.mem_zipIdx_iff_getElem?.mpr hp)⟩
  · rintro h ⟨p, i⟩ he
    have hp := List.mem_zipIdx_iff_getElem?.mp he
    obtain ⟨q, hq, hc⟩ := h i (List.getElem?_eq_some_iff.mp hp).1
    rw [hp] at hq
    cases hq
    exact hc

end Patterns

section Candidates

theorem ascending_candidates (s : Sensor τ) (hcs : cs.Ascending) : (s.candidates cs).Ascending :=
  List.Pairwise.filter _ (List.pairwise_map.mpr hcs)

theorem get?_candidates (hcs : cs.Ascending) :
    (s.candidates cs).get? name = some is ↔
      ∃ c, cs.get? name = some c ∧ is = s.matched c ∧ ∃ i, s.Meets c i := by
  rw [← (s.ascending_candidates hcs).mem_entries_iff]
  simp only [candidates, List.mem_filter, List.mem_map, Prod.mk.injEq]
  constructor
  · rintro ⟨⟨⟨n, c⟩, he, rfl, rfl⟩, hne⟩
    exact ⟨c, hcs.mem_entries_iff.mp he, rfl, matched_ne_nil_iff.mp (by simpa using hne)⟩
  · rintro ⟨c, hc, rfl, hmeets⟩
    exact ⟨⟨_, hcs.mem_entries_iff.mpr hc, rfl, rfl⟩, by simpa using matched_ne_nil_iff.mpr hmeets⟩

theorem mem_values_candidates (hcs : cs.Ascending) :
    is ∈ (s.candidates cs).values ↔
      ∃ name c, cs.get? name = some c ∧ is = s.matched c ∧ ∃ i, s.Meets c i := by
  simp only [Table.values, List.mem_map, Prod.exists, exists_eq_right,
    (s.ascending_candidates hcs).mem_entries_iff, get?_candidates hcs]

end Candidates

section Policies

/-- The table that a sensor reports if it fires. -/
def report (s : Sensor τ) (cs : Changeset) : Matches :=
  match s.policy with
  | .sameRecord => (s.candidates cs).filter fun _ is => is.length = s.patterns.length
  | _ => s.candidates cs

theorem get?_report (hcs : cs.Ascending) (hs : s.patterns ≠ []) :
    (s.report cs).get? name = some is ↔
      ∃ c, cs.get? name = some c ∧ is = s.matched c ∧ s.Counts c := by
  have hlt : 0 < s.patterns.length := List.length_pos_iff.mpr hs
  cases hp : s.policy with
  | allPatterns => simpa only [report, Counts, hp] using get?_candidates hcs
  | anyPattern => simpa only [report, Counts, hp] using get?_candidates hcs
  | sameRecord =>
    simp only [report, Counts, hp, (s.ascending_candidates hcs).get?_filter,
      Option.filter_eq_some_iff, get?_candidates hcs, decide_eq_true_eq]
    constructor
    · rintro ⟨⟨c, hc, rfl, -⟩, hall⟩
      exact ⟨c, hc, rfl, length_matched_iff.mp hall⟩
    · rintro ⟨c, hc, rfl, hall⟩
      exact ⟨⟨c, hc, rfl, 0, hall 0 hlt⟩, length_matched_iff.mpr hall⟩

theorem reports_report (hcs : cs.Ascending) (hs : s.patterns ≠ []) :
    s.Reports cs (s.report cs) where
  ascending := by
    unfold report
    split
    · exact (s.ascending_candidates hcs).filter _
    · exact s.ascending_candidates hcs
  named name := by
    simp only [get?_report hcs hs]
    constructor
    · rintro ⟨_, c, hc, -, hcounts⟩
      exact ⟨c, hc, hcounts⟩
    · rintro ⟨c, hc, hcounts⟩
      exact ⟨_, c, hc, rfl, hcounts⟩
  met name is c hf hc := by
    obtain ⟨c', hc', rfl, -⟩ := (get?_report hcs hs).mp hf
    rw [hc] at hc'
    cases hc'
    exact ⟨s.pairwise_matched c, fun i => mem_matched⟩

theorem exists_report_iff (hcs : cs.Ascending) (hs : s.patterns ≠ []) :
    (s.report cs).isEmpty = false ↔ ∃ name c, cs.get? name = some c ∧ s.Counts c := by
  rw [(reports_report hcs hs).ascending.isEmpty_eq_false_iff]
  exact exists_congr fun name => (reports_report hcs hs).named name

theorem evaluate_eq_some_iff (hcs : cs.Ascending) (hs : s.patterns ≠ []) :
    s.evaluate cs = some found ↔ s.Called cs ∧ found = s.report cs := by
  have hempty : s.patterns.isEmpty = false := by simpa using hs
  have hreport := exists_report_iff hcs hs
  rw [eq_comm (b := s.report cs)]
  cases hp : s.policy with
  | allPatterns =>
    have hall : ((List.range s.patterns.length).all fun i =>
        (s.candidates cs).values.any (·.contains i)) = true ↔ s.Called cs := by
      simp only [Called, hp, List.all_eq_true, List.mem_range, List.any_eq_true,
        mem_values_candidates hcs, List.contains_iff_mem]
      refine forall_congr' fun i => imp_congr_right fun _ => ?_
      constructor
      · rintro ⟨_, ⟨name, c, hc, rfl, -⟩, hi⟩
        exact ⟨name, c, hc, mem_matched.mp hi⟩
      · rintro ⟨name, c, hc, hi⟩
        exact ⟨_, ⟨name, c, hc, rfl, i, hi⟩, mem_matched.mpr hi⟩
    simp only [evaluate, hempty, hp, report, Bool.false_eq_true, if_false,
      Option.ite_none_right_eq_some, hall, Option.some_inj]
  | anyPattern =>
    have hcalled : (s.report cs).isEmpty = false ↔ s.Called cs := by
      rw [hreport]
      simp only [Counts, Called, hp]
      constructor
      · rintro ⟨name, c, hc, i, hi⟩
        exact ⟨i, hi.lt, name, c, hc, hi⟩
      · rintro ⟨i, -, name, c, hc, hi⟩
        exact ⟨name, c, hc, i, hi⟩
    rw [← hcalled]
    simp only [evaluate, hempty, hp, report, Bool.false_eq_true, if_false,
      Option.ite_none_left_eq_some, Bool.not_eq_true, Option.some_inj]
  | sameRecord =>
    have hcalled : (s.report cs).isEmpty = false ↔ s.Called cs := by
      rw [hreport]
      simp only [Counts, Called, hp]
    rw [← hcalled]
    simp only [evaluate, hempty, hp, report, Bool.false_eq_true, if_false,
      Option.ite_none_left_eq_some, Bool.not_eq_true, Option.some_inj]

end Policies

/-- The sensor fires on the changeset. -/
def Fires (s : Sensor τ) (cs : Changeset) : Prop := ∃ found, s.evaluate cs = some found

theorem fires_iff (hcs : cs.Ascending) (hs : s.patterns ≠ []) : s.Fires cs ↔ s.Called cs := by
  simp only [Fires, evaluate_eq_some_iff hcs hs, exists_and_left, exists_eq, and_true]

theorem Fires.patterns_ne_nil (h : s.Fires cs) : s.patterns ≠ [] := by
  rintro hs
  obtain ⟨found, h⟩ := h
  rw [evaluate, hs, List.isEmpty_nil, if_pos rfl] at h
  cases h

/-- A sensor without patterns never fires, and one with patterns fires just if its policy calls for
it. It then names just the records that count. Where all patterns of the same record are asked for,
it fires only if it would under all patterns, and there only if it would under any. -/
theorem fires_by_policy (s : Sensor τ) (hcs : cs.Ascending) :
    (s.patterns = [] → s.evaluate cs = none) ∧
      (s.patterns ≠ [] → (s.Fires cs ↔ s.Called cs)) ∧
      (∀ found, s.evaluate cs = some found → s.Reports cs found) ∧
      ({ s with policy := .sameRecord }.Fires cs → { s with policy := .allPatterns }.Fires cs) ∧
      ({ s with policy := .allPatterns }.Fires cs → { s with policy := .anyPattern }.Fires cs) := by
  refine ⟨fun hs => ?_, fires_iff hcs, fun found h => ?_, fun h => ?_, fun h => ?_⟩
  · rw [evaluate, hs, List.isEmpty_nil, if_pos rfl]
  · have hs := Fires.patterns_ne_nil ⟨found, h⟩
    obtain ⟨-, rfl⟩ := (evaluate_eq_some_iff hcs hs).mp h
    exact reports_report hcs hs
  · have hs := h.patterns_ne_nil
    obtain ⟨name, c, hc, hall⟩ := (fires_iff hcs hs).mp h
    refine (fires_iff hcs ?_).mpr fun i hi => ⟨name, c, hc, hall i hi⟩
    exact hs
  · have hs := h.patterns_ne_nil
    have hlt := List.length_pos_iff.mpr hs
    refine (fires_iff hcs ?_).mpr ⟨0, hlt, (fires_iff hcs hs).mp h 0 hlt⟩
    exact hs

end Sensor

/-- Two patterns, which one record meets together and another in part. -/
def heat : Sensor Unit :=
  { name := "heat", policy := .sameRecord,
    patterns := [.changed (.name "on"), .above (.name "degrees") (.int 80)] }

def heatChanges : Changeset :=
  .ofList [("door", .ofList [(⟨1⟩, ⟨.name "open", .bool true⟩)]),
    ("kettle", .ofList [(⟨2⟩, ⟨.name "on", .bool true⟩), (⟨3⟩, ⟨.name "degrees", .int 95⟩)]),
    ("lamp", .ofList [(⟨4⟩, ⟨.name "on", .bool true⟩)])]

theorem fires_by_policy_heat :
    heat.Reports heatChanges (.ofList [("kettle", [0, 1])]) ∧
      { heat with policy := .anyPattern }.Reports heatChanges
        (.ofList [("kettle", [0, 1]), ("lamp", [0])]) ∧
      { heat with policy := .allPatterns }.Fires heatChanges := by
  have hcs : heatChanges.Ascending := Table.ascending_ofList _
  obtain ⟨-, -, hsame, hall, -⟩ := heat.fires_by_policy hcs
  obtain ⟨-, -, hany, -⟩ := { heat with policy := .anyPattern }.fires_by_policy hcs
  exact ⟨hsame _ (by rfl), hany _ (by rfl), hall ⟨_, rfl⟩⟩

end LiveRecords
