import Mathlib.Data.List.Sort
import LiveRecords.Table

/-! # Ascending lists and tables

A list in strictly ascending order is told by its members, and a table in ascending order by what
it answers.
-/

namespace LiveRecords

theorem eq_of_ascending {α : Type} (cmp : α → α → Ordering) [Std.TransCmp cmp] {as bs : List α}
    (ha : as.Pairwise fun a b => cmp a b = .lt) (hb : bs.Pairwise fun a b => cmp a b = .lt)
    (h : ∀ a, a ∈ as ↔ a ∈ bs) : as = bs := by
  have hirrefl : Std.Irrefl fun a b : α => cmp a b = .lt := by
    refine ⟨fun a hlt => ?_⟩
    have hrefl : cmp a a = .eq := Std.ReflCmp.compare_self
    rw [hrefl] at hlt
    cases hlt
  have hantisymm : Std.Antisymm fun a b : α => cmp a b = .lt := by
    refine ⟨fun a b hab hba => ?_⟩
    rw [Std.OrientedCmp.gt_of_lt hab] at hba
    cases hba
  exact ha.eq_of_mem_iff hb h

namespace Table

section Values

variable {κ β : Type} {t : Table κ β} {P : β → Prop} {k : κ} {b : β}

/-- Something holds of every value kept. -/
def Each (P : β → Prop) (t : Table κ β) : Prop := ∀ e ∈ t.entries, P e.2

theorem each_empty (P : β → Prop) : (∅ : Table κ β).Each P := fun _ he => nomatch he

variable [Ord κ]

theorem isEmpty_put (t : Table κ β) (k : κ) (b : β) : (t.put k b).isEmpty = false := by
  obtain ⟨es⟩ := t
  change (insertEntry k b es).isEmpty = false
  cases es with
  | nil => rfl
  | cons e es =>
    rw [insertEntry]
    split <;> rfl

theorem isEmpty_merge (t : Table κ β) {u : Table κ β} (h : u.isEmpty = false) :
    (t.merge u).isEmpty = false := by
  obtain ⟨es⟩ := u
  cases es with
  | nil => cases h
  | cons e es =>
    change (es.foldl (fun acc e => acc.put e.1 e.2) (t.put e.1 e.2)).isEmpty = false
    refine List.foldlRecOn (motive := fun t : Table κ β => t.isEmpty = false) es _
      (isEmpty_put t e.1 e.2) fun t _ e _ => ?_
    exact isEmpty_put t e.1 e.2

theorem Each.put (h : t.Each P) (k : κ) (hb : P b) : (t.put k b).Each P := by
  intro e he
  rcases mem_insertEntry he with rfl | he
  · exact hb
  · exact h e he

theorem Each.erase (h : t.Each P) (k : κ) : (t.erase k).Each P := by
  obtain ⟨es⟩ := t
  change ∀ e ∈ eraseEntries k es, P e.2
  change ∀ e ∈ es, P e.2 at h
  induction es with
  | nil => exact h
  | cons e es ih =>
    rw [List.forall_mem_cons] at h
    rw [eraseEntries]
    split
    · exact ih h.2
    · exact List.forall_mem_cons.mpr ⟨h.1, ih h.2⟩

theorem exists_get?_of_mem [Std.ReflOrd κ] (h : (k, b) ∈ t.entries) : ∃ c, t.get? k = some c := by
  obtain ⟨es⟩ := t
  change ∃ c, lookup k es = some c
  change (k, b) ∈ es at h
  induction es with
  | nil => cases h
  | cons e es ih =>
    rw [lookup]
    split
    · exact ⟨_, rfl⟩
    · rename_i hk
      rcases List.mem_cons.mp h with rfl | h
      · exact absurd Std.ReflCmp.compare_self hk
      · exact ih h

theorem Each.of_get? (h : t.Each P) (hk : t.get? k = some b) : P b := by
  obtain ⟨es⟩ := t
  change ∀ e ∈ es, P e.2 at h
  change lookup k es = some b at hk
  induction es with
  | nil => cases hk
  | cons e es ih =>
    rw [List.forall_mem_cons] at h
    rw [lookup] at hk
    split at hk
    · cases hk
      exact h.1
    · exact ih h.2 hk

end Values

section Ascending

variable {κ β : Type} [Ord κ] {t u : Table κ β}

theorem Ascending.keys (h : t.Ascending) : t.keys.Pairwise fun j k => compare j k = .lt :=
  List.pairwise_map.mpr h

variable [Std.TransOrd κ]

theorem Ascending.nodup_keys (h : t.Ascending) : t.keys.Nodup :=
  h.keys.imp fun {j k} hlt hjk => by simp [hjk] at hlt

variable [Std.LawfulEqOrd κ]

omit [Std.TransOrd κ] in
/-- Where no value is kept under two keys, the values are kept apart too. -/
theorem Ascending.pairwise_of_injective (h : t.Ascending)
    (hinj : ∀ {j k b}, t.get? j = some b → t.get? k = some b → k = j) :
    t.entries.Pairwise fun e f => compare e.1 f.1 = .lt ∧ e.2 ≠ f.2 := by
  refine h.imp_of_mem fun {e f} he hf hlt => ⟨hlt, fun hef => ?_⟩
  have hk := hinj (h.mem_entries_iff.mp hf) (hef ▸ h.mem_entries_iff.mp he)
  simp [hk] at hlt

omit [Std.TransOrd κ] in
theorem Ascending.isEmpty_eq_false_iff (h : t.Ascending) :
    t.isEmpty = false ↔ ∃ k b, t.get? k = some b := by
  simp only [← h.mem_entries_iff, isEmpty, List.isEmpty_eq_false_iff_exists_mem, Prod.exists]

/-- Two tables in ascending order that answer the same are the same. -/
theorem Ascending.ext (ht : t.Ascending) (hu : u.Ascending) (h : ∀ k, t.get? k = u.get? k) :
    t = u := by
  have hentries : t.entries = u.entries := by
    refine eq_of_ascending (compareOn Prod.fst) ht hu fun e => ?_
    rw [ht.mem_entries_iff, hu.mem_entries_iff, h]
  obtain ⟨es⟩ := t
  exact congrArg Table.mk hentries

theorem ascending_ofList (es : List (κ × β)) : (ofList es).Ascending :=
  ascending_empty.merge ⟨es⟩

end Ascending

end Table

end LiveRecords
