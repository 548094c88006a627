/-! # Finite maps

A table is an association list kept in ascending key order, each key once. Keys are told
apart by their order alone, so a table is fixed by what it answers to `get?`.
-/

namespace LiveRecords

theorem lawfulEqCmp_compareOn {α : Type} {f : α → Nat} (hf : ∀ a b, f a = f b → a = b) :
    Std.LawfulEqCmp (compareOn f) where
  eq_of_compare h := hf _ _ (Nat.compare_eq_eq.mp h)

structure Table (κ β : Type) where
  entries : List (κ × β)

namespace Table

variable {κ β : Type} [Ord κ]

def lookup (k : κ) : List (κ × β) → Option β
  | [] => none
  | (j, b) :: rest => if compare k j = .eq then some b else lookup k rest

def insertEntry (k : κ) (b : β) : List (κ × β) → List (κ × β)
  | [] => [(k, b)]
  | (j, c) :: rest =>
    match compare k j with
    | .lt => (k, b) :: (j, c) :: rest
    | .eq => (k, b) :: rest
    | .gt => (j, c) :: insertEntry k b rest

def eraseEntries (k : κ) : List (κ × β) → List (κ × β)
  | [] => []
  | (j, c) :: rest =>
    if compare k j = .eq then eraseEntries k rest else (j, c) :: eraseEntries k rest

def empty : Table κ β := ⟨[]⟩

instance : EmptyCollection (Table κ β) := ⟨empty⟩
instance : Inhabited (Table κ β) := ⟨empty⟩

def get? (t : Table κ β) (k : κ) : Option β := lookup k t.entries

def contains (t : Table κ β) (k : κ) : Bool := (t.get? k).isSome

def put (t : Table κ β) (k : κ) (b : β) : Table κ β := ⟨insertEntry k b t.entries⟩

def erase (t : Table κ β) (k : κ) : Table κ β := ⟨eraseEntries k t.entries⟩

def size (t : Table κ β) : Nat := t.entries.length

def isEmpty (t : Table κ β) : Bool := t.entries.isEmpty

def keys (t : Table κ β) : List κ := t.entries.map (·.1)

def values (t : Table κ β) : List β := t.entries.map (·.2)

/-- Put every entry of `u` into `t`; where both hold a key, `u` wins. -/
def merge (t u : Table κ β) : Table κ β :=
  u.entries.foldl (fun acc e => acc.put e.1 e.2) t

def filter (keep : κ → β → Bool) (t : Table κ β) : Table κ β :=
  ⟨t.entries.filter fun e => keep e.1 e.2⟩

def ofList (es : List (κ × β)) : Table κ β :=
  es.foldl (fun acc e => acc.put e.1 e.2) empty

/-- Keys ascend strictly. -/
def Ascending (t : Table κ β) : Prop :=
  t.entries.Pairwise fun e f => compare e.1 f.1 = .lt

@[simp] theorem get?_empty (k : κ) : (∅ : Table κ β).get? k = none := rfl

theorem ascending_empty : (∅ : Table κ β).Ascending := List.Pairwise.nil

theorem Ascending.filter {t : Table κ β} (h : t.Ascending) (keep : κ → β → Bool) :
    (t.filter keep).Ascending :=
  List.Pairwise.filter _ h

theorem mem_of_lookup [Std.LawfulEqOrd κ] {k : κ} {b : β} {es : List (κ × β)}
    (h : lookup k es = some b) : (k, b) ∈ es := by
  induction es with
  | nil => cases h
  | cons e es ih =>
    obtain ⟨i, c⟩ := e
    simp only [lookup] at h
    split at h
    · rename_i hk
      obtain rfl : k = i := Std.LawfulEqCmp.eq_of_compare hk
      cases h
      exact List.mem_cons_self
    · exact List.mem_cons_of_mem _ (ih h)

theorem mem_keys_iff [Std.LawfulEqOrd κ] {t : Table κ β} {k : κ} :
    k ∈ t.keys ↔ ∃ b, t.get? k = some b := by
  refine ⟨fun h => ?_, fun ⟨b, h⟩ => List.mem_map.mpr ⟨(k, b), mem_of_lookup h, rfl⟩⟩
  obtain ⟨es⟩ := t
  change ∃ b, lookup k es = some b
  change k ∈ es.map (·.1) at h
  induction es with
  | nil => cases h
  | cons e es ih =>
    rw [lookup]
    split
    · exact ⟨_, rfl⟩
    · rename_i hk
      rcases List.mem_cons.mp h with rfl | h
      · exact absurd Std.ReflCmp.compare_self hk
      · exact ih h

theorem mem_values_of_get? [Std.LawfulEqOrd κ] {t : Table κ β} {k : κ} {b : β}
    (h : t.get? k = some b) : b ∈ t.values :=
  List.mem_map.mpr ⟨(k, b), mem_of_lookup h, rfl⟩

theorem lookup_eq_none {k : κ} {es : List (κ × β)}
    (h : ∀ e ∈ es, compare k e.1 = .lt) : lookup k es = none := by
  induction es with
  | nil => rfl
  | cons e es ih =>
    rw [List.forall_mem_cons] at h
    simp [lookup, h.1, ih h.2]

theorem mem_insertEntry {k : κ} {b : β} {es : List (κ × β)} {e : κ × β}
    (h : e ∈ insertEntry k b es) : e = (k, b) ∨ e ∈ es := by
  induction es with
  | nil => simpa [insertEntry] using h
  | cons d es ih =>
    obtain ⟨i, c⟩ := d
    cases hc : compare k i with
    | lt => simpa [insertEntry, hc] using h
    | eq =>
      simp only [insertEntry, hc, List.mem_cons] at h
      exact h.imp id fun h => List.mem_cons_of_mem _ h
    | gt =>
      simp only [insertEntry, hc, List.mem_cons] at h
      rcases h with rfl | h
      · exact .inr List.mem_cons_self
      · exact (ih h).imp id fun h => List.mem_cons_of_mem _ h

section Laws

variable [Std.TransOrd κ]

theorem lookup_insertEntry (k j : κ) (b : β) (es : List (κ × β)) :
    lookup j (insertEntry k b es) = if compare j k = .eq then some b else lookup j es := by
  induction es with
  | nil => simp [insertEntry, lookup]
  | cons e es ih =>
    obtain ⟨i, c⟩ := e
    cases h : compare k i with
    | lt => simp [insertEntry, lookup, h]
    | eq =>
      have hji : compare j k = compare j i := Std.TransCmp.congr_right h
      by_cases hj : compare j k = .eq
      · simp [insertEntry, lookup, h, hj]
      · simp [insertEntry, lookup, h, hj, ← hji]
    | gt =>
      by_cases hj : compare j i = .eq
      · have : compare j k ≠ .eq := by
          intro hk
          have hki : compare k i = compare j i := (Std.TransCmp.congr_left hk).symm
          simp [hki, hj] at h
        simp [insertEntry, lookup, h, hj, this]
      · simp [insertEntry, lookup, h, hj, ih]

theorem lookup_eraseEntries (k j : κ) (es : List (κ × β)) :
    lookup j (eraseEntries k es) = if compare j k = .eq then none else lookup j es := by
  induction es with
  | nil => simp [eraseEntries, lookup]
  | cons e es ih =>
    obtain ⟨i, c⟩ := e
    by_cases h : compare k i = .eq
    · have hji : compare j k = compare j i := Std.TransCmp.congr_right h
      by_cases hj : compare j k = .eq
      · simp [eraseEntries, h, ih, hj]
      · simp [eraseEntries, lookup, h, ih, hj, ← hji]
    · by_cases hj : compare j i = .eq
      · have : compare j k ≠ .eq := by
          intro hk
          have hki : compare k i = compare j i := (Std.TransCmp.congr_left hk).symm
          exact h (hki.trans hj)
        simp [eraseEntries, lookup, h, hj, this]
      · simp [eraseEntries, lookup, h, hj, ih]

theorem get?_put (t : Table κ β) (k j : κ) (b : β) :
    (t.put k b).get? j = if compare j k = .eq then some b else t.get? j :=
  lookup_insertEntry k j b t.entries

theorem get?_erase (t : Table κ β) (k j : κ) :
    (t.erase k).get? j = if compare j k = .eq then none else t.get? j :=
  lookup_eraseEntries k j t.entries

theorem insertEntry_insertEntry (k : κ) (b c : β) (es : List (κ × β)) :
    insertEntry k c (insertEntry k b es) = insertEntry k c es := by
  induction es with
  | nil => simp [insertEntry]
  | cons e es ih =>
    obtain ⟨i, d⟩ := e
    cases h : compare k i <;> simp [insertEntry, h, ih]

theorem get?_congr (t : Table κ β) {j k : κ} (h : compare j k = .eq) : t.get? j = t.get? k := by
  obtain ⟨es⟩ := t
  change lookup j es = lookup k es
  induction es with
  | nil => rfl
  | cons e es ih => rw [lookup, lookup, ih, Std.TransCmp.congr_left h]

theorem put_put (t : Table κ β) (k : κ) (b c : β) : (t.put k b).put k c = t.put k c := by
  simp [put, insertEntry_insertEntry]

end Laws

section Keys

variable [Std.TransOrd κ] [Std.LawfulEqOrd κ] [DecidableEq κ]

theorem get?_put_if (t : Table κ β) (k j : κ) (b : β) :
    (t.put k b).get? j = if j = k then some b else t.get? j := by
  simp [get?_put]

theorem get?_erase_if (t : Table κ β) (k j : κ) :
    (t.erase k).get? j = if j = k then none else t.get? j := by
  simp [get?_erase]

end Keys

section Ascending

variable [Std.TransOrd κ] [Std.LawfulEqOrd κ]

theorem Ascending.put {t : Table κ β} (h : t.Ascending) (k : κ) (b : β) :
    (t.put k b).Ascending := by
  obtain ⟨es⟩ := t
  unfold Ascending Table.put at *
  induction es with
  | nil => simp [insertEntry]
  | cons e es ih =>
    obtain ⟨i, c⟩ := e
    obtain ⟨hi, hes⟩ := List.pairwise_cons.mp h
    cases hc : compare k i with
    | lt =>
      simp only [insertEntry, hc]
      refine List.pairwise_cons.mpr ⟨?_, h⟩
      intro e he
      rcases List.mem_cons.mp he with rfl | he
      · exact hc
      · exact Std.TransCmp.lt_trans hc (hi e he)
    | eq =>
      obtain rfl : k = i := Std.LawfulEqCmp.eq_of_compare hc
      simp only [insertEntry, hc]
      exact List.pairwise_cons.mpr ⟨hi, hes⟩
    | gt =>
      simp only [insertEntry, hc]
      refine List.pairwise_cons.mpr ⟨?_, ih hes⟩
      intro e he
      rcases mem_insertEntry he with rfl | he
      · exact Std.OrientedCmp.lt_of_gt hc
      · exact hi e he

omit [Std.TransOrd κ] [Std.LawfulEqOrd κ] in
theorem Ascending.erase {t : Table κ β} (h : t.Ascending) (k : κ) : (t.erase k).Ascending := by
  have hsub : ∀ es : List (κ × β), (eraseEntries k es).Sublist es := by
    intro es
    induction es with
    | nil => exact .slnil
    | cons e es ih =>
      rw [eraseEntries]
      split
      · exact ih.cons e
      · exact ih.cons_cons e
  exact List.Pairwise.sublist (hsub t.entries) h

theorem mem_keys_put {t : Table κ β} {j k : κ} {b : β} :
    j ∈ (t.put k b).keys ↔ j = k ∨ j ∈ t.keys := by
  rw [mem_keys_iff, mem_keys_iff, get?_put]
  by_cases h : j = k <;> simp [h]

theorem mem_keys_erase {t : Table κ β} {j k : κ} : j ∈ (t.erase k).keys ↔ j ≠ k ∧ j ∈ t.keys := by
  rw [mem_keys_iff, mem_keys_iff, get?_erase]
  by_cases h : j = k <;> simp [h]

theorem mem_keys_ofList {es : List (κ × β)} {k : κ} :
    k ∈ (ofList es).keys ↔ k ∈ es.map (·.1) := by
  have key : ∀ t : Table κ β, k ∈ (es.foldl (fun acc e => acc.put e.1 e.2) t).keys ↔
      k ∈ t.keys ∨ k ∈ es.map (·.1) := by
    induction es with
    | nil => simp
    | cons e es ih =>
      intro t
      rw [List.foldl_cons, ih, mem_keys_put, List.map_cons, List.mem_cons]
      constructor
      · rintro ((h | h) | h)
        · exact .inr (.inl h)
        · exact .inl h
        · exact .inr (.inr h)
      · rintro (h | h | h)
        · exact .inl (.inr h)
        · exact .inl (.inl h)
        · exact .inr h
  refine (key empty).trans ⟨?_, .inr⟩
  rintro (h | h)
  · cases h
  · exact h

theorem Ascending.merge {t : Table κ β} (h : t.Ascending) (u : Table κ β) :
    (t.merge u).Ascending := by
  obtain ⟨es⟩ := u
  change (es.foldl (fun acc e => acc.put e.1 e.2) t).Ascending
  induction es generalizing t with
  | nil => exact h
  | cons e es ih => exact ih (h.put e.1 e.2)

theorem Ascending.get?_merge {u : Table κ β} (h : u.Ascending) (t : Table κ β) (k : κ) :
    (t.merge u).get? k = (u.get? k).or (t.get? k) := by
  obtain ⟨es⟩ := u
  change (es.foldl (fun acc e => acc.put e.1 e.2) t).get? k = (lookup k es).or (t.get? k)
  change es.Pairwise _ at h
  induction es generalizing t with
  | nil => rfl
  | cons e es ih =>
    obtain ⟨i, c⟩ := e
    obtain ⟨hi, hes⟩ := List.pairwise_cons.mp h
    rw [List.foldl_cons, ih _ hes, get?_put, lookup]
    split
    · rename_i hk
      obtain rfl : k = i := Std.LawfulEqCmp.eq_of_compare hk
      rw [lookup_eq_none hi]
      rfl
    · rfl

omit [Std.TransOrd κ] in
theorem Ascending.mem_entries_iff {t : Table κ β} (h : t.Ascending) {k : κ} {b : β} :
    (k, b) ∈ t.entries ↔ t.get? k = some b := by
  refine ⟨fun hm => ?_, mem_of_lookup⟩
  obtain ⟨es⟩ := t
  change lookup k es = some b
  change es.Pairwise _ at h
  change (k, b) ∈ es at hm
  induction es with
  | nil => cases hm
  | cons e es ih =>
    obtain ⟨i, c⟩ := e
    obtain ⟨hi, hes⟩ := List.pairwise_cons.mp h
    rcases List.mem_cons.mp hm with he | hrest
    · cases he
      simp [lookup]
    · have hne : compare k i ≠ .eq := by
        intro hk
        obtain rfl : k = i := Std.LawfulEqCmp.eq_of_compare hk
        have hlt := hi _ hrest
        simp at hlt
      rw [lookup, if_neg hne]
      exact ih hes hrest

theorem Ascending.find?_values {t : Table κ β} (h : t.Ascending) (p : β → Bool) {b : β} :
    t.values.find? p = some b ↔
      ∃ k, t.get? k = some b ∧ p b = true ∧
        ∀ j c, t.get? j = some c → p c = true → compare j k ≠ .lt := by
  simp only [← h.mem_entries_iff, values]
  obtain ⟨es⟩ := t
  change es.Pairwise _ at h
  change (es.map _).find? p = _ ↔ ∃ k, (k, b) ∈ es ∧ _ ∧ ∀ j c, (j, c) ∈ es → _
  induction es with
  | nil => simp
  | cons e es ih =>
    obtain ⟨i, c⟩ := e
    obtain ⟨hi, hes⟩ := List.pairwise_cons.mp h
    cases hc : p c with
    | true =>
      rw [List.map_cons, List.find?_cons_of_pos hc, Option.some.injEq]
      constructor
      · rintro rfl
        refine ⟨i, List.mem_cons_self, hc, fun j d hj _ hlt => ?_⟩
        rcases List.mem_cons.mp hj with hj | hj
        · cases hj
          simp at hlt
        · have := Std.OrientedCmp.gt_of_lt hlt
          rw [hi _ hj] at this
          cases this
      · rintro ⟨k, hk, -, hmin⟩
        rcases List.mem_cons.mp hk with hk | hk
        · cases hk
          rfl
        · exact absurd (hi _ hk) (hmin i c List.mem_cons_self hc)
    | false =>
      rw [List.map_cons, List.find?_cons_of_neg (by simp [hc]), ih hes]
      constructor
      · rintro ⟨k, hk, hb, hmin⟩
        refine ⟨k, List.mem_cons_of_mem _ hk, hb, fun j d hj hd => ?_⟩
        rcases List.mem_cons.mp hj with hj | hj
        · cases hj
          rw [hc] at hd
          cases hd
        · exact hmin j d hj hd
      · rintro ⟨k, hk, hb, hmin⟩
        rcases List.mem_cons.mp hk with hk | hk
        · cases hk
          rw [hc] at hb
          cases hb
        · exact ⟨k, hk, hb, fun j d hj => hmin j d (List.mem_cons_of_mem _ hj)⟩

/-- Putting back what is there changes nothing. -/
theorem Ascending.put_of_get? {t : Table κ β} (h : t.Ascending) {k : κ} {b : β}
    (hk : t.get? k = some b) : t.put k b = t := by
  obtain ⟨es⟩ := t
  simp only [Table.put, Table.mk.injEq]
  change lookup k es = some b at hk
  change es.Pairwise _ at h
  induction es with
  | nil => simp [lookup] at hk
  | cons e es ih =>
    obtain ⟨i, c⟩ := e
    obtain ⟨hi, hes⟩ := List.pairwise_cons.mp h
    cases hc : compare k i with
    | lt =>
      have hn : lookup k es = none :=
        lookup_eq_none fun e he => Std.TransCmp.lt_trans hc (hi e he)
      simp [lookup, hc, hn] at hk
    | eq =>
      obtain rfl : k = i := Std.LawfulEqCmp.eq_of_compare hc
      simp only [lookup, hc, if_pos, Option.some.injEq] at hk
      simp [insertEntry, hk]
    | gt =>
      simp only [lookup, hc, reduceCtorEq, if_false] at hk
      simp [insertEntry, hc, ih hk hes]

omit [Std.TransOrd κ] in
theorem Ascending.get?_filter {t : Table κ β} (h : t.Ascending) (keep : κ → β → Bool) (k : κ) :
    (t.filter keep).get? k = (t.get? k).filter (keep k) := by
  obtain ⟨es⟩ := t
  change lookup k (es.filter _) = (lookup k es).filter _
  change es.Pairwise _ at h
  induction es with
  | nil => rfl
  | cons e es ih =>
    obtain ⟨i, c⟩ := e
    obtain ⟨hi, hes⟩ := List.pairwise_cons.mp h
    by_cases hc : compare k i = .eq
    · obtain rfl : k = i := Std.LawfulEqCmp.eq_of_compare hc
      have hn : lookup k es = none := lookup_eq_none hi
      have hf := ih hes
      rw [hn] at hf
      cases hk : keep k c <;> simp [lookup, Option.filter, hk, hf]
    · cases hk : keep i c <;> simp [lookup, hc, hk, ih hes]

end Ascending

end Table

end LiveRecords
