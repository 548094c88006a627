import LiveRecords.Proofs.Value.Members

/-! # Which values are indexed, and as what

A value has an index form just when nothing empty, no container and no cell occurs in it. The form
is then the canonical form of the value: the same value once more, a form of its own, and in the
very same layout for all values that are the same.
-/

namespace LiveRecords.Value

/-- A value occurs in itself, and in a list or a set if it occurs in a member. -/
inductive Occurs (u : Value) : Value → Prop where
  | here : Occurs u u
  | list {vs v} : v ∈ vs → Occurs u v → Occurs u (.list vs)
  | set {vs v} : v ∈ vs → Occurs u v → Occurs u (.set vs)

/-- What no index form can have in it: empty values, containers and cells. -/
def isUnindexed : Value → Bool
  | empty | tree _ | cell _ => true
  | _ => false

/-- A value in which nothing occurs that is kept out of indexes. -/
def Indexable (v : Value) : Prop := ∀ u : Value, u.Occurs v → u.isUnindexed = false

section Indexable

variable {v f : Value} {vs fs : List Value}

theorem Indexable.isUnindexed (h : v.Indexable) : v.isUnindexed = false := h v .here

theorem indexable_list_iff : (list vs).Indexable ↔ ∀ v ∈ vs, v.Indexable := by
  constructor
  · exact fun h v hv u hu => h u (.list hv hu)
  · rintro h u (_ | ⟨hv, hu⟩)
    · rfl
    · exact h _ hv u hu

theorem indexable_set_iff : (set vs).Indexable ↔ ∀ v ∈ vs, v.Indexable := by
  constructor
  · exact fun h v hv u hu => h u (.set hv hu)
  · rintro h u (_ | _ | ⟨hv, hu⟩)
    · rfl
    · exact h _ hv u hu

theorem isSome_indexForms_iff : (indexForms vs).isSome ↔ ∀ v ∈ vs, v.indexForm.isSome := by
  induction vs with
  | nil => simp [indexForms]
  | cons v vs ih =>
    rw [List.forall_mem_cons, ← ih, indexForms]
    cases v.indexForm <;> cases indexForms vs <;> simp

mutual

theorem isSome_indexForm_iff (v : Value) : v.indexForm.isSome ↔ v.Indexable := by
  cases v with
  | empty | tree _ | cell _ =>
    exact ⟨nofun, fun h => nomatch h.isUnindexed⟩
  | bool _ | int _ | float _ | text _ =>
    refine ⟨fun _ u hu => ?_, fun _ => rfl⟩
    cases hu
    rfl
  | list vs =>
    rw [indexForm, Option.isSome_map, indexable_list_iff, isSome_indexForms_iff]
    exact forall₂_congr (isSome_indexForm_of_mem vs)
  | set vs =>
    rw [indexForm, Option.isSome_map, indexable_set_iff, isSome_indexForms_iff]
    exact forall₂_congr (isSome_indexForm_of_mem vs)
termination_by structural v

theorem isSome_indexForm_of_mem (vs : List Value) :
    ∀ v ∈ vs, (v.indexForm.isSome ↔ v.Indexable) := by
  cases vs with
  | nil => exact fun _ hv => nomatch hv
  | cons v vs =>
    exact List.forall_mem_cons.mpr ⟨isSome_indexForm_iff v, isSome_indexForm_of_mem vs⟩
termination_by structural vs

end

theorem arrange_of_canonical (h : canonicalList vs = vs) :
    arrange Value.compare vs = arrange compareForms vs := by
  have hfix : canonicalList (arrange Value.compare vs) = arrange Value.compare vs :=
    canonicalList_eq_self_iff.mpr fun v hv => canonicalList_eq_self_iff.mp h v (mem_arrange hv)
  calc arrange Value.compare vs
      = canonicalList (arrange Value.compare vs) := hfix.symm
    _ = arrange compareForms (canonicalList vs) := (arrange_canonicalList vs).symm
    _ = arrange compareForms vs := by rw [h]

mutual

theorem eq_canonical_of_indexForm {v f : Value} (h : v.indexForm = some f) : f = v.canonical := by
  match v with
  | empty | tree _ | cell _ => cases h
  | bool _ | int _ | float _ | text _ =>
    cases h
    rfl
  | list vs =>
    obtain ⟨fs, hfs, rfl⟩ := Option.map_eq_some_iff.mp h
    rw [canonical, eq_canonicalList_of_indexForms hfs]
  | set vs =>
    obtain ⟨fs, hfs, rfl⟩ := Option.map_eq_some_iff.mp h
    rw [canonical, ofMembers, arrange_of_canonical (canonicalList_of_indexForms hfs),
      eq_canonicalList_of_indexForms hfs]
termination_by structural v

theorem eq_canonicalList_of_indexForms {vs fs : List Value} (h : indexForms vs = some fs) :
    fs = canonicalList vs := by
  match vs with
  | [] =>
    cases h
    rfl
  | v :: vs =>
    obtain ⟨f, hf, h⟩ := Option.bind_eq_some_iff.mp h
    obtain ⟨fs, hfs, h⟩ := Option.bind_eq_some_iff.mp h
    cases h
    rw [canonicalList, eq_canonical_of_indexForm hf, eq_canonicalList_of_indexForms hfs]
termination_by structural vs

end

mutual

/-- In the canonical form of a value nothing is kept out of indexes that was not so before. -/
theorem Indexable.canonical {v : Value} (h : v.Indexable) : v.canonical.Indexable := by
  match v with
  | empty | tree _ | cell _ => exact h
  | bool _ | int _ | float _ | text _ => exact h
  | list vs =>
    rw [Value.canonical, indexable_list_iff]
    exact indexable_canonicalList (indexable_list_iff.mp h)
  | set vs =>
    rw [Value.canonical, indexable_set_iff]
    exact fun v hv => indexable_canonicalList (indexable_set_iff.mp h) v (mem_arrange hv)
termination_by structural v

theorem indexable_canonicalList {vs : List Value} (h : ∀ v ∈ vs, v.Indexable) :
    ∀ v ∈ canonicalList vs, v.Indexable := by
  match vs with
  | [] => exact fun _ hv => nomatch hv
  | v :: vs =>
    rw [List.forall_mem_cons] at h
    exact List.forall_mem_cons.mpr ⟨h.1.canonical, indexable_canonicalList h.2⟩
termination_by structural vs

end

/-- So index forms are canonical forms, of the values that have one. -/
theorem indexForm_eq_some_iff : v.indexForm = some f ↔ v.Indexable ∧ f = v.canonical := by
  constructor
  · intro h
    exact ⟨(isSome_indexForm_iff v).mp (Option.isSome_of_eq_some h), eq_canonical_of_indexForm h⟩
  · rintro ⟨h, rfl⟩
    obtain ⟨f, hf⟩ := Option.isSome_iff_exists.mp ((isSome_indexForm_iff v).mpr h)
    rw [hf, eq_canonical_of_indexForm hf]

end Indexable

/-- A value has an index form just when no empty value, container or cell occurs in it at any depth.
The form is the same as the value and its own index form. Of two values that have forms, these are
one and the same, member by member, just when the values are the same. -/
theorem indexForm_lawful (v w : Value) :
    (v.indexForm.isSome ↔ ∀ u : Value, u.Occurs v → u.isUnindexed = false) ∧
    (∀ f, v.indexForm = some f → f.same v = true ∧ f.indexForm = some f) ∧
    ∀ f g, v.indexForm = some f → w.indexForm = some g → (v.same w = true ↔ f = g) := by
  refine ⟨isSome_indexForm_iff v, fun f hf => ?_, fun f g hf hg => ?_⟩
  · obtain ⟨hv, rfl⟩ := indexForm_eq_some_iff.mp hf
    have hfix : v.canonical.canonical = v.canonical := canonical_canonical v
    exact ⟨same_iff.mpr hfix, indexForm_eq_some_iff.mpr ⟨hv.canonical, hfix.symm⟩⟩
  · rw [eq_canonical_of_indexForm hf, eq_canonical_of_indexForm hg, same_iff]

/-- Members that only become equal in their own forms are one member of the form. -/
example :
    (set [set [int 2, int 1], list [int 3], set [int 1, int 2, int 1]]).indexForm =
      some (set [list [int 3], set [int 1, int 2]]) := by decide +kernel

end LiveRecords.Value
