import LiveRecords.Proofs.Value.Order
import LiveRecords.Value.IndexForm

/-! # Index forms are canonical

Arranging members yields an ascending list, and an ascending list is arranged already. So the
index form of a value is its own canonical form, and forms that compare as equal are equal.
-/

namespace LiveRecords.Value

section Arranging

variable {α : Type} {cmp : α → α → Ordering} {a b : α} {as bs : List α}

theorem mem_insertUnique (h : b ∈ insertUnique cmp a bs) : b = a ∨ b ∈ bs := by
  induction bs with
  | nil => exact .inl (List.mem_singleton.mp h)
  | cons c cs ih =>
    unfold insertUnique at h
    split at h
    · exact List.mem_cons.mp h
    · exact (List.mem_cons.mp h).imp_right (List.mem_cons_of_mem c)
    · rcases List.mem_cons.mp h with rfl | h
      · exact .inr List.mem_cons_self
      · exact (ih h).imp_right (List.mem_cons_of_mem c)

theorem mem_arrange (h : b ∈ arrange cmp as) : b ∈ as := by
  induction as with
  | nil => exact h
  | cons a as ih =>
    rcases mem_insertUnique h with rfl | h
    · exact List.mem_cons_self
    · exact List.mem_cons_of_mem a (ih h)

theorem pairwise_insertUnique [Std.TransCmp cmp] (h : bs.Pairwise fun x y => cmp x y = .lt) :
    (insertUnique cmp a bs).Pairwise fun x y => cmp x y = .lt := by
  induction bs with
  | nil => exact List.pairwise_singleton _ a
  | cons c cs ih =>
    obtain ⟨hc, hcs⟩ := List.pairwise_cons.mp h
    unfold insertUnique
    split
    · rename_i hac
      refine List.pairwise_cons.mpr ⟨?_, h⟩
      rw [List.forall_mem_cons]
      exact ⟨hac, fun x hx => Std.TransCmp.lt_trans hac (hc x hx)⟩
    · rename_i hac
      exact List.pairwise_cons.mpr ⟨fun x hx => Std.TransCmp.lt_of_eq_of_lt hac (hc x hx), hcs⟩
    · rename_i hac
      refine List.pairwise_cons.mpr ⟨fun x hx => ?_, ih hcs⟩
      rcases mem_insertUnique hx with rfl | hx
      · exact Std.OrientedCmp.lt_of_gt hac
      · exact hc x hx

variable (cmp) in
theorem pairwise_arrange [Std.TransCmp cmp] (as : List α) :
    (arrange cmp as).Pairwise fun x y => cmp x y = .lt := by
  induction as with
  | nil => exact List.Pairwise.nil
  | cons a as ih => exact pairwise_insertUnique ih

theorem arrange_of_pairwise (h : as.Pairwise fun x y => cmp x y = .lt) : arrange cmp as = as := by
  induction as with
  | nil => rfl
  | cons a as ih =>
    obtain ⟨ha, has⟩ := List.pairwise_cons.mp h
    change insertUnique cmp a (arrange cmp as) = a :: as
    rw [ih has]
    cases as with
    | nil => rfl
    | cons b bs => simp only [insertUnique, ha b List.mem_cons_self]

end Arranging

theorem canonicalList_eq_self_iff {vs : List Value} :
    canonicalList vs = vs ↔ ∀ v ∈ vs, v.canonical = v := by
  induction vs with
  | nil => simp [canonicalList]
  | cons v vs ih => simp [canonicalList, ih]

theorem canonical_ofMembers {vs : List Value} (h : canonicalList vs = vs) :
    (ofMembers vs).canonical = ofMembers vs := by
  have hfix : ∀ v ∈ arrange Value.compare vs, v.canonical = v := fun v hv =>
    canonicalList_eq_self_iff.mp h v (mem_arrange hv)
  have hsorted : (arrange Value.compare vs).Pairwise fun v w => compareForms v w = .lt := by
    have hpair : (arrange Value.compare vs).Pairwise fun v w => Value.compare v w = .lt :=
      pairwise_arrange (compare : Value → Value → Ordering) vs
    refine hpair.imp_of_mem fun hv hw hvw => ?_
    rwa [Value.compare, hfix _ hv, hfix _ hw] at hvw
  rw [ofMembers, canonical, canonicalList_eq_self_iff.mpr hfix, arrange_of_pairwise hsorted]

mutual

theorem canonical_of_indexForm {v f : Value} (h : v.indexForm = some f) : f.canonical = f := by
  match v with
  | empty | tree _ | cell _ => cases h
  | bool _ | int _ | float _ | text _ =>
    cases h
    rfl
  | list vs =>
    obtain ⟨fs, hfs, rfl⟩ := Option.map_eq_some_iff.mp h
    rw [canonical, canonicalList_of_indexForms hfs]
  | set vs =>
    obtain ⟨fs, hfs, rfl⟩ := Option.map_eq_some_iff.mp h
    exact canonical_ofMembers (canonicalList_of_indexForms hfs)
termination_by structural v

theorem canonicalList_of_indexForms {vs fs : List Value} (h : indexForms vs = some fs) :
    canonicalList fs = fs := by
  match vs with
  | [] =>
    cases h
    rfl
  | v :: vs =>
    obtain ⟨f, hf, h⟩ := Option.bind_eq_some_iff.mp h
    obtain ⟨fs, hfs, h⟩ := Option.bind_eq_some_iff.mp h
    cases h
    rw [canonicalList, canonical_of_indexForm hf, canonicalList_of_indexForms hfs]
termination_by structural vs

end

/-- Index forms compare as equal just when they are equal. -/
theorem compare_indexForms {v w f g : Value} (hf : v.indexForm = some f)
    (hg : w.indexForm = some g) : compare f g = .eq ↔ f = g := by
  rw [compare_def, canonical_of_indexForm hf, canonical_of_indexForm hg, compareForms_eq_iff]

end LiveRecords.Value
