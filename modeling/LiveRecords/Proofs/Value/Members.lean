import LiveRecords.Proofs.Tables
import LiveRecords.Proofs.Value.IndexForm

/-! # Sets are told by their members

Lists are compared member by member, and sets by their members in ascending order, each once. So
two sets are the same just when each has, up to sameness, the members of the other, and a hash is
fed the same for values that are the same.
-/

namespace LiveRecords.Value

section Arranging

variable {α β : Type} {cmp : α → α → Ordering} {a b : α} {as bs : List α}

/-- To arrange images is to arrange what they are images of. -/
theorem insertUnique_map (f : β → α) (b : β) (bs : List β) :
    insertUnique cmp (f b) (bs.map f) =
      (insertUnique (fun x y => cmp (f x) (f y)) b bs).map f := by
  induction bs with
  | nil => rfl
  | cons c cs ih =>
    rw [List.map_cons, insertUnique, insertUnique]
    cases cmp (f b) (f c) with
    | gt => simp only [ih, List.map_cons]
    | _ => rfl

theorem arrange_map (f : β → α) (bs : List β) :
    arrange cmp (bs.map f) = (arrange (fun x y => cmp (f x) (f y)) bs).map f := by
  induction bs with
  | nil => rfl
  | cons b bs ih =>
    change insertUnique cmp (f b) (arrange cmp (bs.map f)) = _
    rw [ih, insertUnique_map]
    rfl

theorem exists_mem_insertUnique [Std.TransCmp cmp] (h : b = a ∨ b ∈ bs) :
    ∃ c ∈ insertUnique cmp a bs, cmp c b = .eq := by
  induction bs with
  | nil =>
    obtain rfl : b = a := by simpa using h
    exact ⟨b, List.mem_singleton_self b, Std.ReflCmp.compare_self⟩
  | cons c cs ih =>
    unfold insertUnique
    split
    · exact ⟨b, List.mem_cons.mpr h, Std.ReflCmp.compare_self⟩
    · rename_i hac
      rcases h with rfl | h
      · exact ⟨b, List.mem_cons_self, Std.ReflCmp.compare_self⟩
      · rcases List.mem_cons.mp h with rfl | h
        · exact ⟨a, List.mem_cons_self, hac⟩
        · exact ⟨b, List.mem_cons_of_mem a h, Std.ReflCmp.compare_self⟩
    · by_cases hbc : b = c
      · subst hbc
        exact ⟨b, List.mem_cons_self, Std.ReflCmp.compare_self⟩
      · have hb : b = a ∨ b ∈ cs := h.imp_right fun h => (List.mem_cons.mp h).resolve_left hbc
        obtain ⟨d, hd, hdb⟩ := ih hb
        exact ⟨d, List.mem_cons_of_mem c hd, hdb⟩

variable (cmp) in
theorem exists_mem_arrange [Std.TransCmp cmp] (h : b ∈ as) :
    ∃ c ∈ arrange cmp as, cmp c b = .eq := by
  induction as with
  | nil => cases h
  | cons a as ih =>
    rcases List.mem_cons.mp h with rfl | h
    · exact exists_mem_insertUnique (.inl rfl)
    · obtain ⟨c, hc, hcb⟩ := ih h
      obtain ⟨d, hd, hdc⟩ : ∃ d ∈ insertUnique cmp a (arrange cmp as), cmp d c = .eq :=
        exists_mem_insertUnique (.inr hc)
      exact ⟨d, hd, Std.TransCmp.eq_trans hdc hcb⟩

variable [Std.TransCmp cmp] [Std.LawfulEqCmp cmp]

theorem mem_arrange_iff : b ∈ arrange cmp as ↔ b ∈ as := by
  refine ⟨mem_arrange, fun h => ?_⟩
  obtain ⟨c, hc, hcb⟩ := exists_mem_arrange cmp h
  rwa [← Std.LawfulEqCmp.eq_of_compare hcb]

/-- What is arranged is told by its members. -/
theorem arrange_eq_iff : arrange cmp as = arrange cmp bs ↔ ∀ a, a ∈ as ↔ a ∈ bs := by
  constructor
  · intro h a
    have ha : a ∈ arrange cmp as ↔ a ∈ arrange cmp bs := by rw [h]
    rwa [mem_arrange_iff, mem_arrange_iff] at ha
  · intro h
    refine eq_of_ascending cmp (pairwise_arrange cmp as) (pairwise_arrange cmp bs) fun a => ?_
    rw [mem_arrange_iff, mem_arrange_iff, h]

end Arranging

section Canonical

variable {a b : Value} {vs ws : List Value}

theorem canonicalList_eq_map (vs : List Value) : canonicalList vs = vs.map canonical := by
  induction vs with
  | nil => rfl
  | cons v vs ih => rw [canonicalList, ih, List.map_cons]

theorem arrange_canonicalList (vs : List Value) :
    arrange compareForms (canonicalList vs) = canonicalList (arrange Value.compare vs) := by
  rw [canonicalList_eq_map, canonicalList_eq_map, arrange_map]
  rfl

mutual

theorem canonical_canonical (v : Value) : v.canonical.canonical = v.canonical := by
  cases v with
  | list vs => rw [canonical, canonical, canonicalList_canonicalList vs]
  | set vs =>
    have hvs := canonicalList_eq_self_iff.mp (canonicalList_canonicalList vs)
    have hfix : ∀ v ∈ arrange compareForms (canonicalList vs), v.canonical = v :=
      fun v hv => hvs v (mem_arrange hv)
    rw [canonical, canonical, canonicalList_eq_self_iff.mpr hfix,
      arrange_of_pairwise (pairwise_arrange compareForms _)]
  | _ => rfl
termination_by structural v

theorem canonicalList_canonicalList (vs : List Value) :
    canonicalList (canonicalList vs) = canonicalList vs := by
  cases vs with
  | nil => rfl
  | cons v vs =>
    rw [canonicalList, canonicalList, canonical_canonical v, canonicalList_canonicalList vs]
termination_by structural vs

end

theorem compare_canonical (v w : Value) : compare v.canonical w.canonical = compare v w := by
  rw [compare_def, compare_def, canonical_canonical, canonical_canonical]

theorem arrange_canonical (vs : List Value) :
    arrange compare ((arrange compare vs).map canonical) = (arrange compare vs).map canonical := by
  have hcompare : (fun v w : Value => compare v.canonical w.canonical) = compare :=
    funext fun v => funext fun w => compare_canonical v w
  rw [arrange_map, hcompare, arrange_of_pairwise (pairwise_arrange compare vs)]

end Canonical

section Digests

theorem digests_eq_map (vs : List Value) : digests vs = vs.map fun v => (v, v.digest) := by
  induction vs with
  | nil => rfl
  | cons v vs ih => rw [digests, ih, List.map_cons]

theorem digest_list (vs : List Value) :
    (list vs).digest = 5 :: vs.length :: vs.flatMap digest := by
  rw [digest, digests_eq_map, List.flatMap_map]

theorem digest_set (vs : List Value) :
    (set vs).digest =
      6 :: (arrange compare vs).length :: (arrange compare vs).flatMap digest := by
  rw [digest, digests_eq_map, arrange_map, List.length_map, List.flatMap_map]
  rfl

mutual

theorem digest_canonical (v : Value) : v.canonical.digest = v.digest := by
  cases v with
  | list vs =>
    rw [canonical, digest_list, digest_list, canonicalList_eq_map, List.length_map,
      List.flatMap_map, List.flatMap_congr (digest_canonical_of_mem vs)]
  | set vs =>
    have hmem : ∀ v ∈ arrange compare vs, v.canonical.digest = v.digest := fun v hv =>
      digest_canonical_of_mem vs v (mem_arrange hv)
    have hform : (set vs).canonical = set ((arrange compare vs).map canonical) := by
      rw [canonical, arrange_canonicalList, canonicalList_eq_map]
      rfl
    rw [hform, digest_set, digest_set, arrange_canonical, List.length_map, List.flatMap_map,
      List.flatMap_congr hmem]
  | _ => rfl
termination_by structural v

theorem digest_canonical_of_mem (vs : List Value) :
    ∀ v ∈ vs, v.canonical.digest = v.digest := by
  cases vs with
  | nil => exact fun _ hv => nomatch hv
  | cons v vs =>
    exact List.forall_mem_cons.mpr ⟨digest_canonical v, digest_canonical_of_mem vs⟩
termination_by structural vs

end

end Digests

section Sameness

variable {v w : Value} {vs ws : List Value}

theorem same_iff : v.same w = true ↔ v.canonical = w.canonical := identical_iff _ _

theorem same_equivalence : Equivalence fun v w : Value => v.same w = true where
  refl _ := same_iff.mpr rfl
  symm h := same_iff.mpr (same_iff.mp h).symm
  trans h h' := same_iff.mpr ((same_iff.mp h).trans (same_iff.mp h'))

theorem digest_of_same (h : v.same w = true) : v.digest = w.digest := by
  rw [← digest_canonical v, same_iff.mp h, digest_canonical]

theorem same_set_iff :
    (set vs).same (set ws) = true ↔
      (∀ v ∈ vs, ∃ w ∈ ws, v.same w = true) ∧ ∀ w ∈ ws, ∃ v ∈ vs, w.same v = true := by
  simp only [same_iff, canonical, set.injEq, arrange_eq_iff, canonicalList_eq_map, List.mem_map]
  constructor
  · intro h
    constructor
    · intro v hv
      obtain ⟨w, hw, he⟩ := (h v.canonical).mp ⟨v, hv, rfl⟩
      exact ⟨w, hw, he.symm⟩
    · intro w hw
      obtain ⟨v, hv, he⟩ := (h w.canonical).mpr ⟨w, hw, rfl⟩
      exact ⟨v, hv, he.symm⟩
  · rintro ⟨hvs, hws⟩ x
    constructor
    · rintro ⟨v, hv, rfl⟩
      obtain ⟨w, hw, he⟩ := hvs v hv
      exact ⟨w, hw, he.symm⟩
    · rintro ⟨w, hw, rfl⟩
      obtain ⟨v, hv, he⟩ := hws w hw
      exact ⟨v, hv, he.symm⟩

end Sameness

section Memberwise

variable {vs ws : List Value}

theorem compareFormLists_canonicalList (vs ws : List Value) :
    compareFormLists (canonicalList vs) (canonicalList ws) = compare vs ws := by
  induction vs generalizing ws with
  | nil => cases ws <;> rfl
  | cons v vs ih =>
    cases ws with
    | nil => rfl
    | cons w ws =>
      rw [canonicalList, canonicalList, compareFormLists, ih, List.compare_cons_cons, compare_def]

theorem compare_list : compare (list vs) (list ws) = compare vs ws :=
  compareFormLists_canonicalList vs ws

/-- Sets compare as their members do once these are sorted, equal ones kept once. -/
theorem compare_set :
    compare (set vs) (set ws) = compare (arrange compare vs) (arrange compare ws) := by
  have hforms : compare (set vs) (set ws) = compareFormLists
      (arrange compareForms (canonicalList vs)) (arrange compareForms (canonicalList ws)) := rfl
  rw [hforms, arrange_canonicalList, arrange_canonicalList]
  exact compareFormLists_canonicalList _ _

theorem canonicalList_eq_iff :
    canonicalList vs = canonicalList ws ↔ List.Forall₂ (fun v w => v.same w = true) vs ws := by
  simp only [canonicalList_eq_map, same_iff, ← List.forall₂_eq_eq_eq, List.forall₂_map_left_iff,
    List.forall₂_map_right_iff]

theorem same_list_iff :
    (list vs).same (list ws) = true ↔ List.Forall₂ (fun v w => v.same w = true) vs ws := by
  rw [same_iff, canonical, canonical, list.injEq, canonicalList_eq_iff]

/-- Sets are the same if their members are, one by one, once these are sorted, equal ones kept
once. -/
theorem same_set_iff_forall₂ :
    (set vs).same (set ws) = true ↔
      List.Forall₂ (fun v w => v.same w = true) (arrange compare vs) (arrange compare ws) := by
  rw [same_iff, canonical, canonical, set.injEq, arrange_canonicalList, arrange_canonicalList,
    canonicalList_eq_iff]
  rfl

end Memberwise

/-- Values are in a total order, in which equal ones are those that are the same. Sameness is an
equivalence, a hash is fed the same for values that are the same, and sets are the same when they
have the same members. A set of given members holds them in ascending order, the same ones once. -/
theorem compare_lawful (a b c : Value) (vs ws : List Value) :
    compare a a = .eq ∧
    compare a b = (compare b a).swap ∧
    ((compare a b).isLE ∨ (compare b a).isLE) ∧
    ((compare a b).isLE → (compare b c).isLE → (compare a c).isLE) ∧
    (compare a b = .eq ↔ a.same b = true) ∧
    (Equivalence fun v w : Value => v.same w = true) ∧
    (a.same b = true → a.digest = b.digest) ∧
    ((set vs).same (set ws) = true ↔
      (∀ v ∈ vs, ∃ w ∈ ws, v.same w = true) ∧ ∀ w ∈ ws, ∃ v ∈ vs, w.same v = true) ∧
    ∃ ms, ofMembers vs = set ms ∧ (ms.Pairwise fun v w => compare v w = .lt) ∧
      (∀ m ∈ ms, m ∈ vs) ∧ ∀ v ∈ vs, ∃ m ∈ ms, m.same v = true := by
  have htotal : (compare a b).isLE ∨ (compare b a).isLE := by
    have hswap : compare b a = (compare a b).swap := Std.OrientedCmp.eq_swap
    rw [hswap]
    cases compare a b <;> simp
  have hcover : ∀ v ∈ vs, ∃ m ∈ arrange compare vs, m.same v = true := by
    intro v hv
    obtain ⟨m, hm, he⟩ := exists_mem_arrange compare hv
    exact ⟨m, hm, (compare_eq_iff_same m v).mp he⟩
  exact ⟨Std.ReflCmp.compare_self, Std.OrientedCmp.eq_swap, htotal, Std.TransCmp.isLE_trans,
    compare_eq_iff_same a b, same_equivalence, digest_of_same, same_set_iff,
    arrange compare vs, rfl, pairwise_arrange compare vs, fun _ => mem_arrange, hcover⟩

end LiveRecords.Value
