import Mathlib.Algebra.Group.Nat.Defs
import LiveRecords.Value.Order

/-! # The order of values

Stored forms are in a linear order, and values are in the order of their canonical forms. So two
values compare as equal just when they are the same.
-/

namespace LiveRecords

namespace Double

/-- The sign and the other bits make up a double. -/
theorem toNat_bits (x : Double) :
    x.bits.toNat = (if x.negative then 2 ^ 63 else 0) + x.magnitude := by
  have hlt := x.bits.toNat_lt
  have hmag : x.magnitude = x.bits.toNat % 2 ^ 63 := by
    rw [magnitude, UInt64.toNat_and]
    exact Nat.and_two_pow_sub_one_eq_mod x.bits.toNat 63
  have hneg : x.negative = true ↔ x.bits.toNat / 2 ^ 63 = 1 := by
    rw [negative, beq_iff_eq, ← UInt64.toNat_inj, UInt64.toNat_shiftRight]
    simp [Nat.shiftRight_eq_div_pow]
  split
  · rename_i h
    have := hneg.mp h
    omega
  · rename_i h
    have : x.bits.toNat / 2 ^ 63 ≠ 1 := fun he => h (hneg.mpr he)
    omega

theorem rank_injective {x y : Double} (h : x.rank = y.rank) : x = y := by
  have hbits : x.bits.toNat = y.bits.toNat := by
    rw [toNat_bits, toNat_bits]
    unfold rank at h
    cases hx : x.negative <;> cases hy : y.negative <;>
      simp only [hx, hy, if_true, if_false, Bool.false_eq_true] at h ⊢ <;> omega
  cases x
  cases y
  exact congrArg Double.mk (UInt64.toNat_inj.mp hbits)

instance : Std.TransOrd Double := inferInstanceAs (Std.TransCmp (compareOn Double.rank))

instance : Std.LawfulEqOrd Double where
  eq_of_compare {x y} h := by
    have hrank : compare x.rank y.rank = .eq := h
    exact rank_injective (Std.LawfulEqCmp.eq_of_compare hrank)

end Double

namespace Cell

theorem compare_def (c d : Cell) : Ord.compare c d = Cell.compare c d := rfl

theorem transCmp_reference : Std.TransCmp (compareLex
    (compareOn (Prod.fst : RecordId × Label → RecordId)) (compareOn Prod.snd)) :=
  inferInstance

instance : Std.TransOrd Cell where
  eq_swap {a b} := by
    cases a <;> cases b <;> simp only [compare_def, Cell.compare]
    · exact Std.OrientedCmp.eq_swap
    · rfl
    · rfl
    · rename_i i l j m
      exact transCmp_reference.eq_swap (a := (i, l)) (b := (j, m))
  isLE_trans {a b c} := by
    cases a <;> cases b <;> cases c <;> simp only [compare_def, Cell.compare, Ordering.isLE_lt,
      Ordering.isLE_gt, Bool.false_eq_true, forall_const, false_implies, implies_true]
    · exact Std.TransCmp.isLE_trans
    · rename_i i l j m n o
      exact transCmp_reference.isLE_trans (a := (i, l)) (b := (j, m)) (c := (n, o))

instance : Std.LawfulEqOrd Cell where
  eq_of_compare {a b} := by
    cases a <;> cases b <;> simp [compare_def, Cell.compare, Ordering.then_eq_eq]

end Cell

namespace Value

section Forms

variable {a b c : Value}

theorem compareForms_of_kind_ne (h : a.kind ≠ b.kind) :
    compareForms a b = compare a.kind b.kind := by
  cases a <;> cases b <;> first | rfl | exact absurd rfl h

theorem kind_eq_of_compareForms (h : compareForms a b = .eq) : a.kind = b.kind := by
  by_cases hk : a.kind = b.kind
  · exact hk
  · rw [compareForms_of_kind_ne hk] at h
    exact Nat.compare_eq_eq.mp h

theorem kind_le_of_isLE (h : (compareForms a b).isLE) : a.kind ≤ b.kind := by
  by_cases hk : a.kind = b.kind
  · exact Nat.le_of_eq hk
  · rw [compareForms_of_kind_ne hk] at h
    exact Nat.isLE_compare.mp h

end Forms

mutual

theorem compareForms_swap (a b : Value) : compareForms a b = (compareForms b a).swap := by
  by_cases hk : a.kind = b.kind
  · cases a with
    | list as => cases b with
      | list bs => exact compareFormLists_swap as bs
      | _ => cases hk
    | set as => cases b with
      | set bs => exact compareFormLists_swap as bs
      | _ => cases hk
    | empty => cases b with
      | empty => rfl
      | _ => cases hk
    | _ =>
      cases b <;> first
        | cases hk; done
        | simp only [compareForms]; exact Std.OrientedCmp.eq_swap
  · rw [compareForms_of_kind_ne hk, compareForms_of_kind_ne (Ne.symm hk)]
    exact Std.OrientedCmp.eq_swap
termination_by structural a

theorem compareFormLists_swap (as bs : List Value) :
    compareFormLists as bs = (compareFormLists bs as).swap := by
  cases as with
  | nil => cases bs <;> rfl
  | cons a as =>
    cases bs with
    | nil => rfl
    | cons b bs =>
      rw [compareFormLists, compareFormLists, compareForms_swap a b, compareFormLists_swap as bs,
        Ordering.swap_then]
termination_by structural as

end

mutual

theorem eq_of_compareForms (a b : Value) (h : compareForms a b = .eq) : a = b := by
  have hk := kind_eq_of_compareForms h
  cases a with
  | list as => cases b with
    | list bs => exact congrArg list (eq_of_compareFormLists as bs h)
    | _ => cases hk
  | set as => cases b with
    | set bs => exact congrArg set (eq_of_compareFormLists as bs h)
    | _ => cases hk
  | empty => cases b with
    | empty => rfl
    | _ => cases hk
  | _ =>
    cases b <;> first
      | cases hk; done
      | simp only [compareForms] at h; exact congrArg _ (Std.LawfulEqCmp.eq_of_compare h)
termination_by structural a

theorem eq_of_compareFormLists (as bs : List Value) (h : compareFormLists as bs = .eq) :
    as = bs := by
  cases as with
  | nil => cases bs with
    | nil => rfl
    | cons => cases h
  | cons a as =>
    cases bs with
    | nil => cases h
    | cons b bs =>
      rw [compareFormLists, Ordering.then_eq_eq] at h
      rw [eq_of_compareForms a b h.1, eq_of_compareFormLists as bs h.2]
termination_by structural as

end

theorem compareForms_eq_iff {a b : Value} : compareForms a b = .eq ↔ a = b := by
  refine ⟨eq_of_compareForms a b, ?_⟩
  rintro rfl
  cases h : compareForms a a with
  | eq => rfl
  | _ =>
    have hswap := compareForms_swap a a
    rw [h] at hswap
    cases hswap

theorem isLE_then_trans {a b c : Value} {x y z : Ordering}
    (ht : (compareForms a b).isLE → (compareForms b c).isLE → (compareForms a c).isLE)
    (hxyz : x.isLE → y.isLE → z.isLE) (hab : ((compareForms a b).then x).isLE)
    (hbc : ((compareForms b c).then y).isLE) : ((compareForms a c).then z).isLE := by
  have hle : ∀ {o p : Ordering}, (o.then p).isLE → o.isLE := by
    intro o p h
    cases o <;> first | rfl | cases h
  have hac := ht (hle hab) (hle hbc)
  cases h : compareForms a c with
  | lt => rfl
  | gt =>
    rw [h] at hac
    cases hac
  | eq =>
    obtain rfl := compareForms_eq_iff.mp h
    rw [compareForms_swap b a] at hbc
    cases h' : compareForms a b <;> rw [h'] at hab hbc
    · cases hbc
    · exact hxyz hab hbc
    · cases hab

mutual

theorem compareForms_trans (a b c : Value) (hab : (compareForms a b).isLE)
    (hbc : (compareForms b c).isLE) : (compareForms a c).isLE := by
  have hle := Nat.le_trans (kind_le_of_isLE hab) (kind_le_of_isLE hbc)
  by_cases hk : a.kind = c.kind
  · have hb : a.kind = b.kind :=
      Nat.le_antisymm (kind_le_of_isLE hab) (hk ▸ kind_le_of_isLE hbc)
    cases a with
    | list as => cases b with
      | list bs => cases c with
        | list cs => exact compareFormLists_trans as bs cs hab hbc
        | _ => cases hk
      | _ => cases hb
    | set as => cases b with
      | set bs => cases c with
        | set cs => exact compareFormLists_trans as bs cs hab hbc
        | _ => cases hk
      | _ => cases hb
    | empty => cases c with
      | empty => rfl
      | _ => cases hk
    | _ =>
      cases b <;> first
        | cases hb; done
        | cases c <;> first
          | cases hk; done
          | simp only [compareForms] at hab hbc ⊢; exact Std.TransCmp.isLE_trans hab hbc
  · rw [compareForms_of_kind_ne hk]
    exact Nat.isLE_compare.mpr hle
termination_by structural a

theorem compareFormLists_trans (as bs cs : List Value) (hab : (compareFormLists as bs).isLE)
    (hbc : (compareFormLists bs cs).isLE) : (compareFormLists as cs).isLE := by
  cases as with
  | nil => cases cs <;> rfl
  | cons a as =>
    cases bs with
    | nil => cases hab
    | cons b bs =>
      cases cs with
      | nil => cases hbc
      | cons c cs =>
        exact isLE_then_trans (compareForms_trans a b c) (compareFormLists_trans as bs cs) hab hbc
termination_by structural as

end

instance : Std.TransCmp compareForms where
  eq_swap := compareForms_swap _ _
  isLE_trans := compareForms_trans _ _ _

instance : Std.LawfulEqCmp compareForms where
  eq_of_compare := eq_of_compareForms _ _

instance : Std.TransOrd Value where
  eq_swap := compareForms_swap _ _
  isLE_trans := compareForms_trans _ _ _

theorem compare_def (a b : Value) : compare a b = compareForms a.canonical b.canonical := rfl

/-- Values compare as equal just when they are the same. -/
theorem compare_eq_iff_same (a b : Value) : compare a b = .eq ↔ a.same b = true := by
  rw [compare_def, compareForms_eq_iff, same, identical_iff]

end Value

end LiveRecords
