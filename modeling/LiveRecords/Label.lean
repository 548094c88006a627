import LiveRecords.Table

/-! # Keys, labels and places

A field is reached by its key, which never changes and is never given out twice, or by its
label, which can. Labels are ordered: the empty label, then names, then indices.
-/

namespace LiveRecords

structure Key where
  number : Nat
deriving DecidableEq, Repr, Inhabited

instance : Ord Key := ⟨fun a b => compare a.number b.number⟩

instance : Std.TransOrd Key := inferInstanceAs (Std.TransCmp (compareOn Key.number))

instance : Std.LawfulEqOrd Key := lawfulEqCmp_compareOn fun _ _ => congrArg Key.mk

def Key.text (k : Key) : String := s!"Key({k.number})"

inductive Label where
  | empty
  | name (s : String)
  | index (i : Int64)
deriving DecidableEq, Inhabited

namespace Label

def isEmpty : Label → Bool
  | empty => true
  | _ => false

@[simp] theorem isEmpty_iff (l : Label) : l.isEmpty = true ↔ l = empty := by
  cases l <;> simp [isEmpty]

def name? : Label → Option String
  | name s => some s
  | _ => none

protected def compare : Label → Label → Ordering
  | empty, empty => .eq
  | empty, _ => .lt
  | _, empty => .gt
  | name s, name t => compare s t
  | name _, index _ => .lt
  | index _, name _ => .gt
  | index i, index j => compare i j

instance : Ord Label := ⟨Label.compare⟩

theorem compare_def (l m : Label) : compare l m = Label.compare l m := rfl

instance : Std.TransOrd Label where
  eq_swap {a b} := by
    cases a <;> cases b <;>
      simp only [compare_def, Label.compare, Ordering.swap_lt, Ordering.swap_eq,
        Ordering.swap_gt] <;>
      exact Std.OrientedCmp.eq_swap
  isLE_trans {a b c} := by
    cases a <;> cases b <;> cases c <;> simp [compare_def, Label.compare] <;>
      exact Std.TransCmp.isLE_trans

instance : Std.LawfulEqOrd Label where
  eq_of_compare {a b} := by
    cases a <;> cases b <;> simp [compare_def, Label.compare]

/-- The label as it reads in a message: names bare. -/
def plain : Label → String
  | empty => "Empty()"
  | name s => s
  | index i => toString i.toInt

/-- The label as it reads in a listing: names quoted. -/
def text : Label → String
  | name s => s!"'{s}'"
  | l => l.plain

end Label

/-- Where a field is sought: by key through every depth of nesting, by label in one container. -/
inductive Place where
  | key (k : Key)
  | label (l : Label)
deriving DecidableEq, Inhabited

def Place.text : Place → String
  | key k => s!"Key({k.text})"
  | label l => s!"Label({l.text})"

end LiveRecords
