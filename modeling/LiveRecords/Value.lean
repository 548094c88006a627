import LiveRecords.Label
import LiveRecords.Number.Double

/-! # Values

A value is plain data, or a handle: to a container, to a derived cell, or to a field of a
record that it stands in for. Handles are compared by what they point at; the things pointed
at live in a `Space`.
-/

namespace LiveRecords

structure ContainerId where
  number : Nat
deriving DecidableEq, Repr, Inhabited

structure RecordId where
  number : Nat
deriving DecidableEq, Repr, Inhabited

structure DerivedId where
  number : Nat
deriving DecidableEq, Repr, Inhabited

instance : Ord ContainerId := ⟨fun a b => compare a.number b.number⟩
instance : Ord RecordId := ⟨fun a b => compare a.number b.number⟩
instance : Ord DerivedId := ⟨fun a b => compare a.number b.number⟩

instance : Std.TransOrd ContainerId := inferInstanceAs (Std.TransCmp (compareOn ContainerId.number))
instance : Std.TransOrd RecordId := inferInstanceAs (Std.TransCmp (compareOn RecordId.number))
instance : Std.TransOrd DerivedId := inferInstanceAs (Std.TransCmp (compareOn DerivedId.number))

instance : Std.LawfulEqOrd ContainerId :=
  lawfulEqCmp_compareOn fun _ _ => congrArg ContainerId.mk
instance : Std.LawfulEqOrd RecordId := lawfulEqCmp_compareOn fun _ _ => congrArg RecordId.mk
instance : Std.LawfulEqOrd DerivedId := lawfulEqCmp_compareOn fun _ _ => congrArg DerivedId.mk

/-- A cell is evaluated when read: a derived cell by its formula, a reference by reading the
field it leads to. -/
inductive Cell where
  | derived (id : DerivedId)
  | reference (target : RecordId) (label : Label)
deriving DecidableEq, Inhabited

def Cell.compare : Cell → Cell → Ordering
  | derived a, derived b => Ord.compare a b
  | derived _, reference _ _ => .lt
  | reference _ _, derived _ => .gt
  | reference a l, reference b m => (Ord.compare a b).then (Ord.compare l m)

instance : Ord Cell := ⟨Cell.compare⟩

inductive Value where
  | empty
  | bool (b : Bool)
  | int (n : Int64)
  | float (x : Double)
  | text (s : String)
  | list (items : List Value)
  | set (items : List Value)
  | tree (id : ContainerId)
  | cell (c : Cell)
deriving Inhabited

namespace Value

/-- A short integer, widened. -/
def ofInt32 (n : Int32) : Value := int n.toInt64

def isEmpty : Value → Bool
  | empty => true
  | _ => false

def isCell : Value → Bool
  | cell _ => true
  | _ => false

def bool? : Value → Option Bool
  | bool b => some b
  | _ => none

def int? : Value → Option Int64
  | int n => some n
  | _ => none

/-- A number as a double; integers go to the nearest one. -/
def float? : Value → Option Double
  | float x => some x
  | int n => some (.ofInt64 n)
  | _ => none

def text? : Value → Option String
  | text s => some s
  | _ => none

/-- The members of a list or a set, as stored. -/
def items? : Value → Option (List Value)
  | list vs => some vs
  | set vs => some vs
  | _ => none

def tree? : Value → Option ContainerId
  | tree id => some id
  | _ => none

def cell? : Value → Option Cell
  | cell c => some c
  | _ => none

def typeName : Value → String
  | empty => "empty"
  | bool _ => "bool"
  | int _ => "int"
  | float _ => "float"
  | text _ => "str"
  | list _ => "list"
  | set _ => "set"
  | tree _ => "tree"
  | cell _ => "cell"

mutual

/-- Equality of the stored form, member by member. -/
def identical : Value → Value → Bool
  | empty, empty => true
  | bool a, bool b => a == b
  | int a, int b => a == b
  | float a, float b => a == b
  | text a, text b => a == b
  | list as, list bs => identicalLists as bs
  | set as, set bs => identicalLists as bs
  | tree a, tree b => a == b
  | cell a, cell b => a == b
  | _, _ => false

def identicalLists : List Value → List Value → Bool
  | [], [] => true
  | a :: as, b :: bs => identical a b && identicalLists as bs
  | _, _ => false

end

mutual

theorem identical_iff (a b : Value) : identical a b = true ↔ a = b := by
  cases a <;> cases b <;> simp [identical, identicalLists_iff]

theorem identicalLists_iff (as bs : List Value) : identicalLists as bs = true ↔ as = bs := by
  cases as <;> cases bs <;> simp [identicalLists, identical_iff, identicalLists_iff]

end

instance : DecidableEq Value := fun a b => decidable_of_iff _ (identical_iff a b)

end Value

end LiveRecords
