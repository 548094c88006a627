import LiveRecords.Value

/-! # Order and equality of values

Values of different kinds are ordered by kind, values of one kind by content, and a set by its
canonical members: sorted, each once. Bringing every set at every depth into canonical form
first turns both order and equality into a plain comparison of two trees.
-/

namespace LiveRecords.Value

def kind : Value → Nat
  | empty => 0
  | bool _ => 1
  | int _ => 2
  | float _ => 3
  | text _ => 4
  | list _ => 5
  | set _ => 6
  | tree _ => 7
  | cell _ => 8

mutual

/-- The order of stored forms, members compared one by one. -/
def compareForms : Value → Value → Ordering
  | bool a, bool b => Ord.compare a b
  | int a, int b => Ord.compare a b
  | float a, float b => Ord.compare a b
  | text a, text b => Ord.compare a b
  | list as, list bs => compareFormLists as bs
  | set as, set bs => compareFormLists as bs
  | tree a, tree b => Ord.compare a b
  | cell a, cell b => Ord.compare a b
  | a, b => Ord.compare a.kind b.kind

def compareFormLists : List Value → List Value → Ordering
  | [], [] => .eq
  | [], _ :: _ => .lt
  | _ :: _, [] => .gt
  | a :: as, b :: bs => (compareForms a b).then (compareFormLists as bs)

end

section Arranging

variable {α : Type} (cmp : α → α → Ordering)

/-- Put a member before the first one that is not smaller; of two equal members the new one
stays. -/
def insertUnique (a : α) : List α → List α
  | [] => [a]
  | b :: bs =>
    match cmp a b with
    | .lt => a :: b :: bs
    | .eq => a :: bs
    | .gt => b :: insertUnique a bs

/-- The members in ascending order, the first of equal ones kept. -/
def arrange (as : List α) : List α := as.foldr (insertUnique cmp) []

end Arranging

mutual

/-- The value with every set in it sorted and free of duplicates. -/
def canonical : Value → Value
  | list vs => list (canonicalList vs)
  | set vs => set (arrange compareForms (canonicalList vs))
  | v => v

def canonicalList : List Value → List Value
  | [] => []
  | v :: vs => canonical v :: canonicalList vs

end

protected def compare (a b : Value) : Ordering := compareForms a.canonical b.canonical

instance : Ord Value := ⟨Value.compare⟩

/-- Equality of values: that of their canonical forms. -/
def same (a b : Value) : Bool := a.canonical.identical b.canonical

/-- A set of the given members, sorted and without duplicates. -/
def ofMembers (vs : List Value) : Value := set (arrange Value.compare vs)

/-- The members of a list in ascending order, equal ones in their old order. -/
def sort (vs : List Value) : List Value :=
  vs.mergeSort fun a b => (Value.compare a b).isLE

mutual

/-- What a hash is fed: a mark for the kind, then the content, a set by its canonical members. -/
def digest : Value → List Nat
  | empty => [0]
  | bool b => [1, b.toNat]
  | int n => [2, n.toUInt64.toNat]
  | float x => [3, x.bits.toNat]
  | text s => 4 :: s.toList.map Char.toNat ++ [0x110000]
  | list vs => 5 :: vs.length :: (digests vs).flatMap (·.2)
  | set vs =>
    let ds := arrange (fun d e => Value.compare d.1 e.1) (digests vs)
    6 :: ds.length :: ds.flatMap (·.2)
  | tree id => [7, id.number]
  | cell (.derived id) => [8, id.number]
  | cell (.reference target _) => [8, target.number]

def digests : List Value → List (Value × List Nat)
  | [] => []
  | v :: vs => (v, digest v) :: digests vs

end

instance : Hashable Value := ⟨fun v => hash v.digest⟩

end LiveRecords.Value
