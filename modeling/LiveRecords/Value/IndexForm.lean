import LiveRecords.Value.Order

/-! # Index forms

The form under which a value is indexed does not depend on how its sets are laid out. Empty
values, containers and cells have none, nor has a list or a set that holds one.
-/

namespace LiveRecords.Value

mutual

def indexForm : Value → Option Value
  | empty => none
  | tree _ => none
  | cell _ => none
  | list vs => (indexForms vs).map list
  | set vs => (indexForms vs).map ofMembers
  | v => some v

def indexForms : List Value → Option (List Value)
  | [] => some []
  | v :: vs => do
    let f ← indexForm v
    let fs ← indexForms vs
    some (f :: fs)

end

end LiveRecords.Value
