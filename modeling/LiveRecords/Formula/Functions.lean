import LiveRecords.Formula
import LiveRecords.Value.Arithmetic
import LiveRecords.Value.Order

/-! # Functions over any number of arguments

Ready-made functions to build formulas from: choosing an argument, counting and collecting
them, adding them up, and failing on purpose.
-/

namespace LiveRecords.Function

def fail (text : String) : Except Failure Value := .error { reason := .other text }

def first : Function
  | _, [] => fail "no arguments"
  | _, v :: _ => .ok v

def last : Function := fun _ vs =>
  match vs.getLast? with
  | some v => .ok v
  | none => fail "no arguments"

/-- The greatest argument, the last of equal ones. -/
def max : Function
  | _, [] => fail "no arguments"
  | _, v :: vs => .ok (vs.foldl (fun m w => if (compare m w).isLE then w else m) v)

/-- The least argument, the first of equal ones. -/
def min : Function
  | _, [] => fail "no arguments"
  | _, v :: vs => .ok (vs.foldl (fun m w => if (compare m w).isLE then m else w) v)

def count : Function := fun _ vs => .ok (.int (.ofNat vs.length))

def list : Function := fun _ vs => .ok (.list vs)

def set : Function := fun _ vs => .ok (.ofMembers vs)

def nothing : Function := fun _ _ => .ok .empty

def typeName : Function
  | _, [] => fail "no arguments"
  | _, v :: _ => .ok (.text v.typeName)

/-- The texts of the arguments, one after the other. -/
def display : Function := fun written vs => .ok (.text (String.join (vs.map written)))

/-- The arguments added up from zero on. -/
def total : Function := fun _ vs => vs.foldlM Value.add (.int 0)

/-- The second or the third argument, as the first one says. -/
def choose : Function
  | _, [.bool b, v, w] => .ok (if b then v else w)
  | _, [_, _, _] => fail "condition is not a bool"
  | _, _ => fail "if needs 3 arguments"

def nonNegative : Function
  | _, .int n :: _ => if 0 ≤ n then .ok (.int n) else fail s!"negative: {n.toInt}"
  | _, _ => .error ⟨"nonneg!", .other "not an int"⟩

/-- Fail, whatever the arguments. -/
def failing (f : Failure) : Function := fun _ _ => .error f

/-- The functions above by the names they are called by. -/
def named? : String → Option Function
  | "first" => some first
  | "last" => some last
  | "max" => some max
  | "min" => some min
  | "count" => some count
  | "list" => some list
  | "set" => some set
  | "empty" => some nothing
  | "typename" => some typeName
  | "display" => some display
  | "add" => some total
  | "if" => some choose
  | "nonneg" => some nonNegative
  | _ => none

end LiveRecords.Function
