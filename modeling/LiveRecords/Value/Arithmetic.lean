import LiveRecords.Fault
import LiveRecords.Number.Checked
import LiveRecords.Value

/-! # Arithmetic on values

Two integers stay an integer or overflow; once a double takes part the result is a double.
Texts and lists can be joined. All other operands are refused by their types.
-/

namespace LiveRecords.Value

def ofChecked : Option Int64 → Except Failure Value
  | some n => .ok (int n)
  | none => .error { reason := .overflow }

def onDoubles (symbol : String) (op : Double → Double → Double) (a b : Value) :
    Except Failure Value :=
  match a.float?, b.float? with
  | some x, some y => .ok (float (op x y))
  | _, _ => .error { reason := .operandTypes symbol a.typeName b.typeName }

def add : Value → Value → Except Failure Value
  | int a, int b => ofChecked (Checked.add? a b)
  | text s, text t => .ok (text (s ++ t))
  | list as, list bs => .ok (list (as ++ bs))
  | a, b => onDoubles "+" (· + ·) a b

def sub : Value → Value → Except Failure Value
  | int a, int b => ofChecked (Checked.sub? a b)
  | a, b => onDoubles "-" (· - ·) a b

def mul : Value → Value → Except Failure Value
  | int a, int b => ofChecked (Checked.mul? a b)
  | a, b => onDoubles "*" (· * ·) a b

end LiveRecords.Value
