import LiveRecords.Formula
import LiveRecords.Value.Arithmetic

/-! # Built-in formulas

The four arithmetic formulas. Each takes exactly two operands.
-/

namespace LiveRecords

/-- A function of two arguments, `name` being blamed for any other number of them. -/
def Function.binary (name : String) (op : Value → Value → Except Failure Value) : Function
  | _, [a, b] => op a b
  | _, vs => .error ⟨name, .argumentCount 2 vs.length⟩

namespace Formula

def sum (operands : List Operand) : Formula :=
  mk "sum" (.binary "sum" Value.add) operands

def difference (operands : List Operand) : Formula :=
  mk "difference" (.binary "difference" Value.sub) operands

def product (operands : List Operand) : Formula :=
  mk "product" (.binary "product" Value.mul) operands

/-- An amount grown by a rate: `a + a * r`. -/
def interest (operands : List Operand) : Formula :=
  mk "interest" (.binary "interest" fun a r => a.mul r >>= a.add) operands

end Formula

end LiveRecords
