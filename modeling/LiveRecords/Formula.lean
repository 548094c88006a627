import LiveRecords.Fault
import LiveRecords.Value

/-! # Formulas

A formula is a named function bound to operands. An operand is a constant, a field of
whichever record the formula is evaluated for, another formula evaluated for that same record,
or a field of a record given by name. A derived cell has a formula for its value and formulas
for what else changes when it is assigned.
-/

namespace LiveRecords

/-- A name for a record. It does not keep the record alive. -/
structure RecordName where
  text : String
  target : RecordId
deriving DecidableEq, Inhabited

structure FieldName where
  record : RecordName
  label : Label
deriving DecidableEq, Inhabited

def RecordName.field (n : RecordName) (l : Label) : FieldName := ⟨n, l⟩

def FieldName.text (n : FieldName) : String := s!"{n.record.text}.{n.label.plain}"

/-- A function sees its arguments, and how any value would be written out. It is taken to look at
nothing else, to do nothing else, and to come to an end: what cannot be written out it does not ask
for. -/
abbrev Function := (Value → String) → List Value → Except Failure Value

mutual

inductive Formula where
  | mk (name : String) (apply : Function) (operands : List Operand)

inductive Operand where
  | constant (v : Value)
  | here (l : Label)
  | nested (f : Formula)
  | field (n : FieldName)

end

instance : Inhabited Formula := ⟨.mk "" (fun _ _ => .ok .empty) []⟩

def Formula.name : Formula → String
  | mk name _ _ => name

def Formula.operands : Formula → List Operand
  | mk _ _ operands => operands

/-- `getter` gives the value. On assignment every reaction is evaluated and its result stored
under its label. -/
structure Derived where
  getter : Formula
  reactions : List (Label × Formula) := []
deriving Inhabited

/-- Add a reaction, in the place of an earlier one for the same label. -/
def Derived.reacting (d : Derived) (output : Label) (f : Formula) : Derived :=
  if d.reactions.any (·.1 = output) then
    { d with reactions := d.reactions.map fun r => if r.1 = output then (output, f) else r }
  else
    { d with reactions := d.reactions ++ [(output, f)] }

end LiveRecords
