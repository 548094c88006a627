import LiveRecords.Evaluation.Session
import LiveRecords.Text.Listing

/-! # Reading

Reading a field evaluates the cell it holds. Formulas are evaluated by recursion on their
structure against a reader for the fields they mention; that reader has room for one cell
less, and with no room left a cell is too deep.
-/

namespace LiveRecords

abbrev Reader := RecordId → Place → Eval Value

mutual

/-- Evaluate a formula for a record. -/
def Formula.eval (read : Reader) (f : Formula) (id : RecordId) : Eval Value :=
  match f with
  | .mk name apply operands =>
    Eval.onTarget id do
      let vs ← Operand.evalAll read operands
      match apply (← Eval.space).plainText vs with
      | .ok v => return v
      | .error failure => throw (.failed (failure.within name))

def Operand.eval (read : Reader) (a : Operand) : Eval Value :=
  match a with
  | .constant v => return v
  | .here l => do
    let id ← Eval.target
    read id (.label l)
  | .nested f => do
    let id ← Eval.target
    Formula.eval read f id
  | .field n => do
    let id ← Eval.edit (Edit.resolve n.record)
    read id (.label n.label)

def Operand.evalAll (read : Reader) (as : List Operand) : Eval (List Value) :=
  match as with
  | [] => return []
  | a :: as => do
    let v ← Operand.eval read a
    let vs ← Operand.evalAll read as
    return v :: vs

end

/-- The value of a cell held by the record `owner`. -/
def Cell.eval (read : Reader) (owner : RecordId) : Cell → Eval Value
  | .derived id => do
    let d := (← Eval.space).derivation id
    d.getter.eval read owner
  | .reference target l => do
    let id ← Eval.edit (Edit.follow target l)
    read id (.label l)

/-- Read a place of a record, given how the cells it holds itself are evaluated. Cells nested
deeper are read as they are. -/
def readBy (evaluate : RecordId → Key → Label → Cell → Eval Value) : Reader := fun id p => do
  let s ← Eval.space
  match s.slot? id p with
  | none => MonadExcept.ofExcept (s.value (s.record id).fields p)
  | some (k, ⟨l, .cell cell⟩) => evaluate id k l cell
  | some (_, ⟨_, v⟩) => return v

/-- Read with room for so many more nested cells. -/
def readWithin (limit : Nat) : Nat → Reader
  | 0 => readBy fun id _ _ _ => Eval.settling id (throw (.tooDeep limit))
  | room + 1 => readBy fun id k l cell =>
      Eval.settling id (Eval.guarded id k l (cell.eval (readWithin limit room) id))

end LiveRecords
