import LiveRecords.Evaluation.Read

/-! # Writing

Assigning plain data to a field that holds a cell goes through the cell, which stays: a reference
hands the value on, a derived cell shows it in its place while its reactions are evaluated and
assigned in order. What is noted as the change is what the field reads as afterwards.
-/

namespace LiveRecords

abbrev Writer := RecordId → Place → Value → Eval Key

namespace Derived

def react (read : Reader) (write : Writer) (owner : RecordId) (d : Derived) : Eval Unit :=
  d.reactions.forM fun (output, f) => do
    let v ← f.eval read owner
    discard (write owner (.label output) v)

end Derived

/-- Store a value in a slot as it is. -/
def Eval.store (id : RecordId) (k : Key) (v : Value) : Eval Unit :=
  Eval.edit (discard ((Holder.record id).replace k v))

/-- Run `m`, then `after` in any case; the fault of `m` comes before that of `after`. -/
def Eval.followedBy (m after : Eval Unit) : Eval Unit := fun σ =>
  match m σ with
  | .ok _ σ => after σ
  | .error f σ =>
    match after σ with
    | .ok _ σ => .error f σ
    | .error _ σ => .error f σ

/-- Assign through a cell that the record `owner` holds at `k`. -/
def Cell.assign (read : Reader) (write : Writer) (owner : RecordId) (k : Key) (v : Value) :
    Cell → Eval Unit
  | .derived id => do
    let d := (← Eval.space).derivation id
    Eval.store owner k v
    Eval.followedBy (d.react read write owner) (Eval.store owner k (.cell (.derived id)))
  | .reference target l => do
    let id ← Eval.edit (Edit.follow target l)
    discard (write id (.label l) v)

/-- Write to a place of a record, given how a cell is assigned and how it is read afterwards. -/
def writeBy (assign : RecordId → Key → Label → Cell → Value → Eval Unit) (read : Reader) :
    Writer := fun id p v => do
  match (← Eval.space).slot? id p, v.isCell with
  | some (k, ⟨l, .cell cell⟩), false =>
    assign id k l cell v
    let effective ← read id (.key k)
    Eval.edit (Edit.note id k l effective)
    return k
  | _, _ =>
    let k ← Eval.edit ((Holder.record id).assign p v)
    let s ← Eval.space
    let f ← MonadExcept.ofExcept (s.field (s.record id).fields k)
    Eval.edit (Edit.note id k f.label v)
    return k

/-- Write with room for so many more nested cells. -/
def writeWithin (limit : Nat) : Nat → Writer
  | 0 => writeBy (fun _ _ _ _ _ => throw (.tooDeep limit)) (readWithin limit 0)
  | room + 1 =>
    writeBy
      (fun id k l cell v => Eval.guarded id k l
        (cell.assign (readWithin limit room) (writeWithin limit room) id k v))
      (readWithin limit (room + 1))

end LiveRecords
