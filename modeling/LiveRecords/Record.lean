import LiveRecords.Container.Copy
import LiveRecords.Evaluation.Write

/-! # Records

The operations on a record. Reads evaluate, writes are noted as changes until the changes are
taken. Each read or write is an evaluation session of its own, limited as the record says.
-/

namespace LiveRecords

namespace RecordId

/-- A new record without fields. -/
def fresh (name : Option String) (maxDepth : Nat := defaultMaxDepth) : Edit RecordId :=
  Edit.newRecord name maxDepth

def limit (id : RecordId) : Edit Nat := do return ((← get).record id).maxDepth

def contents (id : RecordId) : Edit Container := (Holder.record id).contents

/-- The label and value a key of the record stands for, at any depth. -/
def field (id : RecordId) (k : Key) : Edit Field := do
  MonadExcept.ofExcept ((← get).field (← id.contents) k)

/-- A field's value without evaluation. -/
def raw (id : RecordId) (p : Place) : Edit Value := do
  MonadExcept.ofExcept ((← get).value (← id.contents) p)

/-- A field's value, evaluated if it holds a cell. -/
def read (id : RecordId) (p : Place) : Edit Value := do
  let limit ← id.limit
  Eval.run (readWithin limit limit id p)

/-- Assign a field, through the cell it holds if there is one. -/
def write (id : RecordId) (p : Place) (v : Value) : Edit Key := do
  let limit ← id.limit
  Eval.run (writeWithin limit limit id p v)

/-- Evaluate a formula for a record, limited as the record says. -/
def evaluate (id : RecordId) (f : Formula) : Edit Value := do
  let limit ← id.limit
  Eval.run (f.eval (readWithin limit limit) id)

/-- All fields, evaluated one after the other. -/
def fields (id : RecordId) : Edit (List (Label × Value)) := do
  (← id.contents).entries.mapM fun (k, f) => return (f.label, ← id.read (.key k))

/-- The fields of a record written out, unless that never ends. -/
def render (id : RecordId) : Edit (Option String) := do
  let fields ← id.fields
  return (← get).fieldsText? fields

def add (id : RecordId) (l : Label) (v : Value) : Edit Key := do
  let k ← (Holder.record id).add l v
  Edit.note id k l v
  return k

def addBefore (id : RecordId) (next : Key) (l : Label) (v : Value) : Edit Key := do
  let k ← (Holder.record id).addBefore next l v
  Edit.note id k l v
  return k

def writeAll (id : RecordId) (fields : List (Label × Value)) : Edit Unit :=
  fields.forM fun (l, v) => discard (id.write (.label l) v)

/-- Empty a field, whatever it holds. -/
def clear (id : RecordId) (p : Place) : Edit Key := do
  let k ← (Holder.record id).clear p
  Edit.note id k (← id.field k).label .empty
  return k

/-- Take a field out. What is noted is that it became empty. -/
def remove (id : RecordId) (k : Key) : Edit Field := do
  let f ← (Holder.record id).remove k
  Edit.note id k f.label .empty
  return f

def relabel (id : RecordId) (k : Key) (l : Label) : Edit Unit := do
  (Holder.record id).relabel k l
  Edit.note id k l (← id.raw (.key k))

/-- Whether a value is a reference to a record that is no longer alive. -/
def dangling (s : Space) : Value → Bool
  | .cell (.reference target _) => !s.alive target
  | _ => false

/-- Put a value in place of the cell that a field holds. A field without a cell stays as it is. -/
def supplant (id : RecordId) (p : Place) (v : Value) : Edit Value := do
  match (← id.contents).resolve p with
  | none => throw (.notFound (.place p))
  | some k =>
    unless (← id.raw (.key k)).isCell do return v
    discard ((Holder.record id).replace k v)
    Edit.note id k (← id.field k).label v
    return v

/-- Put the present value of a field in place of its cell; a reference that leads nowhere becomes
empty. -/
def detach (id : RecordId) (p : Place) : Edit Value := do
  if dangling (← get) (← id.raw p) then id.supplant p .empty
  else id.supplant p (← id.read p)

def hasChanges (id : RecordId) : Edit Bool := do
  return !((← get).record id).changes.isEmpty

/-- Hand over the changes and start anew. -/
def takeChanges (id : RecordId) : Edit Changes := do
  let r := (← get).record id
  modify (·.setRecord id { r with changes := ∅ })
  return r.changes

/-- The value that a copy of a field starts with: containers are copied, a derived cell becomes
one of the copy's own, a reference keeps its target. -/
def copyValue : Value → Edit Value
  | .tree id => Value.tree <$> id.copy
  | .cell (.derived id) => do
    match (← get).derived.get? id with
    | some d => return .cell (.derived (← Edit.newDerived d))
    | none => return .cell (.derived id)
  | v => return v

/-- A new record with copies of all fields. -/
def derive (id : RecordId) (name : Option String) : Edit RecordId := do
  let copy ← fresh name (← id.limit)
  (← id.contents).entries.forM fun (_, f) => do
    let v ← copyValue f.value
    discard (copy.add f.label v)
  return copy

/-- The name under which a record is known. -/
def handle (id : RecordId) : Edit RecordName := do
  return ⟨(← get).displayName id, id⟩

end RecordId

namespace FieldName

def read (n : FieldName) : Edit Value := do
  let id ← Edit.resolve n.record
  id.read (.label n.label)

def write (n : FieldName) (v : Value) : Edit Unit := do
  let id ← Edit.resolve n.record
  discard (id.write (.label n.label) v)

end FieldName

end LiveRecords
