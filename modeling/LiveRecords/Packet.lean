import LiveRecords.Index
import LiveRecords.Sensor

/-! # Packets

A packet registers records under their names. Committing gathers the changes of all of them
into one changeset, brings the index up to date with it, and then shows it to the sensors.
-/

namespace LiveRecords

structure Packet (τ : Type) where
  maxDepth : Nat := defaultMaxDepth
  records : Table String RecordId := ∅
  index : Index := {}
  sensors : List (Nat × Sensor τ) := []
  nextSensor : Nat := 1

namespace Packet

variable {τ : Type}

/-- Register a record under its own name. -/
def add (p : Packet τ) (id : RecordId) : Edit (RecordName × Packet τ) := do
  match ((← get).record id).name with
  | none => throw (.refused .unnamed)
  | some name =>
    if p.records.contains name then throw (.refused (.nameTaken name))
    return (⟨name, id⟩, { p with records := p.records.put name id })

/-- Register a new record. -/
def create (p : Packet τ) (name : String) : Edit (RecordId × RecordName × Packet τ) := do
  let id ← RecordId.fresh (some name) p.maxDepth
  let (handle, p) ← p.add id
  return (id, handle, p)

def record (p : Packet τ) (name : String) : Edit RecordId :=
  match p.records.get? name with
  | some id => return id
  | none => throw (.notFound (.record name))

/-- Take a record out, discarding its changes and its entries in the index. -/
def remove (p : Packet τ) (name : String) : Edit (RecordId × Packet τ) := do
  let id ← p.record name
  discard id.takeChanges
  return (id, { p with records := p.records.erase name, index := p.index.forget name })

/-- Read a field of the record registered under a name. -/
def read (p : Packet τ) (n : FieldName) : Edit Value := do
  (← p.record n.record.text).read (.label n.label)

def write (p : Packet τ) (n : FieldName) (v : Value) : Edit Unit := do
  discard ((← p.record n.record.text).write (.label n.label) v)

def addSensor (p : Packet τ) (s : Sensor τ) : Nat × Packet τ :=
  (p.nextSensor,
    { p with sensors := p.sensors ++ [(p.nextSensor, s)], nextSensor := p.nextSensor + 1 })

def sensor? (p : Packet τ) (id : Nat) : Option (Sensor τ) :=
  (p.sensors.find? (·.1 = id)).map (·.2)

def setSensor (p : Packet τ) (id : Nat) (s : Sensor τ) : Packet τ :=
  { p with sensors := p.sensors.map fun e => if e.1 = id then (id, s) else e }

def removeSensor (p : Packet τ) (id : Nat) : Packet τ :=
  { p with sensors := p.sensors.filter (·.1 ≠ id) }

/-- The records that a packet keeps alive: those registered and the outputs of its sensors. -/
def held (p : Packet τ) : List RecordId :=
  p.records.values ++ p.sensors.flatMap fun (_, s) => s.output.toList

/-- Take the changes of the given records, in order, into a changeset. -/
def drain (space : Space) : List (String × RecordId) → Changeset → Changeset × Space
  | [], cs => (cs, space)
  | (name, id) :: rest, cs =>
    let r := space.record id
    if r.changes.isEmpty then drain space rest cs
    else drain (space.setRecord id { r with changes := ∅ }) rest (cs.insert name r.changes)

/-- Show a changeset to sensors one after the other. -/
def consult (cs : Changeset) (space : Space) :
    List (Nat × Sensor τ) → List (τ × Notification) × List (Nat × Sensor τ) × Space
  | [] => ([], [], space)
  | (id, s) :: rest =>
    let (fired, s, space) := s.notify cs space
    let (more, rest, space) := consult cs space rest
    (fired.getD [] ++ more, (id, s) :: rest, space)

/-- What a commit brings about: the changeset, and what listeners are handed. -/
structure Commit (τ : Type) where
  changes : Changeset
  delivered : List (τ × Notification)
  packet : Packet τ
  space : Space

def commit (p : Packet τ) (space : Space) : Commit τ :=
  let (cs, space) := drain space p.records.entries ∅
  if cs.isEmpty then ⟨cs, [], p, space⟩
  else
    let (delivered, sensors, space) := consult cs space p.sensors
    ⟨cs, delivered, { p with index := p.index.apply cs, sensors }, space⟩

def lookup (p : Packet τ) (l : Label) (v : Value) : List String := p.index.lookup l v

end Packet

end LiveRecords
