import LiveRecords.Changes
import LiveRecords.Formula

/-! # Spaces

A space is everything that handles point at: containers, derived cells and live records, with
the counters from which keys and identities are minted. Edits change a space and may fault;
what was done before a fault stays done.
-/

namespace LiveRecords

def defaultMaxDepth : Nat := 256

/-- A record holds its fields directly. `depth` counts its cells under evaluation and `pending`
is the first failure met below the outermost of them. -/
structure Record where
  name : Option String := none
  maxDepth : Nat := defaultMaxDepth
  fields : Container := {}
  changes : Changes := ∅
  depth : Nat := 0
  pending : Option Failure := none
deriving Inhabited

/-- A record that is absent from `records` is no longer alive. -/
structure Space where
  containers : Table ContainerId Container := ∅
  derived : Table DerivedId Derived := ∅
  records : Table RecordId Record := ∅
  nextKey : Nat := 1
  nextContainer : Nat := 1
  nextDerived : Nat := 1
  nextRecord : Nat := 1
deriving Inhabited

/-- Where fields are held: in a container with a handle of its own, or in a record. -/
inductive Holder where
  | shared (id : ContainerId)
  | record (id : RecordId)
deriving DecidableEq, Inhabited

/-- The containers that a change through this holder has open. -/
def Holder.opened : Holder → List ContainerId
  | shared id => [id]
  | record _ => []

namespace Space

def container (s : Space) (id : ContainerId) : Container := (s.containers.get? id).getD {}

def alive (s : Space) (id : RecordId) : Bool := s.records.contains id

def record (s : Space) (id : RecordId) : Record := (s.records.get? id).getD {}

/-- The formulas of a derived cell. -/
def derivation (s : Space) (id : DerivedId) : Derived := (s.derived.get? id).getD default

/-- The field that a place designates in a record itself, with its key. -/
def slot? (s : Space) (id : RecordId) (p : Place) : Option (Key × Field) :=
  (s.record id).fields.slot? p

def contents (s : Space) : Holder → Container
  | .shared id => s.container id
  | .record id => (s.record id).fields

def setContainer (s : Space) (id : ContainerId) (c : Container) : Space :=
  { s with containers := s.containers.put id c }

def setRecord (s : Space) (id : RecordId) (r : Record) : Space :=
  { s with records := s.records.put id r }

def setContents (s : Space) (h : Holder) (c : Container) : Space :=
  match h with
  | .shared id => s.setContainer id c
  | .record id => s.setRecord id { s.record id with fields := c }

/-- A record's own name, else the text in its field `name`, else its number. -/
def displayName (s : Space) (id : RecordId) : String :=
  let r := s.record id
  match r.name with
  | some name => name
  | none =>
    match (r.fields.key? (.name "name")).bind r.fields.field? with
    | some ⟨_, .text name⟩ => name
    | _ => s!"#{id.number}"

/-- Let go of the records that nothing holds. -/
def retain (s : Space) (held : RecordId → Bool) : Space :=
  { s with records := s.records.filter fun id _ => held id }

variable (s : Space)

theorem get?_setRecord (id j : RecordId) (r : Record) :
    (s.setRecord id r).records.get? j = if j = id then some r else s.records.get? j :=
  Table.get?_put_if ..

theorem record_setRecord (id j : RecordId) (r : Record) :
    (s.setRecord id r).record j = if j = id then r else s.record j := by
  simp only [record, get?_setRecord]
  split <;> rfl

@[simp] theorem record_setRecord_self (id : RecordId) (r : Record) :
    (s.setRecord id r).record id = r := by
  simp [record_setRecord]

theorem alive_setRecord (id j : RecordId) (r : Record) :
    (s.setRecord id r).alive j = (decide (j = id) || s.alive j) := by
  by_cases h : j = id <;> simp [alive, Table.contains, get?_setRecord, h]

theorem setRecord_setRecord (id : RecordId) (r q : Record) :
    (s.setRecord id r).setRecord id q = s.setRecord id q := by
  simp [setRecord, Table.put_put]

theorem setRecord_of_get? {s : Space} {id : RecordId} {r : Record} (ha : s.records.Ascending)
    (h : s.records.get? id = some r) : s.setRecord id r = s := by
  rw [setRecord, ha.put_of_get? h]

theorem container_setContainer (id j : ContainerId) (c : Container) :
    (s.setContainer id c).container j = if j = id then c else s.container j := by
  simp only [container, setContainer, Table.get?_put_if]
  split <;> rfl

theorem contents_setNextKey (n : Nat) (h : Holder) :
    { s with nextKey := n }.contents h = s.contents h := by
  cases h <;> rfl

theorem contents_setContents (h g : Holder) (c : Container) :
    (s.setContents h c).contents g = if g = h then c else s.contents g := by
  cases h <;> cases g <;>
    simp only [setContents, contents, container_setContainer, record_setRecord, Holder.shared.injEq,
      Holder.record.injEq, reduceCtorEq, if_false]
  · rfl
  · rfl
  · split <;> simp [*]

theorem record_retain_if {s : Space} (ha : s.records.Ascending) (held : RecordId → Bool)
    (id : RecordId) :
    (s.retain held).record id = if held id then s.record id else {} := by
  simp only [record, retain, ha.get?_filter]
  cases s.records.get? id with
  | none => exact (ite_self _).symm
  | some r => cases held id <;> rfl

theorem record_retain {s : Space} (ha : s.records.Ascending) (held : RecordId → Bool)
    (id : RecordId) :
    (s.retain held).record id = s.record id ∨ (s.retain held).record id = {} := by
  rw [record_retain_if ha]
  split
  · exact .inl rfl
  · exact .inr rfl

end Space

abbrev Edit := EStateM Fault Space

namespace Edit

theorem get_run (s : Space) : (get : Edit Space) s = .ok s s := rfl

def mintKey : Edit Key := do
  let s ← get
  set { s with nextKey := s.nextKey + 1 }
  return ⟨s.nextKey⟩

def newContainer : Edit ContainerId := do
  let s ← get
  let id : ContainerId := ⟨s.nextContainer⟩
  set { s.setContainer id {} with nextContainer := s.nextContainer + 1 }
  return id

def newDerived (d : Derived) : Edit DerivedId := do
  let s ← get
  let id : DerivedId := ⟨s.nextDerived⟩
  set { s with derived := s.derived.put id d, nextDerived := s.nextDerived + 1 }
  return id

def newRecord (name : Option String) (maxDepth : Nat) : Edit RecordId := do
  let s ← get
  let id : RecordId := ⟨s.nextRecord⟩
  set { s.setRecord id { name, maxDepth } with nextRecord := s.nextRecord + 1 }
  return id

/-- The record a name stands for. -/
def resolve (n : RecordName) : Edit RecordId := do
  if (← get).alive n.target then return n.target
  else throw (.notFound (.record n.text))

/-- The record that a reference to `l` leads to. -/
def follow (target : RecordId) (l : Label) : Edit RecordId := do
  if (← get).alive target then return target
  else throw (.notFound (.referenced l))

/-- Note a write in a record's changes. -/
def note (id : RecordId) (k : Key) (l : Label) (v : Value) : Edit Unit :=
  modify fun s =>
    let r := s.record id
    s.setRecord id { r with changes := r.changes.record k l v }

theorem resolve_run (n : RecordName) (s : Space) :
    resolve n s =
      if s.alive n.target then .ok n.target s else .error (.notFound (.record n.text)) s := by
  cases h : s.alive n.target <;>
    simp [resolve, bind, EStateM.bind, get_run, h] <;> rfl

theorem follow_run (target : RecordId) (l : Label) (s : Space) :
    follow target l s =
      if s.alive target then .ok target s else .error (.notFound (.referenced l)) s := by
  cases h : s.alive target <;>
    simp [follow, bind, EStateM.bind, get_run, h] <;> rfl

theorem note_run (id : RecordId) (k : Key) (l : Label) (v : Value) (s : Space) :
    note id k l v s =
      .ok () (s.setRecord id
        { s.record id with changes := (s.record id).changes.record k l v }) :=
  rfl

end Edit

end LiveRecords
