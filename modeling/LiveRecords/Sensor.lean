import LiveRecords.Changeset
import LiveRecords.Record

/-! # Sensors

A sensor watches changesets for patterns in the changes of single records. When its policy is
met it fires: it logs a notification of which records matched which patterns, hands it to its
listeners and, if it has an output record, writes it there.
-/

namespace LiveRecords

/-- A condition on the changes of one record. It is taken to look at nothing else. -/
abbrev Pattern := Changes → Bool

inductive FiringPolicy where
  | allPatterns
  | anyPattern
  | sameRecord
deriving DecidableEq, Inhabited

def FiringPolicy.text : FiringPolicy → String
  | allPatterns => "AllPatterns"
  | anyPattern => "AnyPattern"
  | sameRecord => "SameObject"

/-- The patterns that each matching record matched, by index. -/
abbrev Matches := Table String (List Nat)

structure Notification where
  sensor : String
  sequence : Nat
  found : Matches
deriving Inhabited

namespace Notification

def records (n : Notification) : List String := n.found.keys

def patternsFor (n : Notification) (name : String) : List Nat := (n.found.get? name).getD []

end Notification

/-- Listeners in the order they subscribed, under numbers that are never given out again. -/
structure Audience (τ : Type) where
  members : List (Nat × τ) := []
  next : Nat := 1
deriving Inhabited

namespace Audience

variable {τ : Type}

def subscribe (a : Audience τ) (listener : τ) : Nat × Audience τ :=
  (a.next, { members := a.members ++ [(a.next, listener)], next := a.next + 1 })

def unsubscribe (a : Audience τ) (id : Nat) : Bool × Audience τ :=
  (a.members.any (·.1 = id), { a with members := a.members.filter (·.1 ≠ id) })

/-- Hand a notification to every listener, in order. What listeners do is left open, but they are
taken to do nothing to records while a commit is under way. -/
def notify (a : Audience τ) (n : Notification) : List (τ × Notification) :=
  a.members.map fun (_, listener) => (listener, n)

end Audience

structure Sensor (τ : Type) where
  name : String
  policy : FiringPolicy := .allPatterns
  patterns : List Pattern := []
  log : List Notification := []
  audience : Audience τ := {}
  output : Option RecordId := none
  outputFault : Option Fault := none

namespace Sensor

variable {τ : Type}

def addPattern (s : Sensor τ) (p : Pattern) : Nat × Sensor τ :=
  (s.patterns.length, { s with patterns := s.patterns ++ [p] })

def subscribe (s : Sensor τ) (listener : τ) : Nat × Sensor τ :=
  let (id, audience) := s.audience.subscribe listener
  (id, { s with audience })

def unsubscribe (s : Sensor τ) (id : Nat) : Bool × Sensor τ :=
  let (found, audience) := s.audience.unsubscribe id
  (found, { s with audience })

/-- The indices of the patterns that hold of a record's changes. -/
def matched (s : Sensor τ) (c : Changes) : List Nat :=
  (s.patterns.zipIdx.filter fun (p, _) => p c).map (·.2)

/-- The records that match some pattern. -/
def candidates (s : Sensor τ) (cs : Changeset) : Matches :=
  ⟨(cs.entries.map fun (name, c) => (name, s.matched c)).filter fun (_, is) => !is.isEmpty⟩

/-- The matches that a changeset fires the sensor with, if it does. -/
def evaluate (s : Sensor τ) (cs : Changeset) : Option Matches :=
  if s.patterns.isEmpty then none
  else
    let found := s.candidates cs
    match s.policy with
    | .allPatterns =>
      if (List.range s.patterns.length).all fun i => found.values.any (·.contains i)
      then some found else none
    | .anyPattern => if found.isEmpty then none else some found
    | .sameRecord =>
      let full := found.filter fun _ is => is.length = s.patterns.length
      if full.isEmpty then none else some full

/-- Write a notification to an output record. -/
def writeOut (output : RecordId) (n : Notification) : Edit Unit := do
  discard (output.write (.label (.name "sensor")) (.text n.sensor))
  discard (output.write (.label (.name "objects")) (.list (n.records.map .text)))
  discard (output.write (.label (.name "count")) (.int (.ofNat n.sequence)))

/-- Write to the output record, if there is one. The fault of a failed write is kept. -/
def emit (s : Sensor τ) (n : Notification) (space : Space) : Sensor τ × Space :=
  match s.output with
  | none => (s, space)
  | some output =>
    match writeOut output n space with
    | .ok _ space => (s, space)
    | .error f space => ({ s with outputFault := some f }, space)

/-- Fire the sensor if the changeset matches. Answers with what its listeners are handed, or
with `none` if it does not fire. -/
def notify (s : Sensor τ) (cs : Changeset) (space : Space) :
    Option (List (τ × Notification)) × Sensor τ × Space :=
  match s.evaluate cs with
  | none => (none, s, space)
  | some found =>
    let n : Notification := { sensor := s.name, sequence := s.log.length + 1, found }
    let (s, space) := s.emit n space
    (some (s.audience.notify n), { s with log := s.log ++ [n] }, space)

def text (s : Sensor τ) : String :=
  s!"Sensor \x7b name: {Quoted.encode s.name}, policy: {s.policy.text}, " ++
    s!"patterns: {s.patterns.length}, notifications: {s.log.length} \x7d"

end Sensor

end LiveRecords
