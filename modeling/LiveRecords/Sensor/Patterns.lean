import LiveRecords.Sensor

/-! # Patterns

Conditions on the changes of one record, and their combinations.
-/

namespace LiveRecords.Pattern

def always (b : Bool) : Pattern := fun _ => b

def has (l : Label) (v : Value) : Pattern := fun c => c.has l v

def changed (l : Label) : Pattern := fun c => (c.value? l).isSome

def touched (k : Key) : Pattern := fun c => c.contains k

def atLeast (n : Nat) : Pattern := fun c => n ≤ c.size

def above (l : Label) (v : Value) : Pattern := fun c =>
  (c.value? l).any fun w => compare w v == .gt

def mentions (l : Label) : Pattern := fun c => c.labels.contains l

def not (p : Pattern) : Pattern := fun c => !p c

def all (ps : List Pattern) : Pattern := fun c => ps.all (· c)

def any (ps : List Pattern) : Pattern := fun c => ps.any (· c)

end LiveRecords.Pattern
