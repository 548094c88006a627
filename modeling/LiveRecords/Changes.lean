import LiveRecords.Container
import LiveRecords.Value.Order

/-! # Changes

What became of the fields of one record over a period: for every field written, by key, the
label and value it was left with.
-/

namespace LiveRecords

abbrev Changes := Table Key Field

namespace Changes

def record (c : Changes) (k : Key) (l : Label) (v : Value) : Changes := c.put k ⟨l, v⟩

/-- The value left under a label. Of several keys with that label the smallest counts. -/
def value? (c : Changes) (l : Label) : Option Value :=
  (c.values.find? (·.label = l)).map (·.value)

/-- Whether a label was left with exactly this value. -/
def has (c : Changes) (l : Label) (v : Value) : Bool :=
  match c.value? l with
  | some w => w.same v
  | none => false

def labels (c : Changes) : List Label := c.values.map (·.label)

/-- Equality up to equality of values. -/
def same (c d : Changes) : Bool :=
  c.size = d.size && (c.entries.zip d.entries).all fun ((j, f), (k, g)) =>
    j = k && f.label = g.label && f.value.same g.value

end Changes

end LiveRecords
