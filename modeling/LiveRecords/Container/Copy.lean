import LiveRecords.Container.Editing

/-! # Copies of containers

A copy has the labels and values of its source in the same order, under new keys. Containers
held as field values are copied along, each time they occur.
-/

namespace LiveRecords

/-- Copy the values of fields, containers by means of `copyTree`, and add them to `h`. -/
def Holder.addCopies (h : Holder) (copyTree : ContainerId → Edit ContainerId)
    (entries : List (Key × Field)) : Edit Unit :=
  entries.forM fun (_, f) => do
    let v ← match f.value with
      | .tree id => Value.tree <$> copyTree id
      | v => pure v
    discard (h.add f.label v)

def ContainerId.copyWithin : Nat → ContainerId → Edit ContainerId
  | 0, id => pure id
  | d + 1, id => do
    let entries := ((← get).container id).entries
    let copy ← Edit.newContainer
    (Holder.shared copy).addCopies (copyWithin d) entries
    return copy

def ContainerId.copy (id : ContainerId) : Edit ContainerId := do
  id.copyWithin (← get).nestingBound

end LiveRecords
