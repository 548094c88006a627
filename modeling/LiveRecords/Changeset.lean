import LiveRecords.Changes

/-! # Changesets

The changes of several records, by name. A record without changes has no entry.
-/

namespace LiveRecords

abbrev Changeset := Table String Changes

namespace Changeset

/-- Add the changes of a record to those it has already. -/
def insert (cs : Changeset) (name : String) (c : Changes) : Changeset :=
  if c.isEmpty then cs else cs.put name (((cs.get? name).getD ∅).merge c)

/-- Add later changes, record by record. -/
def merge (cs later : Changeset) : Changeset :=
  later.entries.foldl (fun acc (name, c) => acc.insert name c) cs

def fieldCount (cs : Changeset) : Nat := cs.values.foldl (fun n c => n + c.size) 0

def same (cs ds : Changeset) : Bool :=
  cs.keys == ds.keys && (cs.values.zip ds.values).all fun (c, d) => c.same d

end Changeset

end LiveRecords
