import LiveRecords.Container.Nesting

/-! # Editing fields

Every change to the fields of one holder. A label is in use at most once and a container never
comes to lie inside itself; a change that would break either is refused. Changing a field by
its key reaches through nested containers, changing it by label does not.
-/

namespace LiveRecords

namespace Holder

def contents (h : Holder) : Edit Container := do return (← get).contents h

theorem contents_run (h : Holder) (s : Space) : h.contents s = .ok (s.contents h) s := rfl

/-- Refuse a value that is, or has nested in it, a container being changed. -/
def requireNestable (opened : List ContainerId) (v : Value) : Edit Unit := do
  if (← get).nests opened v then throw (.refused .selfNesting)

theorem requireNestable_run (opened : List ContainerId) (v : Value) (s : Space) :
    requireNestable opened v s =
      if s.nests opened v then .error (.refused .selfNesting) s else .ok () s := by
  cases hn : s.nests opened v <;>
    simp [requireNestable, bind, EStateM.bind, Edit.get_run, hn] <;> rfl

/-- Take in a new field; `arrange` puts its key into the order. -/
def insert (h : Holder) (l : Label) (v : Value) (arrange : Key → List Key → List Key) :
    Edit Key := do
  let c ← h.contents
  if c.hasLabel l then throw (.refused (.labelInUse l))
  requireNestable h.opened v
  let k ← Edit.mintKey
  modify (·.setContents h (c.insert k ⟨l, v⟩ (arrange k c.order)))
  return k

theorem insert_run (h : Holder) (l : Label) (v : Value) (arrange : Key → List Key → List Key)
    (s : Space) :
    h.insert l v arrange s =
      if (s.contents h).hasLabel l then .error (.refused (.labelInUse l)) s
      else if s.nests h.opened v then .error (.refused .selfNesting) s
      else .ok ⟨s.nextKey⟩ ({ s with nextKey := s.nextKey + 1 }.setContents h
        ((s.contents h).insert ⟨s.nextKey⟩ ⟨l, v⟩
          (arrange ⟨s.nextKey⟩ (s.contents h).order))) := by
  cases hl : (s.contents h).hasLabel l <;> cases hn : s.nests h.opened v <;>
    simp [insert, bind, EStateM.bind, contents_run, requireNestable_run, hl, hn] <;> rfl

/-- Append a field. -/
def add (h : Holder) (l : Label) (v : Value) : Edit Key :=
  h.insert l v fun k order => order ++ [k]

/-- Insert a field right before another one of the same holder. -/
def addBefore (h : Holder) (next : Key) (l : Label) (v : Value) : Edit Key := do
  let c ← h.contents
  unless c.order.contains next do throw (.notFound (.key next))
  h.insert l v fun k order => order.flatMap fun j => if j = next then [k, j] else [j]

theorem addBefore_run (h : Holder) (next : Key) (l : Label) (v : Value) (s : Space) :
    h.addBefore next l v s =
      if next ∈ (s.contents h).order then
        h.insert l v (fun k order => order.flatMap fun j => if j = next then [k, j] else [j]) s
      else .error (.notFound (.key next)) s := by
  by_cases hn : next ∈ (s.contents h).order
  · simp [addBefore, bind, EStateM.bind, contents_run, hn]
  · simp [addBefore, bind, EStateM.bind, contents_run, hn]
    rfl

/-- Replace a value while the containers `opened` are being changed. -/
def replaceWithin (opened : List ContainerId) (h : Holder) (k : Key) (v : Value) :
    Edit Value := do
  let c ← h.contents
  match c.field? k with
  | none => throw (.notFound (.key k))
  | some f =>
    requireNestable opened v
    modify (·.setContents h (c.assign k f v))
    return f.value

theorem replaceWithin_run (opened : List ContainerId) (h : Holder) (k : Key) (v : Value)
    (s : Space) :
    replaceWithin opened h k v s =
      match (s.contents h).field? k with
      | none => .error (.notFound (.key k)) s
      | some f =>
        if s.nests opened v then .error (.refused .selfNesting) s
        else .ok f.value (s.setContents h ((s.contents h).assign k f v)) := by
  cases hf : (s.contents h).field? k <;> cases hn : s.nests opened v <;>
    simp [replaceWithin, bind, EStateM.bind, contents_run, requireNestable_run, hf, hn] <;> rfl

/-- Replace the value of a field of this very holder, giving back the old one. -/
def replace (h : Holder) (k : Key) (v : Value) : Edit Value :=
  replaceWithin h.opened h k v

/-- Assign a field: by key wherever it is nested, by label here, where a new label is
appended. -/
def assign (h : Holder) (p : Place) (v : Value) : Edit Key := do
  let c ← h.contents
  match p with
  | .label l =>
    match c.key? l with
    | some k => discard (h.replace k v); return k
    | none => h.add l v
  | .key k =>
    match (← get).locate c k with
    | none => throw (.notFound (.key k))
    | some path =>
      let target := (path.getLast?.map shared).getD h
      discard (replaceWithin (h.opened ++ path) target k v)
      return k

/-- Empty a field, keeping its key and label. -/
def clear (h : Holder) (p : Place) : Edit Key := do
  match p with
  | .label l =>
    let k ← MonadExcept.ofExcept ((← h.contents).key l)
    discard (h.replace k .empty)
    return k
  | .key k => h.assign (.key k) .empty

/-- Take a field out altogether. -/
def remove (h : Holder) (k : Key) : Edit Field := do
  let c ← h.contents
  match c.field? k with
  | none => throw (.notFound (.key k))
  | some f =>
    modify (·.setContents h (c.remove k f))
    return f

theorem remove_run (h : Holder) (k : Key) (s : Space) :
    h.remove k s =
      match (s.contents h).field? k with
      | none => .error (.notFound (.key k)) s
      | some f => .ok f (s.setContents h ((s.contents h).remove k f)) := by
  cases hf : (s.contents h).field? k <;>
    simp [remove, bind, EStateM.bind, contents_run, hf] <;> rfl

def relabel (h : Holder) (k : Key) (l : Label) : Edit Unit := do
  let c ← h.contents
  match c.field? k with
  | none => throw (.notFound (.key k))
  | some f =>
    if f.label = l then return
    if c.hasLabel l then throw (.refused (.labelInUse l))
    modify (·.setContents h (c.rename k f l))

theorem relabel_run (h : Holder) (k : Key) (l : Label) (s : Space) :
    h.relabel k l s =
      match (s.contents h).field? k with
      | none => .error (.notFound (.key k)) s
      | some f =>
        if f.label = l then .ok () s
        else if (s.contents h).hasLabel l then .error (.refused (.labelInUse l)) s
        else .ok () (s.setContents h ((s.contents h).rename k f l)) := by
  cases hf : (s.contents h).field? k with
  | none => simp [relabel, bind, EStateM.bind, contents_run, hf]; rfl
  | some f =>
    by_cases hl : f.label = l <;> cases hn : (s.contents h).hasLabel l <;>
      simp [relabel, bind, EStateM.bind, contents_run, hf, hl, hn] <;> rfl

/-- Relabel a field, then replace its value. -/
def change (h : Holder) (k : Key) (l : Label) (v : Value) : Edit Unit := do
  h.relabel k l
  discard (h.replace k v)

/-- Assign fields by label one after the other, passing over the labels in `ignore`. -/
def assignAll (h : Holder) (fields : List (Label × Value)) (ignore : List Label) : Edit Unit :=
  fields.forM fun (l, v) => do
    unless ignore.contains l do discard (h.assign (.label l) v)

end Holder

/-- A new container with the given fields, assigned in order. -/
def ContainerId.ofFields (fields : List (Label × Value)) : Edit ContainerId := do
  let id ← Edit.newContainer
  (Holder.shared id).assignAll fields []
  return id

end LiveRecords
