import LiveRecords.Value

/-! # Containers

A container keeps its fields by key, a key for every label in use, the order of its keys, and
the containers that are values of its fields, once for each such field. The operations here
keep these four views in step; whether they are allowed is decided elsewhere.
-/

namespace LiveRecords

structure Field where
  label : Label
  value : Value
deriving DecidableEq, Inhabited

structure Container where
  fields : Table Key Field := ∅
  keyOf : Table Label Key := ∅
  order : List Key := []
  nested : List ContainerId := []
deriving Inhabited

namespace Container

def size (c : Container) : Nat := c.order.length

def isEmpty (c : Container) : Bool := c.order.isEmpty

def holds (c : Container) (k : Key) : Bool := c.fields.contains k

def hasLabel (c : Container) (l : Label) : Bool := c.keyOf.contains l

def field? (c : Container) (k : Key) : Option Field := c.fields.get? k

def key? (c : Container) (l : Label) : Option Key := c.keyOf.get? l

/-- The key that a place designates in this very container. -/
def resolve (c : Container) : Place → Option Key
  | .key k => if c.holds k then some k else none
  | .label l => c.key? l

/-- The field that a place designates in this very container, with its key. -/
def slot? (c : Container) (p : Place) : Option (Key × Field) :=
  (c.resolve p).bind fun k => (c.field? k).map (k, ·)

/-- The fields in order. -/
def entries (c : Container) : List (Key × Field) :=
  c.order.filterMap fun k => (c.field? k).map (k, ·)

def labels (c : Container) : List Label := c.entries.map (·.2.label)

def values (c : Container) : List Value := c.entries.map (·.2.value)

def adopt (v : Value) (nested : List ContainerId) : List ContainerId :=
  match v with
  | .tree id => nested ++ [id]
  | _ => nested

/-- Take out the first `id`, the last container of the list taking its place. -/
def swapErase (id : ContainerId) : List ContainerId → List ContainerId
  | [] => []
  | a :: as =>
    if a = id then
      match as.getLast? with
      | some b => b :: as.dropLast
      | none => []
    else a :: swapErase id as

def disown (v : Value) (nested : List ContainerId) : List ContainerId :=
  match v with
  | .tree id => swapErase id nested
  | _ => nested

/-- Note a label as designating a key; the empty label designates none. -/
def mark (l : Label) (k : Key) (keyOf : Table Label Key) : Table Label Key :=
  if l.isEmpty then keyOf else keyOf.put l k

def unmark (l : Label) (keyOf : Table Label Key) : Table Label Key :=
  if l.isEmpty then keyOf else keyOf.erase l

/-- Take in a field under a new key, `order` being the order with that key in it. -/
def insert (c : Container) (k : Key) (f : Field) (order : List Key) : Container :=
  { fields := c.fields.put k f, keyOf := mark f.label k c.keyOf,
    order, nested := adopt f.value c.nested }

/-- Give the field at `k` another value. -/
def assign (c : Container) (k : Key) (f : Field) (v : Value) : Container :=
  { c with
    fields := c.fields.put k { f with value := v }
    nested := adopt v (disown f.value c.nested) }

/-- Give the field at `k` another label. -/
def rename (c : Container) (k : Key) (f : Field) (l : Label) : Container :=
  { c with
    fields := c.fields.put k { f with label := l }
    keyOf := mark l k (unmark f.label c.keyOf) }

def remove (c : Container) (k : Key) (f : Field) : Container :=
  { fields := c.fields.erase k, keyOf := unmark f.label c.keyOf,
    order := c.order.filter (· ≠ k), nested := disown f.value c.nested }

section Laws

variable (c : Container) (k j : Key) (f : Field) (l m : Label)

theorem holds_iff : c.holds k = true ↔ ∃ g, c.field? k = some g := Option.isSome_iff_exists

theorem hasLabel_eq_false : c.hasLabel l = false ↔ c.key? l = none := by
  simp [hasLabel, Table.contains, key?]

theorem slot?_eq_some {p : Place} :
    c.slot? p = some (k, f) ↔ c.resolve p = some k ∧ c.field? k = some f := by
  simp only [slot?, Option.bind_eq_some_iff, Option.map_eq_some_iff, Prod.mk.injEq]
  constructor
  · rintro ⟨j, hj, g, hg, rfl, rfl⟩
    exact ⟨hj, hg⟩
  · rintro ⟨hk, hf⟩
    exact ⟨k, hk, f, hf, rfl, rfl⟩

theorem slot?_key : c.slot? (.key k) = (c.field? k).map (k, ·) := by
  have hk : c.holds k = (c.field? k).isSome := rfl
  cases h : c.field? k <;> simp [slot?, resolve, hk, h]

theorem swapErase_perm (id : ContainerId) (as : List ContainerId) :
    (swapErase id as).Perm (as.erase id) := by
  induction as with
  | nil => exact .refl _
  | cons a as ih =>
    by_cases ha : a = id
    · rw [ha, List.erase_cons_head, swapErase, if_pos rfl]
      rcases as.eq_nil_or_concat with rfl | ⟨front, b, rfl⟩
      · exact .refl _
      · rw [List.concat_eq_append, List.getLast?_concat, List.dropLast_concat]
        exact (List.perm_append_singleton b front).symm
    · rw [swapErase, if_neg ha, List.erase_cons_tail (by simpa using ha)]
      exact ih.cons a

theorem get?_mark (t : Table Label Key) :
    (mark l k t).get? m = if m = l ∧ l ≠ .empty then some k else t.get? m := by
  by_cases h : l = .empty
  · simp [mark, h]
  · simp [mark, h, Table.get?_put_if]

theorem get?_unmark (t : Table Label Key) :
    (unmark l t).get? m = if m = l ∧ l ≠ .empty then none else t.get? m := by
  by_cases h : l = .empty
  · simp [unmark, h]
  · simp [unmark, h, Table.get?_erase_if]

theorem field?_insert (order : List Key) :
    (c.insert k f order).field? j = if j = k then some f else c.field? j :=
  Table.get?_put_if ..

theorem field?_assign (v : Value) :
    (c.assign k f v).field? j = if j = k then some { f with value := v } else c.field? j :=
  Table.get?_put_if ..

theorem field?_rename :
    (c.rename k f l).field? j = if j = k then some { f with label := l } else c.field? j :=
  Table.get?_put_if ..

theorem field?_remove : (c.remove k f).field? j = if j = k then none else c.field? j :=
  Table.get?_erase_if ..

theorem key?_insert (order : List Key) :
    (c.insert k f order).key? m =
      if m = f.label ∧ f.label ≠ .empty then some k else c.key? m :=
  get?_mark ..

theorem key?_assign (v : Value) : (c.assign k f v).key? m = c.key? m := rfl

theorem key?_rename :
    (c.rename k f l).key? m =
      if m = l ∧ l ≠ .empty then some k
      else if m = f.label ∧ f.label ≠ .empty then none else c.key? m :=
  (get?_mark ..).trans (by rw [get?_unmark]; rfl)

theorem key?_remove :
    (c.remove k f).key? m = if m = f.label ∧ f.label ≠ .empty then none else c.key? m :=
  get?_unmark ..

end Laws

end Container

end LiveRecords
