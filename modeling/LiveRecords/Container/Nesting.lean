import LiveRecords.Space

/-! # Nesting

A key is looked up through every depth of nesting, a label in one container only. No container
ever lies inside itself, so a search as deep as there are containers misses nothing.
-/

namespace LiveRecords

namespace Space

/-- No chain of containers, each nested in the one before, is longer. -/
def nestingBound (s : Space) : Nat := s.containers.size

def locateWithin (s : Space) (k : Key) : Nat → Container → Option (List ContainerId)
  | 0, c => if c.holds k then some [] else none
  | d + 1, c =>
    if c.holds k then some []
    else c.nested.findSome? fun id => (locateWithin s k d (s.container id)).map (id :: ·)

/-- The containers on the way from `c` down to the one that holds a key. -/
def locate (s : Space) (c : Container) (k : Key) : Option (List ContainerId) :=
  s.locateWithin k s.nestingBound c

/-- The container at the end of a way down from `c`. -/
def along (s : Space) (c : Container) (path : List ContainerId) : Container :=
  (path.getLast?.map s.container).getD c

/-- The field of a key, in `c` or nested in it. -/
def field? (s : Space) (c : Container) (k : Key) : Option Field :=
  (s.locate c k).bind fun path => (s.along c path).field? k

def field (s : Space) (c : Container) (k : Key) : Except Fault Field :=
  match s.field? c k with
  | some f => .ok f
  | none => .error (.notFound (.key k))

def value (s : Space) (c : Container) : Place → Except Fault Value
  | .key k => (s.field c k).map (·.value)
  | .label l =>
    match c.key? l with
    | none => .error (.notFound (.label l))
    | some k =>
      match c.field? k with
      | some f => .ok f.value
      | none => .error (.notFound (.key k))

def contains (s : Space) (c : Container) : Place → Bool
  | .key k => (s.locate c k).isSome
  | .label l => c.hasLabel l

def reachesWithin (s : Space) (goals : List ContainerId) : Nat → ContainerId → Bool
  | 0, id => goals.contains id
  | d + 1, id =>
    goals.contains id || (s.container id).nested.any (reachesWithin s goals d)

/-- Whether one of `goals` is the container `id` or nested in it. -/
def reaches (s : Space) (goals : List ContainerId) (id : ContainerId) : Bool :=
  s.reachesWithin goals s.nestingBound id

/-- Whether a value is one of the containers `opened` or has one of them nested in it. -/
def nests (s : Space) (opened : List ContainerId) : Value → Bool
  | .tree id => s.reaches opened id
  | _ => false

def flattenWithin (s : Space) : Nat → Container → List (Key × Field)
  | 0, c => c.entries.filter fun e => e.2.value.tree?.isNone
  | d + 1, c => c.entries.flatMap fun e =>
    match e.2.value with
    | .tree id => flattenWithin s d (s.container id)
    | _ => [e]

/-- The fields of `c` in order, those of a nested container in place of the field that holds
it. -/
def flatten (s : Space) (c : Container) : List (Key × Field) :=
  s.flattenWithin s.nestingBound c

section Laws

variable (s : Space) (k : Key) (v : Value) {c : Container}

theorem locate_of_holds (h : c.holds k = true) : s.locate c k = some [] := by
  unfold locate
  cases s.nestingBound <;> simp [locateWithin, h]

theorem locate_ne_nil (h : c.holds k = false) : s.locate c k ≠ some [] := by
  unfold locate
  cases s.nestingBound with
  | zero => simp [locateWithin, h]
  | succ d =>
    simp only [locateWithin, h]
    intro hp
    obtain ⟨_, i, _, -, hi, -⟩ := List.findSome?_eq_some_iff.mp hp
    cases hl : s.locateWithin k d (s.container i) <;> simp [hl] at hi

theorem nests_nil : s.nests [] v = false := by
  have key : ∀ d i, s.reachesWithin [] d i = false := by
    intro d
    induction d with
    | zero => exact fun _ => rfl
    | succ d ih => simp [reachesWithin, funext ih]
  cases v with
  | tree i => exact key s.nestingBound i
  | _ => rfl

end Laws

end Space

/-- The key of a label in use. -/
def Container.key (c : Container) (l : Label) : Except Fault Key :=
  match c.key? l with
  | some k => .ok k
  | none => .error (.notFound (.label l))

end LiveRecords
