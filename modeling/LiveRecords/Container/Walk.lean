import LiveRecords.Container.Nesting

/-! # Walks

A walk visits the fields of a container in order, going into nested containers instead of
visiting the fields that hold them. It keeps positions only: between two visits the nested
containers may change, and the walk goes on with what they hold then.
-/

namespace LiveRecords

/-- A nested container the walk is in, and how many of its fields lie behind. -/
structure Frame where
  id : ContainerId
  position : Nat
deriving DecidableEq, Inhabited

/-- The innermost frame comes first. -/
structure Walk where
  root : Holder
  position : Nat := 0
  frames : List Frame := []
deriving Inhabited

namespace Walk

/-- The first field to visit among `keys`, the keys of `c` from a position on. Answers with it
the position after it in `c` and the frames opened below. -/
def seek (enter : ContainerId → Option ((Key × Field) × List Frame)) (c : Container) :
    Nat → List Key → Option ((Key × Field) × Nat × List Frame)
  | _, [] => none
  | p, k :: ks =>
    match c.field? k with
    | none => none
    | some ⟨_, .tree id⟩ =>
      match enter id with
      | some (item, frames) => some (item, p + 1, frames)
      | none => seek enter c (p + 1) ks
    | some f => some ((k, f), p + 1, [])

/-- The first field to visit in a nested container. -/
def enter (s : Space) : Nat → ContainerId → Option ((Key × Field) × List Frame)
  | 0, _ => none
  | d + 1, id =>
    let c := s.container id
    (seek (enter s d) c 0 c.order).map fun (item, p, frames) => (item, frames ++ [⟨id, p⟩])

def seekFrom (s : Space) (c : Container) (p : Nat) :
    Option ((Key × Field) × Nat × List Frame) :=
  seek (enter s s.nestingBound) c p (c.order.drop p)

/-- Go on in the innermost frame that still has a field to visit. -/
def resume (s : Space) : List Frame → Option ((Key × Field) × List Frame)
  | [] => none
  | ⟨id, p⟩ :: rest =>
    match seekFrom s (s.container id) p with
    | some (item, p', frames) => some (item, frames ++ ⟨id, p'⟩ :: rest)
    | none => resume s rest

/-- The next field, or `none` once all have been visited. -/
def next (s : Space) (w : Walk) : Option (Key × Field) × Walk :=
  match resume s w.frames with
  | some (item, frames) => (some item, { w with frames })
  | none =>
    let c := s.contents w.root
    match seekFrom s c w.position with
    | some (item, position, frames) => (some item, { w with position, frames })
    | none => (none, { w with position := c.order.length, frames := [] })

/-- Up to `n` fields, ending in `none` if there are fewer. -/
def take (w : Walk) (s : Space) : Nat → List (Option (Key × Field)) × Walk
  | 0 => ([], w)
  | n + 1 =>
    match next s w with
    | (none, w) => ([none], w)
    | (some item, w) =>
      let (items, w) := take w s n
      (some item :: items, w)

/-- All fields that a walk below `g` visits: no more than there are in the flattened contents. -/
def fields (s : Space) (g : Holder) : List (Key × Field) :=
  (take { root := g } s (s.flatten (s.contents g)).length).1.filterMap id

end Walk

namespace Space

def treeKeys (s : Space) (g : Holder) : List Key := (Walk.fields s g).map (·.1)

def treeLabels (s : Space) (g : Holder) : List Label := (Walk.fields s g).map (·.2.label)

def treeValues (s : Space) (g : Holder) : List Value := (Walk.fields s g).map (·.2.value)

def treeFields (s : Space) (g : Holder) : List (Label × Value) :=
  (Walk.fields s g).map fun e => (e.2.label, e.2.value)

end Space

end LiveRecords
