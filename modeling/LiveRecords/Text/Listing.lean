import LiveRecords.Container.Nesting
import LiveRecords.Number.Written
import LiveRecords.Text.Quoted

/-! # Listings

How values, formulas, cells, containers and records are written out. What lies behind a handle
is written in place of the handle. A container may come to lie in itself by way of lists, sets
and the constants of formulas; then writing it out never ends, and it has no text.
-/

namespace LiveRecords

/-- What a value may point at and is written out in its place. -/
inductive Handle where
  | tree (id : ContainerId)
  | cell (c : Cell)

/-- How handles are written, as far as writing them comes to an end. -/
abbrev Listing := Handle → Option String

namespace Listing

def joined (left : String) (parts : List String) (right : String) : String :=
  left ++ ", ".intercalate parts ++ right

mutual

def value (w : Listing) : Value → Option String
  | .empty => return "Empty()"
  | .bool b => return toString b
  | .int n => return toString n.toInt
  | .float x => return x.text
  | .text s => return s!"'{s}'"
  | .list vs => return joined "[" (← values w vs) "]"
  | .set vs => return joined "\x7b" (← values w vs) "\x7d"
  | .tree id => w (.tree id)
  | .cell c => w (.cell c)

def values (w : Listing) : List Value → Option (List String)
  | [] => return []
  | v :: vs => return (← value w v) :: (← values w vs)

end

mutual

def formula (w : Listing) : Formula → Option String
  | .mk name _ operands => return joined (name ++ "(") (← operandTexts w operands) ")"

def operand (w : Listing) : Operand → Option String
  | .constant v => w.value v
  | .here l => return s!"local.{l.plain}"
  | .nested f => formula w f
  | .field n => return n.text

def operandTexts (w : Listing) : List Operand → Option (List String)
  | [] => return []
  | a :: as => return (← operand w a) :: (← operandTexts w as)

end

def reaction (w : Listing) (l : Label) (f : Formula) : Option String :=
  return s!"{l.plain} <- {← w.formula f}"

def derived (w : Listing) (d : Derived) : Option String := do
  let getter ← w.formula d.getter
  let reactions ← d.reactions.mapM fun (l, f) => w.reaction l f
  return joined "Derived(" (getter :: reactions) ")"

def field (w : Listing) (f : Field) : Option String :=
  return s!"({f.label.text}, {← w.value f.value})"

def container (w : Listing) (c : Container) : Option String := do
  if c.isEmpty then return "FieldTree"
  return joined "FieldTree(" (← c.entries.mapM fun (_, f) => w.field f) ")"

def entry (w : Listing) (l : Label) (v : Value) : Option String :=
  return s!"{l.plain}: {← w.value v}"

def entries (w : Listing) (fields : List (Label × Value)) : Option String :=
  return joined "Object\x7b" (← fields.mapM fun (l, v) => w.entry l v) "\x7d"

/-- Handles written out if they go no deeper than so. -/
def upTo (s : Space) : Nat → Listing
  | 0, _ => none
  | d + 1, .tree id => container (upTo s d) (s.container id)
  | d + 1, .cell (.derived id) =>
    match s.derived.get? id with
    | some e => derived (upTo s d) e
    | none => return "Derived()"
  | _ + 1, .cell (.reference target l) =>
    let name := if s.alive target then s.displayName target else "<dropped>"
    return s!"Reference({name}, {l.text})"

/-- Handles written out if they can be: what goes deeper than there are handles lies in itself. -/
def ofSpace (s : Space) : Listing := upTo s (s.containers.size + s.derived.size + 1)

end Listing

namespace Space

/-- A value as it reads in a listing. -/
def valueText? (s : Space) (v : Value) : Option String := (Listing.ofSpace s).value v

/-- A value as it reads on its own, text bare. One without a text reads as nothing. -/
def plainText (s : Space) (v : Value) : String :=
  match v with
  | .text t => t
  | v => (s.valueText? v).getD ""

def formulaText? (s : Space) (f : Formula) : Option String := (Listing.ofSpace s).formula f

def operandText? (s : Space) (a : Operand) : Option String := (Listing.ofSpace s).operand a

def containerText? (s : Space) (c : Container) : Option String := (Listing.ofSpace s).container c

/-- Fields that have been read, as a record is rendered. -/
def fieldsText? (s : Space) (fields : List (Label × Value)) : Option String :=
  (Listing.ofSpace s).entries fields

def recordText? (s : Space) (id : RecordId) : Option String := do
  let r := s.record id
  let name := (r.name.map fun n => s!", name: {Quoted.encode n}").getD ""
  return s!"Object \x7b id: {id.number}{name}, fields: {← s.containerText? r.fields} \x7d"

end Space

def RecordName.listing (n : RecordName) : String := s!"ObjectName({n.text})"

def FieldName.listing (n : FieldName) : String := s!"ValueName({n.text})"

end LiveRecords
