import LiveRecords.Changeset
import LiveRecords.Value.IndexForm

/-! # The value index

Which records hold a value under a label, as of the last commit. Beside the postings, kept by
label and index form, the index remembers under what each field is entered, so that a later
change of the field can take the entry back. No label and no form is kept without an entry.
-/

namespace LiveRecords

/-- A field of a named record. -/
structure Site where
  name : String
  key : Key
deriving DecidableEq, Inhabited

instance : Ord Site := ⟨fun a b => (compare a.name b.name).then (compare a.key b.key)⟩

instance : Std.TransOrd Site :=
  inferInstanceAs (Std.TransCmp (compareLex (compareOn Site.name) (compareOn Site.key)))

instance : Std.LawfulEqOrd Site where
  eq_of_compare {a b} h := by
    obtain ⟨hname, hkey⟩ := Ordering.then_eq_eq.mp h
    have hn : a.name = b.name := Std.LawfulEqCmp.eq_of_compare hname
    have hk : a.key = b.key := Std.LawfulEqCmp.eq_of_compare hkey
    cases a
    cases b
    congr

/-- The sites of the fields with one label and index form. -/
abbrev Postings := Table Label (Table Value (Table Site Unit))

structure Index where
  postings : Postings := ∅
  current : Table Site (Label × Value) := ∅
deriving Inhabited

namespace Index

def link (p : Postings) (site : Site) (l : Label) (v : Value) : Postings :=
  let forms := (p.get? l).getD ∅
  let sites := (forms.get? v).getD ∅
  p.put l (forms.put v (sites.put site ()))

/-- Take an entry back, with what it leaves empty. Tells whether it was there. -/
def unlink (p : Postings) (site : Site) (l : Label) (v : Value) : Bool × Postings :=
  match p.get? l with
  | none => (false, p)
  | some forms =>
    let (found, forms) : Bool × Table Value (Table Site Unit) :=
      match forms.get? v with
      | none => (false, forms)
      | some sites =>
        let left := sites.erase site
        (sites.contains site, if left.isEmpty then forms.erase v else forms.put v left)
    (found, if forms.isEmpty then p.erase l else p.put l forms)

/-- Take back whatever a field is entered under. -/
def retract (ix : Index) (site : Site) : Index :=
  match ix.current.get? site with
  | none => ix
  | some (l, v) =>
    { postings := (unlink ix.postings site l v).2, current := ix.current.erase site }

/-- Enter what a field was committed as. Without a label or an index form it has no entry. -/
def update (ix : Index) (name : String) (k : Key) (l : Label) (v : Value) : Index :=
  let site : Site := ⟨name, k⟩
  let ix := ix.retract site
  match v.indexForm with
  | some form =>
    if l.isEmpty then ix
    else
      { postings := link ix.postings site l form, current := ix.current.put site (l, form) }
  | none => ix

def apply (ix : Index) (cs : Changeset) : Index :=
  cs.entries.foldl (fun ix (name, c) =>
    c.entries.foldl (fun ix (k, f) => ix.update name k f.label f.value) ix) ix

/-- Take back all entries of a record. -/
def forget (ix : Index) (name : String) : Index :=
  (ix.current.keys.filter (·.name = name)).foldl retract ix

/-- The names of the records with this value under this label, in order, each once. -/
def lookup (ix : Index) (l : Label) (v : Value) : List String :=
  match v.indexForm with
  | none => []
  | some form =>
    match (ix.postings.get? l).bind (·.get? form) with
    | some sites => (Table.ofList (sites.keys.map fun site => (site.name, ()))).keys
    | none => []

def labels (ix : Index) : List Label := ix.postings.keys

def size (ix : Index) : Nat := ix.current.size

end Index

end LiveRecords
