import Mathlib.Data.List.Perm.Subperm
import Mathlib.Logic.Relation
import LiveRecords.Proofs.Tables
import LiveRecords.Text.Listing

/-! # Where writing out ends

What is written out has parts that are written out in their turn: the members of a list, the fields
of a container, the formulas of a derived cell. A part is spelled as its own parts are, to whatever
depth. It has a spelling unless a part comes up in it that comes up in itself again, and then the
listings tell the spelling: handles that do not come up again are soon used up.
-/

namespace LiveRecords

open Relation (ReflTransGen TransGen reflTransGen_iff_eq_or_transGen transGen_swap)

theorem not_transGen_self {α : Type} {r : α → α → Prop} {a : α} (h : Acc (flip r) a) :
    ¬ TransGen r a a := by
  have hacc := h.transGen
  clear h
  induction hacc with
  | intro a _ ih => exact fun ha => ih a (transGen_swap.mpr ha) ha

theorem mapM_eq_some_iff {α : Type} {f : α → Option String} {as : List α} {ts : List String} :
    as.mapM f = some ts ↔ ∃ g : α → String, (∀ a ∈ as, f a = some (g a)) ∧ ts = as.map g := by
  constructor
  · intro h
    refine ⟨fun a => (f a).getD "", ?_⟩
    induction as generalizing ts with
    | nil => simpa [eq_comm] using h
    | cons a as ih =>
      simp only [List.mapM_cons, Option.bind_eq_bind, Option.bind_eq_some_iff, Option.pure_def,
        Option.some.injEq] at h
      obtain ⟨t, ht, ts, hts, rfl⟩ := h
      obtain ⟨hall, rfl⟩ := ih hts
      have hhead : f a = some ((f a).getD "") := by rw [ht, Option.getD_some]
      exact ⟨List.forall_mem_cons.mpr ⟨hhead, hall⟩, by rw [List.map_cons, ht, Option.getD_some]⟩
  · rintro ⟨g, hall, rfl⟩
    induction as with
    | nil => rfl
    | cons a as ih =>
      rw [List.forall_mem_cons] at hall
      rw [List.mapM_cons, hall.1, ih hall.2]
      rfl

/-- What is written out: a value, a formula or an operand of one, a field of a container, a
reaction of a derived cell, a value under its label, or all that a record is rendered as. -/
inductive Part where
  | value (v : Value)
  | formula (f : Formula)
  | operand (a : Operand)
  | field (f : Field)
  | reaction (l : Label) (f : Formula)
  | entry (l : Label) (v : Value)
  | entries (fields : List (Label × Value))

namespace Part

/-- The parts that are written out in a part, in order. -/
def inner (s : Space) : Part → List Part
  | value (.list vs) => vs.map value
  | value (.set vs) => vs.map value
  | value (.tree id) => (s.container id).entries.map fun e => field e.2
  | value (.cell (.derived id)) =>
    match s.derived.get? id with
    | some d => formula d.getter :: d.reactions.map fun r => reaction r.1 r.2
    | none => []
  | value _ => []
  | formula (.mk _ _ operands) => operands.map operand
  | operand (.constant v) => [value v]
  | operand (.nested f) => [formula f]
  | operand _ => []
  | field f => [value f.value]
  | reaction _ f => [formula f]
  | entry _ v => [value v]
  | entries fields => fields.map fun e => entry e.1 e.2

/-- What is written before these parts and after them. -/
def around (s : Space) : Part → String × String
  | value .empty => ("Empty()", "")
  | value (.bool b) => (toString b, "")
  | value (.int n) => (toString n.toInt, "")
  | value (.float x) => (x.text, "")
  | value (.text t) => (s!"'{t}'", "")
  | value (.list _) => ("[", "]")
  | value (.set _) => ("\x7b", "\x7d")
  | value (.tree id) =>
    if (s.container id).isEmpty then ("FieldTree", "") else ("FieldTree(", ")")
  | value (.cell (.derived _)) => ("Derived(", ")")
  | value (.cell (.reference target l)) =>
    let name := if s.alive target then s.displayName target else "<dropped>"
    (s!"Reference({name}, {l.text})", "")
  | formula (.mk name _ _) => (name ++ "(", ")")
  | operand (.here l) => (s!"local.{l.plain}", "")
  | operand (.field n) => (n.text, "")
  | operand _ => ("", "")
  | field f => (s!"({f.label.text}, ", ")")
  | reaction l _ => (s!"{l.plain} <- ", "")
  | entry l _ => (s!"{l.plain}: ", "")
  | entries _ => ("Object\x7b", "\x7d")

/-- The part is a handle: what is written out for it lies elsewhere. -/
def isHandle : Part → Bool
  | value (.tree _) => true
  | value (.cell _) => true
  | _ => false

end Part

namespace Space

/-- The part is spelled so, if `text` tells how what is written out in it is spelled. -/
inductive Spells (s : Space) : Part → String → Prop where
  | mk {p : Part} (text : Part → String) : (∀ q ∈ p.inner s, Spells s q (text q)) →
      Spells s p (Listing.joined (p.around s).1 ((p.inner s).map text) (p.around s).2)

def Mentions (s : Space) (p q : Part) : Prop := q ∈ p.inner s

/-- All that there is to be written out for handles. -/
def handles (s : Space) : List Part :=
  s.containers.keys.map (fun id => .value (.tree id)) ++
    s.derived.keys.map fun id => .value (.cell (.derived id))

/-- The part comes up in each of these handles, which are different ones. -/
structure Within (s : Space) (outer : List Part) (p : Part) : Prop where
  nodup : outer.Nodup
  mem : ∀ h ∈ outer, h ∈ s.handles ∧ TransGen s.Mentions h p

variable {s : Space} {p q : Part} {outer : List Part} {t : String}

section Ending

theorem exists_spells_iff_inner :
    (∃ t, s.Spells p t) ↔ ∀ q, s.Mentions p q → ∃ t, s.Spells q t := by
  constructor
  · rintro ⟨t, ⟨text, h⟩⟩ q hq
    exact ⟨text q, h q hq⟩
  · intro h
    classical
    refine ⟨_, .mk (fun q => if hq : ∃ t, s.Spells q t then hq.choose else "") fun q hq => ?_⟩
    rw [dif_pos (h q hq)]
    exact (h q hq).choose_spec

theorem exists_spells_iff_acc : (∃ t, s.Spells p t) ↔ Acc (flip s.Mentions) p := by
  constructor
  · rintro ⟨t, h⟩
    induction h with
    | mk text _ ih => exact .intro _ ih
  · intro h
    induction h with
    | intro p _ ih => exact exists_spells_iff_inner.mpr ih

theorem Mentions.mem_handles (h : s.Mentions p q) (hp : p.isHandle = true) : p ∈ s.handles := by
  cases p with
  | value v =>
    cases v with
    | tree id =>
      obtain ⟨e, he, -⟩ := List.mem_map.mp h
      refine List.mem_append_left _ (List.mem_map_of_mem (Table.mem_keys_iff.mpr ?_))
      cases hc : s.containers.get? id with
      | some c => exact ⟨c, rfl⟩
      | none =>
        rw [container, hc] at he
        cases he
    | cell c =>
      cases c with
      | derived id =>
        refine List.mem_append_right _ (List.mem_map_of_mem (Table.mem_keys_iff.mpr ?_))
        cases hd : s.derived.get? id with
        | some d => exact ⟨d, rfl⟩
        | none =>
          rw [Mentions, Part.inner, hd] at h
          cases h
      | reference target l => cases h
    | _ => cases hp
  | _ => cases hp

theorem Within.length_le (h : s.Within outer p) : outer.length ≤ s.handles.length :=
  (List.subperm_of_subset h.nodup fun _ hp => (h.mem _ hp).1).length_le

theorem Within.step (h : s.Within outer p) (hm : s.Mentions p q) : s.Within outer q :=
  ⟨h.nodup, fun g hg => ⟨(h.mem g hg).1, (h.mem g hg).2.tail hm⟩⟩

theorem Within.enter (h : s.Within outer p) (hp : p ∈ s.handles) (hn : ¬ TransGen s.Mentions p p)
    (hm : s.Mentions p q) : s.Within (p :: outer) q := by
  refine ⟨List.nodup_cons.mpr ⟨fun hout => hn (h.mem p hout).2, h.nodup⟩, ?_⟩
  rw [List.forall_mem_cons]
  exact ⟨⟨hp, .single hm⟩, (h.step hm).mem⟩

end Ending

end Space

section Listings

open Listing (upTo)

variable {s : Space} {w : Listing} {p q : Part} {t : String} {d : Nat}

/-- How a listing writes a part. -/
def Listing.part (w : Listing) : Part → Option String
  | .value v => w.value v
  | .formula f => w.formula f
  | .operand a => w.operand a
  | .field f => w.field f
  | .reaction l f => w.reaction l f
  | .entry l v => w.entry l v
  | .entries fields => w.entries fields

/-- What there is around a part, with the parts in it as the listing writes them. -/
def Listing.assembled (w : Listing) (s : Space) (p : Part) : Option String :=
  return joined (p.around s).1 (← (p.inner s).mapM w.part) (p.around s).2

theorem assembled_eq_some_iff :
    w.assembled s p = some t ↔ ∃ text : Part → String,
      (∀ q ∈ p.inner s, w.part q = some (text q)) ∧
        t = Listing.joined (p.around s).1 ((p.inner s).map text) (p.around s).2 := by
  simp only [Listing.assembled, Option.bind_eq_bind, Option.bind_eq_some_iff, Option.pure_def,
    Option.some.injEq, mapM_eq_some_iff]
  constructor
  · rintro ⟨ts, ⟨text, h, rfl⟩, rfl⟩
    exact ⟨text, h, rfl⟩
  · rintro ⟨text, h, rfl⟩
    exact ⟨_, ⟨text, h, rfl⟩, rfl⟩

theorem values_eq (w : Listing) (vs : List Value) :
    w.values vs = (vs.map Part.value).mapM w.part := by
  induction vs with
  | nil => rfl
  | cons v vs ih =>
    rw [Listing.values, ih, List.map_cons, List.mapM_cons]
    rfl

theorem operandTexts_eq (w : Listing) (as : List Operand) :
    w.operandTexts as = (as.map Part.operand).mapM w.part := by
  induction as with
  | nil => rfl
  | cons a as ih =>
    rw [Listing.operandTexts, ih, List.map_cons, List.mapM_cons]
    rfl

theorem assembled_of_nil (h : p.inner s = []) :
    w.assembled s p = some ((p.around s).1 ++ (p.around s).2) := by
  simp [Listing.assembled, h, Listing.joined]

theorem assembled_of_singleton (h : p.inner s = [q]) :
    w.assembled s p = w.part q >>= fun t => some ((p.around s).1 ++ t ++ (p.around s).2) := by
  rw [Listing.assembled, h]
  cases hq : w.part q <;> simp [hq, Listing.joined]

theorem part_eq_assembled (s : Space) (w : Listing) (hp : p.isHandle = false) :
    w.part p = w.assembled s p := by
  cases p with
  | value v =>
    cases v with
    | list vs => rw [Listing.part, Listing.value, values_eq]; rfl
    | set vs => rw [Listing.part, Listing.value, values_eq]; rfl
    | tree id => cases hp
    | cell c => cases hp
    | _ =>
      rw [assembled_of_nil rfl]
      simp [Listing.part, Listing.value, Part.around]
  | formula f =>
    cases f with
    | mk name apply operands => rw [Listing.part, Listing.formula, operandTexts_eq]; rfl
  | operand a =>
    cases a with
    | constant v =>
      rw [assembled_of_singleton rfl]
      simp [Listing.part, Listing.operand, Part.around]
    | nested f =>
      rw [assembled_of_singleton rfl]
      simp [Listing.part, Listing.operand, Part.around]
    | _ =>
      rw [assembled_of_nil rfl]
      simp [Listing.part, Listing.operand, Part.around]
  | field f =>
    rw [assembled_of_singleton rfl]
    rfl
  | reaction l f =>
    rw [assembled_of_singleton rfl]
    simp only [Part.around, String.append_empty]
    rfl
  | entry l v =>
    rw [assembled_of_singleton rfl]
    simp only [Part.around, String.append_empty]
    rfl
  | entries fields =>
    rw [Listing.assembled, Part.inner, List.mapM_map]
    rfl

theorem part_upTo_succ (hp : p.isHandle = true) :
    (upTo s (d + 1)).part p = (upTo s d).assembled s p := by
  cases p with
  | value v =>
    cases v with
    | tree id =>
      rw [Listing.part, Listing.value, upTo, Listing.container]
      by_cases he : (s.container id).isEmpty = true
      · have hentries : (s.container id).entries = [] := by
          rw [Container.entries, List.isEmpty_iff.mp he, List.filterMap_nil]
        rw [if_pos he, assembled_of_nil (by rw [Part.inner, hentries, List.map_nil]), Part.around,
          if_pos he]
        rfl
      · rw [if_neg he, Listing.assembled, Part.inner, List.mapM_map, Part.around, if_neg he]
        rfl
    | cell c =>
      cases c with
      | derived id =>
        rw [Listing.part, Listing.value, upTo]
        cases hd : s.derived.get? id with
        | none =>
          rw [assembled_of_nil (by rw [Part.inner, hd])]
          rfl
        | some e =>
          simp only [Listing.assembled, Part.inner, hd, List.mapM_cons, List.mapM_map,
            Listing.derived, Part.around, bind_assoc, pure_bind]
          rfl
      | reference target l =>
        rw [assembled_of_nil rfl]
        simp [Listing.part, Listing.value, upTo, Part.around]
    | _ => cases hp
  | _ => cases hp

/-- What is spelled is written, if there is as much depth as there are handles left. -/
theorem Space.Spells.part (h : s.Spells p t) {outer : List Part} {n : Nat}
    (hw : s.Within outer p) (hn : s.handles.length ≤ n + outer.length) :
    (upTo s (n + 1)).part p = some t := by
  induction h generalizing outer n with
  | @mk p text h ih =>
    cases hp : p.isHandle with
    | false =>
      rw [part_eq_assembled s _ hp, assembled_eq_some_iff]
      exact ⟨text, fun q hq => ih q hq (hw.step hq) hn, rfl⟩
    | true =>
      rw [part_upTo_succ hp, assembled_eq_some_iff]
      refine ⟨text, fun q hq => ?_, rfl⟩
      have hacc : Acc (flip s.Mentions) p := Space.exists_spells_iff_acc.mp ⟨_, .mk text h⟩
      have henter := hw.enter (Space.Mentions.mem_handles hq hp) (not_transGen_self hacc) hq
      have hle := henter.length_le
      rw [List.length_cons] at hle
      obtain ⟨m, rfl⟩ : ∃ m, n = m + 1 := ⟨n - 1, by omega⟩
      exact ih q hq henter (by rw [List.length_cons]; omega)

end Listings

end LiveRecords
