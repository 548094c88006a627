import LiveRecords.Proofs.Container.Lookup
import LiveRecords.Proofs.Container.Mirror

/-! # Flattening

To flatten a list of fields is to put, in place of each field that holds a container, what the
fields of that container flatten to. As no container lies inside itself, this comes to an end, and
flattening as deep as there are containers is flattening deep enough.
-/

namespace LiveRecords

namespace Space

/-- The fields in order, those of a container in place of the field that holds it. -/
inductive Flattens (s : Space) : List (Key × Field) → List (Key × Field) → Prop where
  | nil : Flattens s [] []
  | plain {e es items} : e.2.value.tree? = none → Flattens s es items →
      Flattens s (e :: es) (e :: items)
  | nested {k l i es inner items} : Flattens s (s.container i).entries inner →
      Flattens s es items → Flattens s ((k, ⟨l, .tree i⟩) :: es) (inner ++ items)

/-- A container that has fields lies less than `d` levels below `a`, if it lies there at all. -/
def Bounded (s : Space) (d : Nat) (a : ContainerId) : Prop :=
  ∀ path b, s.Path a path b → b ∈ s.containers.keys → path.length < d

variable {s : Space} {a b : ContainerId} {g : Holder} {d : Nat} {c : Container} {e : Key × Field}
  {es fs items rest : List (Key × Field)}

namespace Flattens

theorem unique (h : s.Flattens es items) (h' : s.Flattens es rest) : items = rest := by
  induction h generalizing rest with
  | nil =>
    cases h'
    rfl
  | plain ht _ ih =>
    cases h' with
    | plain _ hrest => rw [ih hrest]
    | nested => cases ht
  | nested _ _ ihinner ih =>
    cases h' with
    | plain ht => cases ht
    | nested hinner hrest => rw [ihinner hinner, ih hrest]

theorem append (h : s.Flattens es items) (h' : s.Flattens fs rest) :
    s.Flattens (es ++ fs) (items ++ rest) := by
  induction h with
  | nil => exact h'
  | plain ht _ ih => exact .plain ht ih
  | nested hinner _ _ ih =>
    rw [List.append_assoc]
    exact .nested hinner ih

theorem pass (h : s.Flattens es items) (k : Key) (l : Label)
    (ha : s.Flattens (s.container a).entries rest) :
    s.Flattens (es ++ [(k, ⟨l, .tree a⟩)]) (items ++ rest) := by
  have hfield := Flattens.nested (k := k) (l := l) ha .nil
  rw [List.append_nil] at hfield
  exact h.append hfield

theorem tree?_eq_none (h : s.Flattens es items) : ∀ e ∈ items, e.2.value.tree? = none := by
  induction h with
  | nil => exact nofun
  | plain ht _ ih => exact List.forall_mem_cons.mpr ⟨ht, ih⟩
  | nested _ _ ihinner ih => exact List.forall_mem_append.mpr ⟨ihinner, ih⟩

/-- All that is left belongs to a holder that one gets to. -/
theorem leads (h : s.Flattens es items) (hs : s.WellKept)
    (hes : ∀ e ∈ es, (s.contents g).field? e.1 = some e.2) :
    ∀ e ∈ items, ∃ d, s.Leads g d ∧ (s.contents d).field? e.1 = some e.2 := by
  induction h generalizing g with
  | nil => exact nofun
  | plain _ _ ih =>
    rw [List.forall_mem_cons] at hes ⊢
    exact ⟨⟨g, .here, hes.1⟩, ih hes.2⟩
  | @nested k l i _ _ _ _ _ ihinner ih =>
    rw [List.forall_mem_cons] at hes
    refine List.forall_mem_append.mpr ⟨fun e he => ?_, ih hes.2⟩
    obtain ⟨d, hl, hf⟩ := ihinner (g := .shared i)
      (fun _ => (hs.contents (.shared i)).mem_entries_iff.mp) e he
    exact ⟨d, .field hes.1 hl, hf⟩

end Flattens

section Depth

theorem Bounded.of_encloses (h : s.Bounded (d + 1) a) (hab : s.Encloses a b) : s.Bounded d b :=
  fun _ _ hp hb => Nat.lt_of_succ_lt_succ (h _ _ (.cons hab hp) hb)

theorem entries_eq_nil (h : s.Bounded 0 a) : (s.container a).entries = [] := by
  refine List.eq_nil_iff_forall_not_mem.mpr fun ⟨k, f⟩ he => ?_
  have hk := (Container.holds_iff _ k).mpr ⟨f, (Container.mem_entries.mp he).2⟩
  exact Nat.not_lt_zero _ (h _ _ .nil (mem_keys_of_holds hk))

theorem Layered.bounded (hs : s.Layered) (a : ContainerId) : s.Bounded s.nestingBound a :=
  fun _ _ hp hb => hp.length_lt hs.acyclic hb

theorem flattens_filter (hd : ∀ k l i, (k, ⟨l, .tree i⟩) ∈ es → s.Bounded 0 i) :
    s.Flattens es (es.filter fun e => e.2.value.tree?.isNone) := by
  induction es with
  | nil => exact .nil
  | cons e es ih =>
    have hrest := ih fun k l i he => hd k l i (List.mem_cons_of_mem _ he)
    obtain ⟨k, l, v⟩ := e
    cases v with
    | tree i =>
      have hinner : s.Flattens (s.container i).entries [] := by
        rw [entries_eq_nil (hd k l i List.mem_cons_self)]
        exact .nil
      exact .nested hinner hrest
    | _ => exact .plain rfl hrest

theorem flattens_flattenWithin (hd : ∀ k l i, (k, ⟨l, .tree i⟩) ∈ c.entries → s.Bounded d i) :
    s.Flattens c.entries (s.flattenWithin d c) := by
  induction d generalizing c with
  | zero => exact flattens_filter hd
  | succ d ih =>
    rw [flattenWithin]
    generalize c.entries = es at hd ⊢
    induction es with
    | nil => exact .nil
    | cons e es ih' =>
      have hrest := ih' fun k l i he => hd k l i (List.mem_cons_of_mem _ he)
      obtain ⟨k, l, v⟩ := e
      cases v with
      | tree i =>
        have hi := hd k l i List.mem_cons_self
        exact .nested (ih fun j m b hb =>
          hi.of_encloses ⟨j, m, (Container.mem_entries.mp hb).2⟩) hrest
      | _ => exact .plain rfl hrest

end Depth

namespace Layered

variable (hs : s.Layered)
include hs

theorem flattens (c : Container) : s.Flattens c.entries (s.flatten c) :=
  flattens_flattenWithin fun _ _ i _ => hs.bounded i

theorem flattens_iff : s.Flattens c.entries items ↔ s.flatten c = items := by
  constructor
  · exact (hs.flattens c).unique
  · rintro rfl
    exact hs.flattens c

theorem exists_flattens (es : List (Key × Field)) : ∃ items, s.Flattens es items := by
  induction es with
  | nil => exact ⟨[], .nil⟩
  | cons e es ih =>
    obtain ⟨items, hitems⟩ := ih
    obtain ⟨k, l, v⟩ := e
    cases v with
    | tree i => exact ⟨_, .nested (hs.flattens (s.container i)) hitems⟩
    | _ => exact ⟨_, .plain rfl hitems⟩

theorem contains_of_flattens (h : s.Flattens (s.contents g).entries items) (he : e ∈ items) :
    s.contains (s.contents g) (.key e.1) = true := by
  obtain ⟨d, hl, hf⟩ := h.leads hs.wellKept
    (fun _ => (hs.wellKept.contents g).mem_entries_iff.mp) e he
  exact hs.contains_iff.mpr ⟨d, hl, (Container.holds_iff _ _).mpr ⟨_, hf⟩⟩

end Layered

end Space

end LiveRecords
