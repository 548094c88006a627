import LiveRecords.Proofs.Index
import LiveRecords.Proofs.Tables

/-! # The index tells the last updates

Whatever an index goes through, a plain table of the last update of every field tells what it
answers. Nothing empty is left in the postings, and an entry that is taken back is always there.
-/

namespace LiveRecords

/-- What an index goes through. -/
inductive IndexOp where
  | update (name : String) (k : Key) (l : Label) (v : Value)
  | apply (cs : Changeset)
  | forget (name : String)

namespace Postings

/-- Labels ascend, and no label and no form is kept without an entry. -/
structure Pruned (p : Postings) : Prop where
  ascending : p.Ascending
  forms : p.Each fun forms => forms.isEmpty = false
  sites : p.Each fun forms => forms.Each fun sites => sites.isEmpty = false

theorem pruned_empty : Pruned ∅ where
  ascending := Table.ascending_empty
  forms := Table.each_empty _
  sites := Table.each_empty _

variable {p : Postings} (h : p.Pruned) (site : Site) (l : Label) (v : Value)
include h

theorem Pruned.link : (Index.link p site l v).Pruned := by
  have hforms : ((p.get? l).getD ∅).Each fun sites => sites.isEmpty = false := by
    cases hl : p.get? l with
    | none => exact Table.each_empty _
    | some forms => exact h.sites.of_get? hl
  exact
    { ascending := h.ascending.put l _
      forms := h.forms.put l (Table.isEmpty_put _ v _)
      sites := h.sites.put l (hforms.put v (Table.isEmpty_put _ site ())) }

theorem Pruned.putNonempty {forms : Table Value (Table Site Unit)}
    (hforms : forms.Each fun sites => sites.isEmpty = false) :
    Pruned (if forms.isEmpty then p.erase l else p.put l forms) := by
  split
  · exact ⟨h.ascending.erase l, h.forms.erase l, h.sites.erase l⟩
  · rename_i he
    rw [Bool.not_eq_true] at he
    exact ⟨h.ascending.put l _, h.forms.put l he, h.sites.put l hforms⟩

theorem Pruned.unlink : (Index.unlink p site l v).2.Pruned := by
  cases hl : p.get? l with
  | none =>
    simp only [Index.unlink, hl]
    exact h
  | some forms =>
    have hforms := h.sites.of_get? hl
    cases hv : forms.get? v with
    | none =>
      simp only [Index.unlink, hl, hv]
      exact h.putNonempty l hforms
    | some entered =>
      simp only [Index.unlink, hl, hv]
      refine h.putNonempty l ?_
      split
      · exact hforms.erase v
      · rename_i he
        rw [Bool.not_eq_true] at he
        exact hforms.put v he

omit h in
theorem unlink_fst : (Index.unlink p site l v).1 = (p.sites l v).contains site := by
  unfold Index.unlink sites Table.row
  cases hl : p.get? l with
  | none => rfl
  | some forms =>
    simp only [Option.getD_some]
    cases forms.get? v <;> rfl

/-- What is kept under a label has a site. -/
theorem Pruned.mem_keys_iff : l ∈ p.keys ↔ ∃ v site, site ∈ (p.sites l v).keys := by
  rw [Table.mem_keys_iff]
  constructor
  · rintro ⟨forms, hl⟩
    obtain ⟨⟨v, _⟩, hv⟩ := List.isEmpty_eq_false_iff_exists_mem.mp (h.forms.of_get? hl)
    obtain ⟨entered, hv⟩ := Table.exists_get?_of_mem hv
    have hne := (h.sites.of_get? hl).of_get? hv
    obtain ⟨⟨site, _⟩, hsite⟩ := List.isEmpty_eq_false_iff_exists_mem.mp hne
    refine ⟨v, site, ?_⟩
    rw [Postings.sites, Table.row_of_get? hl, Table.row_of_get? hv]
    exact List.mem_map_of_mem hsite
  · rintro ⟨v, site, hsite⟩
    cases hl : p.get? l with
    | none =>
      rw [Postings.sites, Table.row_of_get?_none hl] at hsite
      cases hsite
    | some forms => exact ⟨forms, rfl⟩

end Postings

namespace Index

/-- Sites ascend, and nothing empty is kept. -/
structure Pruned (ix : Index) : Prop where
  current : ix.current.Ascending
  postings : ix.postings.Pruned

namespace Pruned

variable {ix : Index} (h : ix.Pruned)
include h

theorem retract (site : Site) : (ix.retract site).Pruned := by
  unfold Index.retract
  split
  · exact h
  · exact ⟨h.current.erase site, h.postings.unlink site _ _⟩

theorem update (name : String) (k : Key) (l : Label) (v : Value) :
    (ix.update name k l v).Pruned := by
  have hr := h.retract ⟨name, k⟩
  unfold Index.update
  split
  · dsimp only
    split
    · exact hr
    · exact ⟨hr.current.put _ _, hr.postings.link _ _ _⟩
  · exact hr

theorem apply (cs : Changeset) : (ix.apply cs).Pruned :=
  List.foldlRecOn cs.entries _ h fun _ h e _ =>
    List.foldlRecOn e.2.entries _ h fun _ h f _ => h.update e.1 f.1 _ _

theorem forget (name : String) : (ix.forget name).Pruned :=
  List.foldlRecOn _ _ h fun _ h site _ => h.retract site

end Pruned

theorem lookup_ascending (ix : Index) (l : Label) (v : Value) :
    (ix.lookup l v).Pairwise fun m n => compare m n = .lt := by
  cases hv : v.indexForm with
  | none =>
    simp only [lookup, hv]
    exact .nil
  | some form =>
    rw [ix.lookup_eq l hv]
    exact (Table.ascending_ofList _).keys

/-- What is found depends on what is entered for each site, and on nothing else. -/
theorem answers_eq {ix other : Index} (h : ix.WellKept) (hp : ix.Pruned) (ho : other.WellKept)
    (hop : other.Pruned) (hc : ∀ site, ix.current.get? site = other.current.get? site) :
    (∀ l v, ix.lookup l v = other.lookup l v) ∧ ix.size = other.size ∧
      ix.labels = other.labels := by
  refine ⟨fun l v => ?_, ?_, ?_⟩
  · refine eq_of_ascending compare (ix.lookup_ascending l v) (other.lookup_ascending l v)
      fun name => ?_
    rw [h.mem_lookup_iff, ho.mem_lookup_iff]
    simp only [hc]
  · rw [size, hp.current.ext hop.current hc, size]
  · refine eq_of_ascending compare hp.postings.ascending.keys hop.postings.ascending.keys
      fun l => ?_
    rw [labels, labels, hp.postings.mem_keys_iff, hop.postings.mem_keys_iff]
    simp only [h.mem_sites, ho.mem_sites, hc]

/-- An index is what a table of last updates makes it. -/
structure Mirrors (ix : Index) (m : Table Site Field) : Prop where
  wellKept : ix.WellKept
  pruned : ix.Pruned
  ascending : m.Ascending
  current : ∀ site, ix.current.get? site = (m.get? site).bind Field.entry?

theorem mirrors_empty : Mirrors {} ∅ where
  wellKept := wellKept_empty
  pruned := ⟨Table.ascending_empty, Postings.pruned_empty⟩
  ascending := Table.ascending_empty
  current _ := rfl

namespace Mirrors

variable {ix : Index} {m : Table Site Field} (h : ix.Mirrors m)
include h

theorem update (name : String) (k : Key) (l : Label) (v : Value) :
    (ix.update name k l v).Mirrors (m.put ⟨name, k⟩ ⟨l, v⟩) where
  wellKept := h.wellKept.update name k l v
  pruned := h.pruned.update name k l v
  ascending := h.ascending.put _ _
  current site := by
    rw [update_current, Table.get?_put_if, h.current]
    split <;> rfl

theorem apply (cs : Changeset) : (ix.apply cs).Mirrors (cs.entries.foldl (fun m (name, c) =>
    c.entries.foldl (fun m (k, f) => m.put ⟨name, k⟩ f) m) m) :=
  List.foldl_rel h fun e _ _ _ h => List.foldl_rel h fun f _ _ _ h => h.update e.1 f.1 _ _

theorem forget (name : String) :
    (ix.forget name).Mirrors (m.filter fun site _ => site.name ≠ name) where
  wellKept := h.wellKept.forget name
  pruned := h.pruned.forget name
  ascending := h.ascending.filter _
  current site := by
    rw [forget_current, h.ascending.get?_filter, h.current]
    by_cases hn : site.name = name
    · cases m.get? site <;> simp [hn]
    · cases m.get? site <;> simp [Option.filter, hn]

theorem mem_lookup_iff {l : Label} {v : Value} {name : String} :
    name ∈ ix.lookup l v ↔ ∃ k w form, m.get? ⟨name, k⟩ = some ⟨l, w⟩ ∧ l ≠ .empty ∧
      w.indexForm = some form ∧ v.indexForm = some form := by
  rw [h.wellKept.mem_lookup_iff]
  simp only [h.current, Option.bind_eq_some_iff]
  constructor
  · rintro ⟨k, form, hv, ⟨m, w⟩, hk, he⟩
    obtain ⟨hl, rfl, hw⟩ := Field.entry?_eq_some.mp he
    exact ⟨k, w, form, hk, hl, hw, hv⟩
  · rintro ⟨k, w, form, hk, hl, hw, hv⟩
    exact ⟨k, form, hv, ⟨l, w⟩, hk, Field.entry?_eq_some.mpr ⟨hl, rfl, hw⟩⟩

theorem mem_labels_iff {l : Label} :
    l ∈ ix.labels ↔ ∃ site w, m.get? site = some ⟨l, w⟩ ∧ l ≠ .empty ∧ w.indexForm.isSome := by
  unfold labels
  simp only [h.pruned.postings.mem_keys_iff, h.wellKept.mem_sites, h.current,
    Option.bind_eq_some_iff]
  constructor
  · rintro ⟨v, site, form, ⟨⟨m, w⟩, hs, he⟩, -⟩
    obtain ⟨hl, rfl, hw⟩ := Field.entry?_eq_some.mp he
    exact ⟨site, w, hs, hl, Option.isSome_of_eq_some hw⟩
  · rintro ⟨site, w, hs, hl, hw⟩
    obtain ⟨form, hw⟩ := Option.isSome_iff_exists.mp hw
    exact ⟨form, site, form, ⟨⟨l, w⟩, hs, Field.entry?_eq_some.mpr ⟨hl, rfl, hw⟩⟩,
      Std.ReflCmp.compare_self⟩

theorem size_eq :
    ix.size = (m.filter fun _ f => !f.label.isEmpty && f.value.indexForm.isSome).size := by
  have hkeys : ix.current.keys =
      (m.filter fun _ f => !f.label.isEmpty && f.value.indexForm.isSome).keys := by
    refine eq_of_ascending compare h.pruned.current.keys (h.ascending.filter _).keys fun site => ?_
    rw [Table.mem_keys_iff, Table.mem_keys_iff, h.ascending.get?_filter, h.current]
    cases m.get? site with
    | none => simp
    | some f => cases hl : f.label.isEmpty <;> cases hv : f.value.indexForm <;>
        simp [Field.entry?, hl, hv]
  have hlength := congrArg List.length hkeys
  rwa [Table.keys, List.length_map, Table.keys, List.length_map] at hlength

end Mirrors

/-- Whether the entry that a site is taken back from is there. -/
def takes (ix : Index) (site : Site) : List Bool :=
  (ix.current.get? site).toList.map fun (l, v) => (unlink ix.postings site l v).1

theorem WellKept.takes {ix : Index} (h : ix.WellKept) (site : Site) :
    ∀ found ∈ ix.takes site, found = true := by
  intro found hfound
  obtain ⟨⟨l, form⟩, hs, rfl⟩ := List.mem_map.mp hfound
  have hmem : site ∈ (ix.postings.sites l form).keys :=
    (h.mem_sites l form site).mpr ⟨form, Option.mem_toList.mp hs, Std.ReflCmp.compare_self⟩
  obtain ⟨_, hget⟩ := Table.mem_keys_iff.mp hmem
  change (unlink ix.postings site l form).1 = true
  rw [Postings.unlink_fst, Table.contains, hget]
  rfl

/-- What is told on the way through a list, each step setting out from where the last one led. -/
def trail {α : Type} (step : Index → α → Index) (told : Index → α → List Bool) :
    Index → List α → List Bool
  | _, [] => []
  | ix, a :: as => told ix a ++ trail step told (step ix a) as

theorem forall_mem_trail {α : Type} {step : Index → α → Index} {told : Index → α → List Bool}
    (hs : ∀ ix a, ix.WellKept → (step ix a).WellKept)
    (ht : ∀ ix a, ix.WellKept → ∀ found ∈ told ix a, found = true) {ix : Index}
    (h : ix.WellKept) (as : List α) : ∀ found ∈ trail step told ix as, found = true := by
  induction as generalizing ix with
  | nil => exact fun _ hf => nomatch hf
  | cons a as ih =>
    intro found hf
    rcases List.mem_append.mp hf with hf | hf
    · exact ht ix a h found hf
    · exact ih (hs ix a h) found hf

end Index

namespace IndexOp

def run (ix : Index) : IndexOp → Index
  | update name k l v => ix.update name k l v
  | apply cs => ix.apply cs
  | forget name => ix.forget name

/-- Keep the last update of every field that has not been forgotten since. -/
def register (m : Table Site Field) : IndexOp → Table Site Field
  | update name k l v => m.put ⟨name, k⟩ ⟨l, v⟩
  | apply cs =>
    cs.entries.foldl (fun m (name, c) => c.entries.foldl (fun m (k, f) => m.put ⟨name, k⟩ f) m) m
  | forget name => m.filter fun site _ => site.name ≠ name

/-- Whether the entries taken back are there, one after the other. -/
def takes (ix : Index) : IndexOp → List Bool
  | update name k _ _ => ix.takes ⟨name, k⟩
  | apply cs =>
    Index.trail
      (fun ix (name, c) => c.entries.foldl (fun ix (k, f) => ix.update name k f.label f.value) ix)
      (fun ix (name, c) =>
        Index.trail (fun ix (k, f) => ix.update name k f.label f.value)
          (fun ix (k, _) => ix.takes ⟨name, k⟩) ix c.entries)
      ix cs.entries
  | forget name =>
    Index.trail Index.retract Index.takes ix (ix.current.keys.filter (·.name = name))

theorem mirrors {ix : Index} {m : Table Site Field} (h : ix.Mirrors m) (op : IndexOp) :
    (op.run ix).Mirrors (op.register m) := by
  cases op with
  | update name k l v => exact h.update name k l v
  | apply cs => exact h.apply cs
  | forget name => exact h.forget name

theorem wellKept_run {ix : Index} (h : ix.WellKept) (op : IndexOp) : (op.run ix).WellKept := by
  cases op with
  | update name k l v => exact h.update name k l v
  | apply cs => exact h.apply cs
  | forget name => exact h.forget name

theorem forall_mem_takes {ix : Index} (h : ix.WellKept) (op : IndexOp) :
    ∀ found ∈ op.takes ix, found = true := by
  cases op with
  | update name k l v => exact h.takes ⟨name, k⟩
  | apply cs =>
    refine Index.forall_mem_trail (fun ix e h => ?_) (fun ix e h => ?_) h cs.entries
    · exact List.foldlRecOn e.2.entries _ h fun _ h _ _ => h.update ..
    · exact Index.forall_mem_trail (fun _ _ h => h.update ..) (fun _ _ h => h.takes _) h e.2.entries
  | forget name =>
    exact Index.forall_mem_trail (fun _ _ h => h.retract _) (fun _ _ h => h.takes _) h _

end IndexOp

namespace Index

/-- The index after a run. -/
def after (ops : List IndexOp) : Index := ops.foldl IndexOp.run {}

/-- The last update of every field, after a run. -/
def registered (ops : List IndexOp) : Table Site Field := ops.foldl IndexOp.register ∅

theorem mirrors_after (ops : List IndexOp) : (after ops).Mirrors (registered ops) :=
  List.foldl_rel mirrors_empty fun op _ _ _ h => op.mirrors h

/-- After any run a lookup answers with the names of the records that have a field last updated to
the label and, up to its index form, the value looked for. The index holds as many entries as there
are fields with a label and an index form, and its labels are those of such fields. No label and no
form is kept without an entry, and whatever entry was taken back in the run was there. -/
theorem tells_registered (ops : List IndexOp) :
    (∀ l v, ((after ops).lookup l v).Nodup ∧ ∀ name, name ∈ (after ops).lookup l v ↔
      ∃ k w form, (registered ops).get? ⟨name, k⟩ = some ⟨l, w⟩ ∧ l ≠ .empty ∧
        w.indexForm = some form ∧ v.indexForm = some form) ∧
    (after ops).size = ((registered ops).filter fun _ f =>
      !f.label.isEmpty && f.value.indexForm.isSome).size ∧
    (after ops).labels.Nodup ∧
    (∀ l, l ∈ (after ops).labels ↔
      ∃ site w, (registered ops).get? site = some ⟨l, w⟩ ∧ l ≠ .empty ∧ w.indexForm.isSome) ∧
    (∀ forms ∈ (after ops).postings.values, forms.isEmpty = false ∧
      ∀ sites ∈ forms.values, sites.isEmpty = false) ∧
    ∀ found ∈ trail IndexOp.run IndexOp.takes {} ops, found = true := by
  have h := mirrors_after ops
  have hnodup : ∀ l v, ((after ops).lookup l v).Nodup := fun l v =>
    ((after ops).lookup_ascending l v).imp fun hlt he => by simp [he] at hlt
  refine ⟨fun l v => ⟨hnodup l v, fun _ => h.mem_lookup_iff⟩, h.size_eq,
    h.pruned.postings.ascending.nodup_keys, fun _ => h.mem_labels_iff, ?_,
    forall_mem_trail (fun _ op h => op.wellKept_run h) (fun _ op h => op.forall_mem_takes h)
      wellKept_empty ops⟩
  intro forms hforms
  obtain ⟨e, he, rfl⟩ := List.mem_map.mp hforms
  refine ⟨h.pruned.postings.forms e he, fun sites hsites => ?_⟩
  obtain ⟨f, hf, rfl⟩ := List.mem_map.mp hsites
  exact h.pruned.postings.sites e he f hf

end Index

end LiveRecords
