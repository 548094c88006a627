import LiveRecords.Index
import LiveRecords.Proofs.Value.IndexForm

/-! # The index mirrors what it was brought

The postings hold a site under a label and a form just when that is what the site is entered
as. So lookups can be told from the entries alone, and every update of the index sets the
entries of the sites it is about.
-/

namespace LiveRecords

/-- What a field is entered as in an index, if it is entered at all. -/
def Field.entry? (f : Field) : Option (Label × Value) :=
  if f.label.isEmpty then none else f.value.indexForm.map fun form => (f.label, form)

theorem Field.entry?_eq_some {f : Field} {l : Label} {form : Value} :
    f.entry? = some (l, form) ↔ l ≠ .empty ∧ f.label = l ∧ f.value.indexForm = some form := by
  unfold entry?
  split
  · rename_i h
    rw [Label.isEmpty_iff] at h
    constructor
    · intro hf
      cases hf
    · rintro ⟨hl, rfl, -⟩
      exact absurd h hl
  · rename_i h
    rw [Label.isEmpty_iff] at h
    rw [Option.map_eq_some_iff]
    constructor
    · rintro ⟨g, hg, he⟩
      cases he
      exact ⟨h, rfl, hg⟩
    · rintro ⟨-, rfl, hform⟩
      exact ⟨form, hform, rfl⟩

theorem Field.entry?_of_empty {f : Field} (h : f.value = .empty) : f.entry? = none := by
  unfold entry?
  rw [h]
  exact ite_self _

namespace Changeset

variable {cs : Changeset} {name : String}

/-- What became of one field. -/
def change? (cs : Changeset) (name : String) (k : Key) : Option Field :=
  (cs.get? name).bind (·.get? k)

/-- Names ascend, and so do the keys of every record. -/
def Ordered (cs : Changeset) : Prop :=
  cs.Ascending ∧ ∀ name c, cs.get? name = some c → c.Ascending

theorem ordered_empty : Changeset.Ordered ∅ :=
  ⟨Table.ascending_empty, fun _ _ hc => by cases hc⟩

theorem get?_of_isEmpty {c : Changes} (h : c.isEmpty = true) (k : Key) : c.get? k = none := by
  obtain ⟨es⟩ := c
  cases List.isEmpty_iff.mp h
  rfl

variable {c : Changes} (hc : c.Ascending)
include hc

theorem change?_insert (cs : Changeset) (name n : String) (k : Key) :
    (cs.insert name c).change? n k =
      if n = name then (c.get? k).or (cs.change? n k) else cs.change? n k := by
  unfold insert
  split
  · rename_i he
    rw [get?_of_isEmpty he]
    split <;> rfl
  · unfold change?
    rw [Table.get?_put_if]
    split
    · rename_i hn
      rw [hn, Option.bind_some, hc.get?_merge]
      cases cs.get? name <;> rfl
    · rfl

omit hc in
theorem Ordered.insert (h : cs.Ordered) (name : String) (c : Changes) :
    (cs.insert name c).Ordered := by
  unfold Changeset.insert
  split
  · exact h
  · refine ⟨h.1.put _ _, fun n d hd => ?_⟩
    rw [Table.get?_put_if] at hd
    split at hd
    · cases hd
      cases hn : cs.get? name with
      | none => exact Table.ascending_empty.merge c
      | some d => exact (h.2 name d hn).merge c
    · exact h.2 n d hd

end Changeset

section Rows

variable {κ μ β : Type} [Ord κ] [Std.TransOrd κ]

/-- The table under a key, empty if there is none. -/
def Table.row (t : Table κ (Table μ β)) (k : κ) : Table μ β := (t.get? k).getD ∅

omit [Std.TransOrd κ] in
theorem Table.row_of_get? {t : Table κ (Table μ β)} {k : κ} {u : Table μ β}
    (h : t.get? k = some u) : t.row k = u := by
  rw [row, h]
  rfl

omit [Std.TransOrd κ] in
theorem Table.row_of_get?_none {t : Table κ (Table μ β)} {k : κ} (h : t.get? k = none) :
    t.row k = ∅ := by
  rw [row, h]
  rfl

theorem Table.eq_empty_of_isEmpty {u : Table μ β} (h : u.isEmpty = true) : u = ∅ := by
  obtain ⟨es⟩ := u
  cases List.isEmpty_iff.mp h
  rfl

theorem Table.row_put (t : Table κ (Table μ β)) (k j : κ) (u : Table μ β) :
    (t.put k u).row j = if compare j k = .eq then u else t.row j := by
  rw [row, get?_put]
  split <;> rfl

theorem Table.row_putNonempty (t : Table κ (Table μ β)) (k j : κ) (u : Table μ β) :
    (if u.isEmpty then t.erase k else t.put k u).row j =
      if compare j k = .eq then u else t.row j := by
  split
  · rename_i hu
    rw [row, get?_erase, eq_empty_of_isEmpty hu]
    split <;> rfl
  · exact t.row_put k j u

theorem Table.row_congr (t : Table κ (Table μ β)) {j k : κ} (h : compare j k = .eq) :
    t.row j = t.row k := by
  rw [row, t.get?_congr h, row]

end Rows

/-- The sites under a label and a form. -/
def Postings.sites (p : Postings) (l : Label) (v : Value) : Table Site Unit := (p.row l).row v

namespace Index

section Postings

variable (p : Postings) (site : Site) (l m : Label) (v w : Value)

theorem sites_link :
    (link p site l v).sites m w =
      if m = l ∧ compare w v = .eq then (p.sites l v).put site () else p.sites m w := by
  change (Table.row (p.put l ((p.row l).put v ((p.sites l v).put site ()))) m).row w = _
  simp only [Table.row_put, Std.LawfulEqCmp.compare_eq_iff_eq]
  by_cases hm : m = l
  · subst hm
    simp only [if_true, true_and, Table.row_put]
    rfl
  · simp only [hm, if_false, false_and]
    rfl

theorem sites_unlink :
    (unlink p site l v).2.sites m w =
      if m = l ∧ compare w v = .eq then (p.sites l v).erase site else p.sites m w := by
  cases hp : p.get? l with
  | none =>
    simp only [unlink, hp]
    split
    · rename_i h
      rw [h.1, Postings.sites, Postings.sites, Table.row_of_get?_none hp]
      rfl
    · rfl
  | some forms =>
    have hl : p.row l = forms := Table.row_of_get? hp
    cases hv : forms.get? v with
    | none =>
      simp only [unlink, hp, hv]
      rw [Postings.sites, Table.row_putNonempty]
      simp only [Std.LawfulEqCmp.compare_eq_iff_eq]
      by_cases hm : m = l
      · subst hm
        simp only [if_true, true_and]
        split
        · rename_i hw
          rw [Postings.sites, hl, Table.row_congr forms hw, Table.row_of_get?_none hv]
          rfl
        · rw [Postings.sites, hl]
      · simp only [hm, if_false, false_and]
        rfl
    | some sites =>
      simp only [unlink, hp, hv]
      rw [Postings.sites, Table.row_putNonempty]
      simp only [Std.LawfulEqCmp.compare_eq_iff_eq]
      by_cases hm : m = l
      · subst hm
        simp only [if_true, true_and]
        rw [Table.row_putNonempty, Postings.sites, Postings.sites, hl, Table.row_of_get? hv]
      · simp only [hm, if_false, false_and]
        rfl

variable {p site l m v w} {i : Site}

theorem sites_congr (hm : m = l) (hw : compare w v = .eq) : p.sites m w = p.sites l v := by
  rw [hm, Postings.sites, Postings.sites, Table.row_congr _ hw]

theorem mem_sites_link :
    i ∈ ((link p site l v).sites m w).keys ↔
      i = site ∧ m = l ∧ compare w v = .eq ∨ i ∈ (p.sites m w).keys := by
  rw [sites_link]
  split
  · rename_i h
    rw [Table.mem_keys_put, sites_congr h.1 h.2]
    simp only [h, and_true]
  · rename_i h
    simp only [h, and_false, false_or]

theorem mem_sites_unlink :
    i ∈ ((unlink p site l v).2.sites m w).keys ↔
      ¬ (i = site ∧ m = l ∧ compare w v = .eq) ∧ i ∈ (p.sites m w).keys := by
  rw [sites_unlink]
  split
  · rename_i h
    rw [Table.mem_keys_erase, sites_congr h.1 h.2]
    simp only [h, and_true, ne_eq]
  · rename_i h
    simp only [h, and_false, not_false_eq_true, true_and]

end Postings

theorem lookup_eq (ix : Index) (l : Label) {v form : Value} (h : v.indexForm = some form) :
    ix.lookup l v =
      (Table.ofList ((ix.postings.sites l form).keys.map fun site => (site.name, ()))).keys := by
  unfold lookup Postings.sites Table.row
  rw [h]
  dsimp only
  cases ix.postings.get? l with
  | none => rfl
  | some forms =>
    simp only [Option.bind_some, Option.getD_some]
    cases forms.get? form <;> rfl

/-- The postings hold the entries, under the forms in which they are entered. -/
structure WellKept (ix : Index) : Prop where
  entered : ∀ site e, ix.current.get? site = some e → ∃ f : Field, f.entry? = some e
  mem_sites : ∀ l v site, site ∈ (ix.postings.sites l v).keys ↔
    ∃ form, ix.current.get? site = some (l, form) ∧ compare v form = .eq

theorem WellKept.mem_lookup_iff {ix : Index} (h : ix.WellKept) {l : Label} {v : Value}
    {name : String} :
    name ∈ ix.lookup l v ↔
      ∃ k form, v.indexForm = some form ∧ ix.current.get? ⟨name, k⟩ = some (l, form) := by
  cases hv : v.indexForm with
  | none => simp [lookup, hv]
  | some form =>
    rw [ix.lookup_eq l hv, Table.mem_keys_ofList]
    simp only [List.map_map, List.mem_map, h.mem_sites]
    constructor
    · rintro ⟨⟨n, k⟩, ⟨g, hg, hcmp⟩, rfl⟩
      obtain ⟨f, hf⟩ := h.entered _ _ hg
      obtain ⟨-, -, hform⟩ := Field.entry?_eq_some.mp hf
      obtain rfl := (Value.compare_indexForms hv hform).mp hcmp
      exact ⟨k, form, rfl, hg⟩
    · rintro ⟨k, g, hfg, hk⟩
      cases hfg
      exact ⟨⟨name, k⟩, ⟨form, hk, Std.ReflCmp.compare_self⟩, rfl⟩

theorem wellKept_empty : Index.WellKept {} where
  entered _ _ h := by cases h
  mem_sites l v site := by
    constructor
    · intro h
      cases h
    · rintro ⟨_, h, -⟩
      cases h

section Updates

variable {ix : Index} (site j : Site)

theorem retract_current :
    (ix.retract site).current.get? j = if j = site then none else ix.current.get? j := by
  unfold retract
  split
  · rename_i h
    split
    · rename_i hj
      rw [hj, h]
    · rfl
  · exact Table.get?_erase_if ..

theorem WellKept.retract (h : ix.WellKept) : (ix.retract site).WellKept := by
  refine ⟨fun i e he => ?_, fun m w i => ?_⟩
  · rw [retract_current] at he
    split at he
    · cases he
    · exact h.entered i e he
  · rw [retract_current]
    cases hs : ix.current.get? site with
    | none =>
      rw [Index.retract, hs, h.mem_sites]
      by_cases hi : i = site
      · rw [if_pos hi, hi, hs]
      · rw [if_neg hi]
    | some e =>
      obtain ⟨l, v⟩ := e
      simp only [Index.retract, hs]
      rw [mem_sites_unlink, h.mem_sites]
      by_cases hi : i = site
      · rw [if_pos hi, hi, hs]
        constructor
        · rintro ⟨hne, form, he, hw⟩
          cases he
          exact absurd ⟨rfl, rfl, hw⟩ hne
        · rintro ⟨form, he, -⟩
          cases he
      · rw [if_neg hi]
        simp only [hi, false_and, not_false_eq_true, true_and]

theorem WellKept.enter (h : ix.WellKept) (hs : ix.current.get? site = none) {l : Label}
    {form : Value} (hf : ∃ f : Field, f.entry? = some (l, form)) :
    WellKept { postings := link ix.postings site l form,
               current := ix.current.put site (l, form) } := by
  refine ⟨fun i e he => ?_, fun m w i => ?_⟩
  · dsimp only at he
    rw [Table.get?_put_if] at he
    split at he
    · cases he
      exact hf
    · exact h.entered i e he
  · dsimp only
    rw [mem_sites_link, h.mem_sites, Table.get?_put_if]
    by_cases hi : i = site
    · rw [if_pos hi, hi, hs]
      constructor
      · rintro (⟨-, rfl, hw⟩ | ⟨g, hg, -⟩)
        · exact ⟨form, rfl, hw⟩
        · cases hg
      · rintro ⟨g, hg, hw⟩
        cases hg
        exact .inl ⟨rfl, rfl, hw⟩
    · simp only [hi, if_false, false_and, false_or]

theorem update_current (name : String) (k : Key) (l : Label) (v : Value) :
    (ix.update name k l v).current.get? j =
      if j = ⟨name, k⟩ then Field.entry? ⟨l, v⟩ else ix.current.get? j := by
  unfold update Field.entry?
  cases hv : v.indexForm with
  | none =>
    dsimp only
    rw [retract_current]
    cases l.isEmpty <;> rfl
  | some form =>
    cases hl : l.isEmpty with
    | true => exact retract_current ..
    | false =>
      dsimp only
      rw [if_neg (by simp), Table.get?_put_if, retract_current]
      split <;> rfl

theorem WellKept.update (h : ix.WellKept) (name : String) (k : Key) (l : Label) (v : Value) :
    (ix.update name k l v).WellKept := by
  have hr := h.retract ⟨name, k⟩
  unfold Index.update
  cases hv : v.indexForm with
  | none => exact hr
  | some form =>
    dsimp only
    split
    · exact hr
    · rename_i hl
      refine hr.enter _ ?_ ⟨⟨l, v⟩, Field.entry?_eq_some.mpr ⟨?_, rfl, hv⟩⟩
      · rw [retract_current, if_pos rfl]
      · rwa [Label.isEmpty_iff] at hl

end Updates

section Forget

variable {ix : Index} (name : String)

theorem forget_current (j : Site) :
    (ix.forget name).current.get? j = if j.name = name then none else ix.current.get? j := by
  have key : ∀ (sites : List Site) (ix : Index),
      (sites.foldl retract ix).current.get? j =
        if j ∈ sites then none else ix.current.get? j := by
    intro sites
    induction sites with
    | nil => simp
    | cons site sites ih =>
      intro ix
      rw [List.foldl_cons, ih, retract_current]
      by_cases hj : j = site <;> simp [hj]
  rw [forget, key]
  by_cases hj : j.name = name
  · rw [if_pos hj]
    split
    · rfl
    · rename_i hmem
      rw [Option.eq_none_iff_forall_ne_some]
      intro e he
      refine hmem (List.mem_filter.mpr ⟨Table.mem_keys_iff.mpr ⟨e, he⟩, ?_⟩)
      exact decide_eq_true hj
  · rw [if_neg hj, if_neg]
    intro hmem
    exact hj (of_decide_eq_true (List.mem_filter.mp hmem).2)

theorem WellKept.forget (h : ix.WellKept) : (ix.forget name).WellKept := by
  unfold Index.forget
  generalize ix.current.keys.filter (·.name = name) = sites
  induction sites generalizing ix with
  | nil => exact h
  | cons site sites ih => exact ih (h.retract site)

end Forget

section Apply

variable {ix : Index}

theorem foldl_update_current {name : String} {es : List (Key × Field)}
    (hes : es.Pairwise fun e f => compare e.1 f.1 = .lt) (j : Site) :
    (es.foldl (fun ix (k, f) => ix.update name k f.label f.value) ix).current.get? j =
      if j.name = name then (Table.lookup j.key es).elim (ix.current.get? j) Field.entry?
      else ix.current.get? j := by
  induction es generalizing ix with
  | nil => exact (ite_self _).symm
  | cons e es ih =>
    obtain ⟨k, f⟩ := e
    obtain ⟨hk, hes⟩ := List.pairwise_cons.mp hes
    rw [List.foldl_cons, ih hes, update_current, Table.lookup]
    by_cases hn : j.name = name
    · simp only [hn, if_true, Std.LawfulEqCmp.compare_eq_iff_eq]
      by_cases hj : j.key = k
      · subst hn hj
        rw [Table.lookup_eq_none hk, if_pos rfl, if_pos rfl]
        rfl
      · rw [if_neg hj, if_neg fun h => hj (congrArg Site.key h)]
    · rw [if_neg hn, if_neg hn, if_neg fun h => hn (congrArg Site.name h)]

theorem foldl_changes_current {es : List (String × Changes)}
    (hes : es.Pairwise fun e f => compare e.1 f.1 = .lt) (hc : ∀ e ∈ es, e.2.Ascending)
    (j : Site) :
    (es.foldl (fun ix (name, c) =>
        c.entries.foldl (fun ix (k, f) => ix.update name k f.label f.value) ix) ix).current.get? j =
      ((Table.lookup j.name es).bind (·.get? j.key)).elim (ix.current.get? j) Field.entry? := by
  induction es generalizing ix with
  | nil => rfl
  | cons e es ih =>
    obtain ⟨name, c⟩ := e
    obtain ⟨hname, hes⟩ := List.pairwise_cons.mp hes
    rw [List.forall_mem_cons] at hc
    rw [List.foldl_cons, ih hes hc.2, foldl_update_current hc.1, Table.lookup]
    simp only [Std.LawfulEqCmp.compare_eq_iff_eq]
    by_cases hn : j.name = name
    · rw [if_pos hn, if_pos hn, hn, Table.lookup_eq_none hname]
      rfl
    · rw [if_neg hn, if_neg hn]

/-- What has changed is entered as it is now, the rest stays as it was. -/
theorem apply_current {cs : Changeset} (hcs : cs.Ordered) (j : Site) :
    (ix.apply cs).current.get? j =
      (cs.change? j.name j.key).elim (ix.current.get? j) Field.entry? :=
  foldl_changes_current hcs.1 (fun _ he => hcs.2 _ _ (hcs.1.mem_entries_iff.mp he)) j

theorem WellKept.apply (h : ix.WellKept) (cs : Changeset) : (ix.apply cs).WellKept := by
  have record : ∀ (es : List (Key × Field)) (name : String) {ix : Index}, ix.WellKept →
      (es.foldl (fun ix (k, f) => ix.update name k f.label f.value) ix).WellKept := by
    intro es name
    induction es with
    | nil => exact fun h => h
    | cons e es ih => exact fun h => ih (h.update name _ _ _)
  unfold Index.apply
  generalize cs.entries = es
  induction es generalizing ix with
  | nil => exact h
  | cons e es ih => exact ih (record e.2.entries e.1 h)

end Apply

end Index

end LiveRecords
