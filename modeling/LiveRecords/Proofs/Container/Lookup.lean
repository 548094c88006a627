import LiveRecords.Proofs.Container.Storing

/-! # Looking up keys

A key belongs to one holder. From wherever one gets to this holder through fields, the key leads
there, whatever order the nested containers have come to be in, and to assign the key is to change
this one field.
-/

namespace LiveRecords

open Relation (ReflTransGen)

/-- The holder at the end of a way down from `h`. -/
def Holder.target (h : Holder) (path : List ContainerId) : Holder :=
  (path.getLast?.map shared).getD h

namespace Space

/-- From one holder one gets to another one through fields that hold containers. -/
inductive Leads (s : Space) : Holder → Holder → Prop where
  | here {h} : Leads s h h
  | field {h k l b g} : (s.contents h).field? k = some ⟨l, .tree b⟩ → Leads s (.shared b) g →
      Leads s h g

variable {s t : Space} {a b c : ContainerId} {g h d : Holder} {k : Key} {f : Field}
  {path : List ContainerId}

section Ways

theorem leads_of_reach (h : ReflTransGen s.Encloses a c) : s.Leads (.shared a) (.shared c) := by
  induction h using ReflTransGen.head_induction_on with
  | refl => exact .here
  | head hab _ ih =>
    obtain ⟨k, l, hf⟩ := hab
    exact .field hf ih

theorem Leads.reach (h : s.Leads g d) :
    ∀ a, g = .shared a → ∃ c, d = .shared c ∧ ReflTransGen s.Encloses a c := by
  induction h with
  | here =>
    rintro a rfl
    exact ⟨a, rfl, .refl⟩
  | field hf _ ih =>
    rintro a rfl
    obtain ⟨c, hc, hr⟩ := ih _ rfl
    exact ⟨c, hc, .head ⟨_, _, hf⟩ hr⟩

theorem along_contents (s : Space) (h : Holder) (path : List ContainerId) :
    s.along (s.contents h) path = s.contents (h.target path) := by
  rw [along, Holder.target]
  cases path.getLast? <;> rfl

theorem mem_keys_of_holds (hk : (s.container c).holds k = true) : c ∈ s.containers.keys := by
  cases hc : s.containers.get? c with
  | some d => exact Table.mem_keys_iff.mpr ⟨d, hc⟩
  | none =>
    rw [container, hc] at hk
    cases hk

theorem leads_of_locate (hs : s.WellKept) (h : s.locate (s.contents g) k = some path) :
    s.Leads g (g.target path) ∧ (s.contents (g.target path)).holds k = true := by
  unfold locate at h
  cases hb : s.nestingBound with
  | zero =>
    simp only [hb, locateWithin] at h
    split at h
    · cases h
      exact ⟨.here, ‹_›⟩
    · cases h
  | succ n =>
    simp only [hb, locateWithin] at h
    split at h
    · cases h
      exact ⟨.here, ‹_›⟩
    · obtain ⟨b, hb, h⟩ := List.exists_of_findSome?_eq_some h
      obtain ⟨rest, hrest, rfl⟩ := Option.map_eq_some_iff.mp h
      obtain ⟨c, hp, hk⟩ := path_of_locateWithin hs hrest
      obtain ⟨j, l, hf⟩ := (hs.contents g).mem_nested_iff.mp hb
      have htarget : g.target (b :: rest) = .shared c := by
        rw [← hp.getLast?, Holder.target, List.getLast?_cons]
        rfl
      rw [htarget]
      exact ⟨.field hf (leads_of_reach hp.reach), hk⟩

end Ways

namespace Layered

theorem holder_unique (hs : s.Layered) (hg : (s.contents g).holds k = true)
    (hh : (s.contents h).holds k = true) : g = h :=
  hs.apart g h k (((hs.wellKept.contents g).mem_order k).mpr hg)
    (((hs.wellKept.contents h).mem_order k).mpr hh)

theorem locate_isSome (hs : s.Layered) (hl : s.Leads g d) (hk : (s.contents d).holds k = true) :
    (s.locate (s.contents g) k).isSome := by
  rw [Space.locate]
  cases hl with
  | here => cases s.nestingBound <;> simp [locateWithin, hk]
  | @field _ j l b _ hf hl =>
    obtain ⟨c, rfl, hr⟩ := hl.reach b rfl
    obtain ⟨way, hw⟩ := exists_path hr
    have hlt := hw.length_lt hs.acyclic (mem_keys_of_holds hk)
    obtain ⟨n, hn⟩ : ∃ n, s.nestingBound = n + 1 := ⟨s.nestingBound - 1, by omega⟩
    have hin := hw.locateWithin hs.wellKept hk (d := n) (by omega)
    have hb := (hs.wellKept.contents g).mem_nested_iff.mpr ⟨j, l, hf⟩
    rw [hn, locateWithin]
    split
    · rfl
    · rw [List.findSome?_isSome_iff]
      exact ⟨b, hb, by simpa using hin⟩

/-- A key leads to the holder it belongs to, and to no other one. -/
theorem locate_of_leads (hs : s.Layered) (hl : s.Leads g d) (hk : (s.contents d).holds k = true) :
    ∃ path, s.locate (s.contents g) k = some path ∧ g.target path = d := by
  obtain ⟨path, hp⟩ := Option.isSome_iff_exists.mp (hs.locate_isSome hl hk)
  exact ⟨path, hp, hs.holder_unique (leads_of_locate hs.wellKept hp).2 hk⟩

theorem contains_iff (hs : s.Layered) :
    s.contains (s.contents g) (.key k) = true ↔
      ∃ d, s.Leads g d ∧ (s.contents d).holds k = true := by
  constructor
  · intro h
    obtain ⟨path, hp⟩ := Option.isSome_iff_exists.mp h
    exact ⟨_, leads_of_locate hs.wellKept hp⟩
  · rintro ⟨d, hl, hk⟩
    exact hs.locate_isSome hl hk

theorem field?_iff (hs : s.Layered) :
    s.field? (s.contents g) k = some f ↔ ∃ d, s.Leads g d ∧ (s.contents d).field? k = some f := by
  constructor
  · intro h
    obtain ⟨path, hp, hf⟩ := Option.bind_eq_some_iff.mp h
    exact ⟨_, (leads_of_locate hs.wellKept hp).1, along_contents s g path ▸ hf⟩
  · rintro ⟨d, hl, hf⟩
    obtain ⟨path, hp, rfl⟩ := hs.locate_of_leads hl ((Container.holds_iff _ k).mpr ⟨f, hf⟩)
    rw [field?, hp, Option.bind_some, along_contents, hf]

theorem field?_eq_findSome? (hs : s.Layered) {nested : List ContainerId}
    (hn : nested.Perm (s.contents g).nested) :
    s.field? (s.contents g) k =
      ((s.contents g).field? k).or (nested.findSome? fun b => s.field? (s.container b) k) := by
  have hleads : ∀ {b f}, b ∈ nested → s.field? (s.container b) k = some f →
      s.field? (s.contents g) k = some f := by
    intro b f hb hf
    obtain ⟨j, l, hj⟩ := (hs.wellKept.contents g).mem_nested_iff.mp (hn.mem_iff.mp hb)
    obtain ⟨d, hl, hd⟩ := (hs.field?_iff (g := .shared b)).mp hf
    exact hs.field?_iff.mpr ⟨d, .field hj hl, hd⟩
  cases hk : (s.contents g).field? k with
  | some f => exact hs.field?_iff.mpr ⟨g, .here, hk⟩
  | none =>
    rw [Option.none_or]
    cases hfound : nested.findSome? fun b => s.field? (s.container b) k with
    | some f =>
      obtain ⟨b, hb, hf⟩ := List.exists_of_findSome?_eq_some hfound
      exact hleads hb hf
    | none =>
      rw [Option.eq_none_iff_forall_ne_some]
      intro f hf
      obtain ⟨d, hl, hd⟩ := hs.field?_iff.mp hf
      cases hl with
      | here =>
        rw [hk] at hd
        cases hd
      | @field _ j l b _ hj hl =>
        have hb := (hs.wellKept.contents g).mem_nested_iff.mpr ⟨j, l, hj⟩
        have hnone := List.findSome?_eq_none_iff.mp hfound b (hn.mem_iff.mpr hb)
        have hsome := (hs.field?_iff (g := .shared b)).mpr ⟨d, hl, hd⟩
        exact absurd (hsome.symm.trans hnone) nofun

end Layered

/-- In `t` all holders hold what they do in `s`, but for the field at `k` of `g`: this is `f` in
`s`, and has the value `v` in `t`. -/
structure Reassigned (s t : Space) (g : Holder) (k : Key) (f : Field) (v : Value) : Prop where
  before : (s.contents g).field? k = some f
  field? : ∀ h j, (t.contents h).field? j =
    if h = g ∧ j = k then some { f with value := v } else (s.contents h).field? j
  key? : ∀ h l, (t.contents h).key? l = (s.contents h).key? l
  order : ∀ h, (t.contents h).order = (s.contents h).order

theorem reassigned_setContents (hf : (s.contents g).field? k = some f) (v : Value) :
    s.Reassigned (s.setContents g ((s.contents g).assign k f v)) g k f v := by
  refine ⟨hf, fun h j => ?_, fun h l => ?_, fun h => ?_⟩ <;> rw [contents_setContents] <;> split
  · rename_i hh
    subst hh
    simp [Container.field?_assign]
  · rename_i hh
    simp [hh]
  · rename_i hh
    subst hh
    exact Container.key?_assign ..
  · rfl
  · rename_i hh
    subst hh
    rfl
  · rfl

section Assigning

variable {v : Value}

/-- To assign a key is to replace the value in the holder that the key leads to, while all that is
on the way there is open. -/
theorem assign_key_eq (hp : s.locate (s.contents g) k = some path) (v : Value) :
    g.assign (.key k) v s =
      (do
        discard (Holder.replaceWithin (g.opened ++ path) (g.target path) k v)
        return k : Edit Key) s := by
  rw [Holder.assign, bind_of_ok (Holder.contents_run g s)]
  dsimp only
  rw [bind_of_ok (Edit.get_run s)]
  simp only [hp]
  rfl

theorem assign_key_run (hp : s.locate (s.contents g) k = some path)
    (hf : (s.contents (g.target path)).field? k = some f) (v : Value) :
    g.assign (.key k) v s =
      if s.nests (g.opened ++ path) v then .error (.refused .selfNesting) s
      else .ok k (s.setContents (g.target path) ((s.contents (g.target path)).assign k f v)) := by
  have hreplace : Holder.replaceWithin (g.opened ++ path) (g.target path) k v s =
      if s.nests (g.opened ++ path) v then .error (.refused .selfNesting) s
      else .ok f.value
        (s.setContents (g.target path) ((s.contents (g.target path)).assign k f v)) := by
    rw [Holder.replaceWithin_run]
    simp only [hf]
  rw [assign_key_eq hp]
  by_cases hn : s.nests (g.opened ++ path) v = true
  · rw [if_pos hn] at hreplace ⊢
    exact bind_of_error (discard_of_error hreplace)
  · rw [if_neg hn] at hreplace ⊢
    exact bind_of_ok (discard_of_ok hreplace)

theorem assign_key_of_locate (h : s.locate (s.contents g) k = none) (v : Value) :
    g.assign (.key k) v s = .error (.notFound (.key k)) s := by
  rw [Holder.assign, bind_of_ok (Holder.contents_run g s)]
  dsimp only
  rw [bind_of_ok (Edit.get_run s)]
  simp only [h]
  rfl

/-- What assigns a key changes the field that the key leads to, and nothing else. -/
theorem Layered.reassigned (hs : s.Layered) {k' : Key} (h : g.assign (.key k) v s = .ok k' t) :
    k' = k ∧ ∃ d f, s.Leads g d ∧ s.Reassigned t d k f v := by
  cases hp : s.locate (s.contents g) k with
  | none =>
    rw [assign_key_of_locate hp] at h
    cases h
  | some path =>
    obtain ⟨hl, hk⟩ := leads_of_locate hs.wellKept hp
    obtain ⟨f, hf⟩ := (Container.holds_iff _ k).mp hk
    rw [assign_key_run hp hf v] at h
    split at h <;> cases h
    exact ⟨rfl, _, f, hl, reassigned_setContents hf v⟩

theorem Layered.assign_run (hs : s.Layered) (hl : s.Leads g d)
    (hf : (s.contents d).field? k = some f) (hv : v.tree? = none) :
    ∃ t, g.assign (.key k) v s = .ok k t := by
  obtain ⟨path, hp, rfl⟩ := hs.locate_of_leads hl ((Container.holds_iff _ k).mpr ⟨f, hf⟩)
  have hn : ¬ s.nests (g.opened ++ path) v = true := by
    cases v with
    | tree id => cases hv
    | _ => exact Bool.false_ne_true
  exact ⟨_, (assign_key_run hp hf v).trans (if_neg hn)⟩

end Assigning

section Answers

/-- From the holder `g` the key `k` leads to the field `f`. -/
structure Finds (s : Space) (g : Holder) (k : Key) (f : Field) : Prop where
  contains : s.contains (s.contents g) (.key k) = true
  field : s.field (s.contents g) k = .ok f
  value : s.value (s.contents g) (.key k) = .ok f.value

/-- From the holder `g` the key `k` leads nowhere. -/
structure Misses (s : Space) (g : Holder) (k : Key) : Prop where
  contains : s.contains (s.contents g) (.key k) = false
  field : s.field (s.contents g) k = .error (.notFound (.key k))
  value : s.value (s.contents g) (.key k) = .error (.notFound (.key k))

theorem Layered.finds (hs : s.Layered) (hl : s.Leads g d) (hf : (s.contents d).field? k = some f) :
    s.Finds g k f := by
  have hfield : s.field (s.contents g) k = .ok f := by
    rw [field, hs.field?_iff.mpr ⟨d, hl, hf⟩]
  refine ⟨hs.contains_iff.mpr ⟨d, hl, (Container.holds_iff _ k).mpr ⟨f, hf⟩⟩, hfield, ?_⟩
  rw [value, hfield]
  rfl

theorem Layered.misses (hs : s.Layered)
    (h : ∀ d, s.Leads g d → (s.contents d).field? k = none) : s.Misses g k := by
  have hfield : s.field (s.contents g) k = .error (.notFound (.key k)) := by
    have hnone : s.field? (s.contents g) k = none := by
      rw [Option.eq_none_iff_forall_ne_some]
      intro f hf
      obtain ⟨d, hl, hd⟩ := hs.field?_iff.mp hf
      rw [h d hl] at hd
      cases hd
    rw [field, hnone]
  refine ⟨?_, hfield, ?_⟩
  · rw [Bool.eq_false_iff]
    intro hc
    obtain ⟨d, hl, hk⟩ := hs.contains_iff.mp hc
    obtain ⟨f, hf⟩ := (Container.holds_iff _ k).mp hk
    rw [h d hl] at hf
    cases hf
  · rw [value, hfield]
    rfl

end Answers

end Space

/-- In every reachable space a key belongs to one holder at most. From the holders that lead there
through fields all lookups find its field, from all others they find none; in whichever order the
nested containers are searched, they come to the same. What is no container can be assigned from
such a holder; to assign or to clear the key, if that is not refused, is to give this one field
another value, and nothing else changes anywhere. -/
theorem Reachable.key_leads {s : Space} (h : Reachable s) (g : Holder) (k : Key) :
    (∀ d d', (s.contents d).holds k = true → (s.contents d').holds k = true → d = d') ∧
      (∀ d f, s.Leads g d → (s.contents d).field? k = some f → s.Finds g k f) ∧
      ((∀ d, s.Leads g d → (s.contents d).field? k = none) → s.Misses g k) ∧
      (∀ nested : List ContainerId, nested.Perm (s.contents g).nested →
        s.field? (s.contents g) k =
          ((s.contents g).field? k).or (nested.findSome? fun b => s.field? (s.container b) k)) ∧
      (∀ d f v, s.Leads g d → (s.contents d).field? k = some f → v.tree? = none →
        ∃ t, g.assign (.key k) v s = .ok k t) ∧
      (∀ v k' t, g.assign (.key k) v s = .ok k' t →
        k' = k ∧ ∃ d f, s.Leads g d ∧ s.Reassigned t d k f v) ∧
      ∀ k' t, g.clear (.key k) s = .ok k' t →
        k' = k ∧ ∃ d f, s.Leads g d ∧ s.Reassigned t d k f .empty :=
  ⟨fun _ _ => h.layered.holder_unique, fun _ _ => h.layered.finds, h.layered.misses,
    fun _ => h.layered.field?_eq_findSome?, fun _ _ _ => h.layered.assign_run,
    fun _ _ _ => h.layered.reassigned, fun _ _ => h.layered.reassigned⟩

/-- The first container has held `⟨2⟩`, and holds `⟨3⟩` and `⟨4⟩`, the latter also by way of `⟨3⟩`.
The list of what is nested in it is no longer in the order of its fields. -/
def reordered : List Operation :=
  [.newContainer, .newContainer, .newContainer, .newContainer,
    .container ⟨1⟩ (.add (.name "a") (.tree ⟨2⟩)), .container ⟨1⟩ (.add (.name "b") (.tree ⟨3⟩)),
    .container ⟨1⟩ (.add (.name "c") (.tree ⟨4⟩)), .container ⟨3⟩ (.add .empty (.tree ⟨4⟩)),
    .container ⟨4⟩ (.add (.name "x") (.bool true)), .container ⟨1⟩ (.remove ⟨1⟩)]

theorem key_leads_reordered :
    ((Space.after reordered).contents (.shared ⟨1⟩)).nested = [⟨4⟩, ⟨3⟩] ∧
      (Space.after reordered).Finds (.shared ⟨1⟩) ⟨5⟩ ⟨.name "x", .bool true⟩ ∧
      (Space.after reordered).Misses (.shared ⟨2⟩) ⟨5⟩ ∧
      ∃ t, (Holder.shared ⟨1⟩).assign (.key ⟨5⟩) (.bool false) (Space.after reordered) =
          .ok ⟨5⟩ t ∧
        ∃ d f, (Space.after reordered).Leads (.shared ⟨1⟩) d ∧
          (Space.after reordered).Reassigned t d ⟨5⟩ f (.bool false) := by
  obtain ⟨-, hfinds, -, -, hassigns, hassign, -⟩ :=
    (Reachable.after reordered).key_leads (.shared ⟨1⟩) ⟨5⟩
  obtain ⟨-, -, hmisses, -⟩ := (Reachable.after reordered).key_leads (.shared ⟨2⟩) ⟨5⟩
  have hb : ((Space.after reordered).contents (.shared ⟨1⟩)).field? ⟨2⟩ =
      some ⟨.name "b", .tree ⟨3⟩⟩ := by decide
  have hc : ((Space.after reordered).contents (.shared ⟨3⟩)).field? ⟨4⟩ =
      some ⟨.empty, .tree ⟨4⟩⟩ := by decide
  have hleads : (Space.after reordered).Leads (.shared ⟨1⟩) (.shared ⟨4⟩) :=
    .field hb (.field hc .here)
  have hx : ((Space.after reordered).contents (.shared ⟨4⟩)).field? ⟨5⟩ =
      some ⟨.name "x", .bool true⟩ := by decide
  obtain ⟨t, ht⟩ := hassigns _ _ (.bool false) hleads hx rfl
  refine ⟨by decide, hfinds _ _ hleads hx, hmisses fun d hd => ?_, t, ht, (hassign _ _ _ ht).2⟩
  cases hd with
  | here => decide
  | field hf =>
    have hempty : ((Space.after reordered).contents (.shared ⟨2⟩)).order = [] := by decide
    have hk := ((Reachable.after reordered).wellKept.contents _).mem_of_field? hf
    rw [hempty] at hk
    cases hk

end LiveRecords
