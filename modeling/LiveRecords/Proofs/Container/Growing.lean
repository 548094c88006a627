import LiveRecords.Proofs.Container.Walking

/-! # Walks among growing containers

A container that a walk is in, or that lies ahead of it, may take in another field at its end. If
one gets to each container by one field only, no such container lies behind the walk as well, so
that what has been visited stays the first part of what all fields flatten to.
-/

namespace LiveRecords

open Relation (ReflTransGen)

namespace Space

/-- The field holds the container `c` or one that `c` lies in. -/
def Inside (s : Space) (c : ContainerId) (e : Key × Field) : Prop :=
  ∃ b, e.2.value = .tree b ∧ ReflTransGen s.Encloses b c

/-- Wherever one gets to from `g`, a container is held by one field only. -/
def Unshared (s : Space) (g : Holder) : Prop :=
  ∀ {h h' k k' l l' b}, s.Leads g h → s.Leads g h' →
    (s.contents h).field? k = some ⟨l, .tree b⟩ → (s.contents h').field? k' = some ⟨l', .tree b⟩ →
    h = h' ∧ k = k'

/-- A walk at the field with the number `p`, inside the containers of the frames, is in the
container `c`, or `c` lies in a field ahead. -/
def Awaits (s : Space) (g : Holder) (p : Nat) (frames : List Frame) (c : ContainerId) : Prop :=
  (∃ frame ∈ frames, frame.id = c ∨
      ∃ e ∈ (s.container frame.id).entries.drop frame.position, s.Inside c e) ∨
    ∃ e ∈ (s.contents g).entries.drop p, s.Inside c e

/-- The container `c` takes in a field at its end, which holds no container. -/
structure Appends (s : Space) (c : ContainerId) (e : Key × Field) (t : Space) : Prop where
  entries : (t.contents (.shared c)).entries = (s.contents (.shared c)).entries ++ [e]
  plain : e.2.value.tree? = none
  others : ∀ h ≠ .shared c, t.contents h = s.contents h

variable {s t : Space} {a b c i : ContainerId} {e x y : Key × Field} {g h : Holder} {k j : Key}
  {l m : Label} {p : Nat} {frames : List Frame} {behind ahead es items done : List (Key × Field)}

section Sharing

theorem Inside.leads (hc : s.Inside c e) (he : e ∈ (s.contents g).entries) :
    s.Leads g (.shared c) := by
  obtain ⟨k, l, v⟩ := e
  obtain ⟨b, rfl, hb⟩ := hc
  exact .field (Container.mem_entries.mp he).2 (leads_of_reach hb)

theorem inside_of_leads (hl : s.Leads (.shared i) (.shared c)) : s.Inside c (k, ⟨l, .tree i⟩) := by
  obtain ⟨_, hc, hi⟩ := hl.reach i rfl
  cases hc
  exact ⟨i, rfl, hi⟩

theorem Layered.not_inside_self (hs : s.Layered) (he : e ∈ (s.container c).entries) :
    ¬ s.Inside c e := by
  obtain ⟨k, l, v⟩ := e
  rintro ⟨b, rfl, hb⟩
  exact hs.acyclic c (.head' ⟨k, l, (Container.mem_entries.mp he).2⟩ hb)

namespace Unshared

variable (hu : s.Unshared g)
include hu

theorem below (hf : (s.contents g).field? k = some ⟨l, .tree b⟩) : s.Unshared (.shared b) :=
  fun hl hl' => hu (.field hf hl) (.field hf hl')

theorem key_unique (hs : s.Layered) (hf : (s.contents g).field? k = some ⟨l, .tree a⟩)
    (hf' : (s.contents g).field? j = some ⟨m, .tree b⟩) (ha : ReflTransGen s.Encloses a c)
    (hb : ReflTransGen s.Encloses b c) : k = j := by
  -- A container that encloses what `g` itself holds would be `g`, which lies in no container below.
  have hround : ∀ {d b j k l m}, (s.contents g).field? j = some ⟨m, .tree b⟩ →
      ReflTransGen s.Encloses b d → ∀ {a}, (s.contents g).field? k = some ⟨l, .tree a⟩ →
      ¬ s.Encloses d a := by
    rintro d b j k l m hb hbd a ha ⟨k', l', hd⟩
    obtain ⟨rfl, -⟩ := hu (.field hb (leads_of_reach hbd)) .here hd ha
    exact hs.acyclic d (.head' ⟨j, m, hb⟩ hbd)
  induction ha with
  | refl =>
    rcases hb.cases_tail with rfl | ⟨d, hbd, hd⟩
    · exact (hu .here .here hf hf').2
    · exact absurd hd (hround hf' hbd hf)
  | @tail d c had hd ih =>
    rcases hb.cases_tail with rfl | ⟨d', hbd', hd'⟩
    · exact absurd hd (hround hf had hf')
    · obtain ⟨k, l, hk⟩ := hd
      obtain ⟨k', l', hk'⟩ := hd'
      obtain ⟨he, -⟩ :=
        hu (.field hf (leads_of_reach had)) (.field hf' (leads_of_reach hbd')) hk hk'
      cases he
      exact ih hbd'

/-- What lies in a field ahead does not lie in one behind. -/
theorem not_inside (hs : s.Layered) (hg : (s.contents g).entries = behind ++ ahead)
    (hy : y ∈ ahead) (hc : s.Inside c y) : ∀ x ∈ behind, ¬ s.Inside c x := by
  rintro x hx hcx
  have hkeys : ((s.contents g).entries.map (·.1)).Nodup := by
    rw [(hs.wellKept.contents g).keys_entries]
    exact (hs.wellKept.contents g).order_nodup
  rw [hg, List.map_append] at hkeys
  refine List.disjoint_of_nodup_append hkeys (List.mem_map_of_mem hx) ?_
  have hfx := (Container.mem_entries.mp (hg ▸ List.mem_append_left ahead hx)).2
  have hfy := (Container.mem_entries.mp (hg ▸ List.mem_append_right behind hy)).2
  obtain ⟨k, l, v⟩ := x
  obtain ⟨j, m, w⟩ := y
  obtain ⟨a, rfl, ha⟩ := hcx
  obtain ⟨b, rfl, hb⟩ := hc
  rw [hu.key_unique hs hfx hfy ha hb]
  exact List.mem_map_of_mem hy

end Unshared

end Sharing

section Appending

variable (ha : s.Appends c e t)
include ha

theorem Appends.exists_entries (g : Holder) :
    ∃ more, (t.contents g).entries = (s.contents g).entries ++ more := by
  by_cases hg : g = .shared c
  · subst hg
    exact ⟨[e], ha.entries⟩
  · exact ⟨[], by rw [ha.others g hg, List.append_nil]⟩

theorem Appends.field?_of_tree (ht : t.WellKept)
    (hf : (t.contents h).field? k = some ⟨l, .tree b⟩) :
    (s.contents h).field? k = some ⟨l, .tree b⟩ := by
  by_cases hh : h = .shared c
  · subst hh
    have hmem : (k, ⟨l, .tree b⟩) ∈ (t.contents (.shared c)).entries :=
      (ht.contents (.shared c)).mem_entries_iff.mpr hf
    rw [ha.entries, List.mem_append, List.mem_singleton] at hmem
    rcases hmem with hmem | rfl
    · exact (Container.mem_entries.mp hmem).2
    · cases ha.plain
  · exact ha.others h hh ▸ hf

theorem Leads.of_appends (hl : t.Leads g h) (ht : t.WellKept) : s.Leads g h := by
  induction hl with
  | here => exact .here
  | field hf _ ih => exact .field (ha.field?_of_tree ht hf) ih

theorem Unshared.appends (hu : s.Unshared g) (ht : t.WellKept) : t.Unshared g :=
  fun hl hl' hf hf' => hu (hl.of_appends ha ht) (hl'.of_appends ha ht) (ha.field?_of_tree ht hf)
    (ha.field?_of_tree ht hf')

theorem Flattens.appends (h : s.Flattens es items) (hes : ∀ x ∈ es, ¬ s.Inside c x) :
    t.Flattens es items := by
  induction h with
  | nil => exact .nil
  | plain ht _ ih => exact .plain ht (ih fun x hx => hes x (List.mem_cons_of_mem _ hx))
  | @nested k l i _ _ _ _ _ ihinner ih =>
    have hi : ¬ ReflTransGen s.Encloses i c := fun hi => hes _ List.mem_cons_self ⟨i, rfl, hi⟩
    have hne : Holder.shared i ≠ .shared c := by
      rintro he
      cases he
      exact hi .refl
    refine .nested ?_ (ih fun x hx => hes x (List.mem_cons_of_mem _ hx))
    have hsame : t.container i = s.container i := ha.others _ hne
    rw [hsame]
    refine ihinner fun ⟨j, m, v⟩ hx => ?_
    rintro ⟨b, rfl, hb⟩
    exact hi (.head ⟨j, m, (Container.mem_entries.mp hx).2⟩ hb)

end Appending

section Awaiting

theorem awaits_between (hg : (s.contents g).entries = behind ++ ahead)
    (hc : s.Awaits g behind.length [] c) : ∃ y ∈ ahead, s.Inside c y := by
  rcases hc with ⟨_, hframe, -⟩ | ⟨y, hy, hc⟩
  · cases hframe
  · rw [hg, List.drop_left] at hy
    exact ⟨y, hy, hc⟩

theorem awaits_inside (hg : (s.contents g).entries = behind ++ (k, ⟨l, .tree i⟩) :: ahead)
    (hc : s.Awaits g (behind.length + 1) (frames ++ [⟨i, p⟩]) c) :
    i = c ∨ s.Awaits (.shared i) p frames c ∨ ∃ y ∈ ahead, s.Inside c y := by
  rcases hc with ⟨frame, hframe, hc⟩ | ⟨y, hy, hc⟩
  · rcases List.mem_append.mp hframe with hframe | hframe
    · exact .inr (.inl (.inl ⟨frame, hframe, hc⟩))
    · obtain rfl := List.mem_singleton.mp hframe
      exact hc.imp_right fun hc => .inl (.inr hc)
  · rw [hg, List.append_cons, List.drop_left' (by simp)] at hy
    exact .inr (.inr ⟨y, hy, hc⟩)

theorem Halfway.leads_of_awaits (hw : s.Halfway g p frames done)
    (hc : s.Awaits g p frames c) : s.Leads g (.shared c) := by
  induction hw with
  | between hg hb =>
    obtain ⟨y, hy, hc⟩ := awaits_between hg hc
    exact hc.leads (hg ▸ List.mem_append_right _ hy)
  | inside hg hb _ ih =>
    have hf := (Container.mem_entries.mp (hg ▸ List.mem_append_right _ List.mem_cons_self)).2
    rcases awaits_inside hg hc with rfl | hc | ⟨y, hy, hc⟩
    · exact .field hf .here
    · exact .field hf (ih hc)
    · exact hc.leads (hg ▸ List.mem_append_right _ (List.mem_cons_of_mem _ hy))

theorem Unshared.clear_behind (hu : s.Unshared g) (hs : s.Layered)
    (hg : (s.contents g).entries = behind ++ ahead)
    (hc : g = .shared c ∨ ¬ s.Leads g (.shared c) ∨ ∃ y ∈ ahead, s.Inside c y) :
    ∀ x ∈ behind, ¬ s.Inside c x := by
  intro x hx
  have hx' : x ∈ (s.contents g).entries := hg ▸ List.mem_append_left ahead hx
  rcases hc with rfl | hc | ⟨y, hy, hc⟩
  · exact hs.not_inside_self hx'
  · exact fun hcx => hc (hcx.leads hx')
  · exact hu.not_inside hs hg hy hc x hx

/-- Where a container takes in a field, what has been visited below `g` stays so, if the walk awaits
the container, or it is `g` itself, or does not lie below `g`. -/
theorem Halfway.appends (hw : s.Halfway g p frames done) (hs : s.Layered) (ha : s.Appends c e t)
    (hu : s.Unshared g)
    (hc : g = .shared c ∨ ¬ s.Leads g (.shared c) ∨ s.Awaits g p frames c) :
    t.Halfway g p frames done := by
  induction hw with
  | @between g behind ahead done hg hb =>
    have hclear := hu.clear_behind hs hg (hc.imp_right (Or.imp_right (awaits_between hg)))
    obtain ⟨more, hmore⟩ := ha.exists_entries g
    rw [hg, List.append_assoc] at hmore
    exact .between hmore (hb.appends ha hclear)
  | @inside g behind k l i ahead before p frames done hg hb hin ih =>
    have hmem : (k, ⟨l, .tree i⟩) ∈ (s.contents g).entries :=
      hg ▸ List.mem_append_right _ List.mem_cons_self
    have hf := (Container.mem_entries.mp hmem).2
    have hg' : (s.contents g).entries = (behind ++ [(k, ⟨l, .tree i⟩)]) ++ ahead := by simp [hg]
    have hahead : s.Awaits g (behind.length + 1) (frames ++ [⟨i, p⟩]) c →
        ∃ y ∈ (k, ⟨l, .tree i⟩) :: ahead, s.Inside c y := by
      intro hc
      rcases awaits_inside hg hc with rfl | hc | ⟨y, hy, hc⟩
      · exact ⟨_, List.mem_cons_self, i, rfl, .refl⟩
      · exact ⟨_, List.mem_cons_self, inside_of_leads (hin.leads_of_awaits hc)⟩
      · exact ⟨y, List.mem_cons_of_mem _ hy, hc⟩
    have hclear := hu.clear_behind hs hg (hc.imp_right (Or.imp_right hahead))
    have hbelow : Holder.shared i = .shared c ∨ ¬ s.Leads (.shared i) (.shared c) ∨
        s.Awaits (.shared i) p frames c := by
      rcases hc with rfl | hc | hc
      · exact .inr (.inl fun hl => hs.not_inside_self hmem (inside_of_leads hl))
      · exact .inr (.inl fun hl => hc (.field hf hl))
      · rcases awaits_inside hg hc with rfl | hc | ⟨y, hy, hc⟩
        · exact .inl rfl
        · exact .inr (.inr hc)
        · refine .inr (.inl fun hl => ?_)
          exact hu.not_inside hs hg' hy hc _ (List.mem_append_right _ (List.mem_singleton_self _))
            (inside_of_leads hl)
    obtain ⟨more, hmore⟩ := ha.exists_entries g
    rw [hg, List.append_assoc, List.cons_append] at hmore
    exact .inside hmore (hb.appends ha hclear) (ih (hu.below hf) hbelow)

end Awaiting

theorem Layered.add_appends (hs : s.Layered) (c : ContainerId) (l : Label) {v : Value}
    (hv : v.tree? = none) :
    final ((Holder.shared c).add l v) s = s ∨
      ∃ e, s.Appends c e (final ((Holder.shared c).add l v) s) := by
  rw [Holder.add]
  rcases (Holder.shared c).final_insert l v s fun k order => order ++ [k] with he | ⟨-, -, he⟩ <;>
    rw [he]
  · exact .inl rfl
  · refine .inr ⟨(⟨s.nextKey⟩, ⟨l, v⟩), ⟨?_, hv, fun h hh => ?_⟩⟩
    · rw [contents_setContents, if_pos rfl]
      exact congrArg Ledger.entries
        ((hs.wellKept.contents (.shared c)).ledger_last (hs.wellKept.fresh (.shared c)))
    · rw [contents_setContents, if_neg hh, contents_setNextKey]

end Space

namespace Walk

/-- The walk is in the container, or the container lies ahead of it. -/
def Awaits (s : Space) (w : Walk) (c : ContainerId) : Prop :=
  s.Awaits w.root w.position w.frames c

/-- A walk below `g` starts in `s`. Between its steps, fields that hold no containers may be added
to the containers that it awaits. -/
inductive Interleaves (g : Holder) (s : Space) : Space → Walk → List (Key × Field) → Prop where
  | start : Interleaves g s s { root := g } []
  | next {t w done} : Interleaves g s t w done →
      Interleaves g s t (w.next t).2 (done ++ (w.next t).1.toList)
  | add {t w done c l v} : Interleaves g s t w done → w.Awaits t c → v.tree? = none →
      Interleaves g s (final ((Holder.shared c).add l v) t) w done

/-- What the walk has visited stays right throughout. -/
theorem Interleaves.visited {g : Holder} {s t : Space} {w : Walk} {done : List (Key × Field)}
    (h : Interleaves g s t w done) (hs : s.Layered) (hu : s.Unshared g) :
    t.Layered ∧ t.Unshared g ∧ w.root = g ∧ Visited t w done := by
  induction h with
  | start => exact ⟨hs, hu, rfl, visited_start s g⟩
  | next _ ih =>
    obtain ⟨ht, hu, rfl, hw⟩ := ih
    obtain ⟨hroot, hnext, -⟩ := hw.next ht
    exact ⟨ht, hu, hroot, hnext⟩
  | @add t w done c l v _ hc hv ih =>
    obtain ⟨ht, hu, rfl, hw⟩ := ih
    have ht' := Space.holderClosed_layered.add (.shared c) l v t ht
    rcases ht.add_appends c l hv with he | ⟨e, ha⟩
    · rw [he]
      exact ⟨ht, hu, rfl, hw⟩
    · exact ⟨ht', hu.appends ha ht'.wellKept, rfl, hw.appends ht ha hu (.inr (.inr hc))⟩

end Walk

/-- In every reachable space, a walk below a holder visits just the fields that hold no containers,
those of a nested container in place of the field that holds it, and ends. These are what the tree
accessors tell of, and their keys lead to them from the holder. If from there one gets to each
container by one field only, then this also holds while containers that the walk is in, or that lie
ahead of it, take in fields that hold no containers: what has been visited is the first part of what
all fields flatten to by then, the walk would go on to visit the others and end, and once it has
ended nothing is left. -/
theorem Reachable.walk_flattens {s : Space} (h : Reachable s) (g : Holder) :
    (∃ items, s.Flattens (s.contents g).entries items ∧
        ({ root := g } : Walk).Visits s items ∧
        s.treeKeys g = items.map (·.1) ∧
        s.treeLabels g = items.map (·.2.label) ∧
        s.treeValues g = items.map (·.2.value) ∧
        s.treeFields g = items.map (fun e => (e.2.label, e.2.value)) ∧
        ∀ e ∈ items, e.2.value.tree? = none ∧ s.contains (s.contents g) (.key e.1) = true) ∧
      (s.Unshared g → ∀ (t : Space) (w : Walk) (done : List (Key × Field)),
        Walk.Interleaves g s t w done → ∃ left,
          t.Flattens (t.contents g).entries (done ++ left) ∧ w.Visits t left ∧
          ((w.next t).1 = none → left = []) ∧
          ∀ e ∈ done ++ left,
            e.2.value.tree? = none ∧ t.contains (t.contents g) (.key e.1) = true) := by
  constructor
  · have hflat := h.layered.flattens (s.contents g)
    have hfields := h.layered.walk_fields hflat
    refine ⟨s.flatten (s.contents g), hflat, (Walk.visited_start s g).visits h.layered hflat,
      ?_, ?_, ?_, ?_,
      fun e he => ⟨hflat.tree?_eq_none e he, h.layered.contains_of_flattens hflat he⟩⟩
    · rw [Space.treeKeys, hfields]
    · rw [Space.treeLabels, hfields]
    · rw [Space.treeValues, hfields]
    · rw [Space.treeFields, hfields]
  · intro hu t w done hi
    obtain ⟨ht, -, rfl, hw⟩ := hi.visited h.layered hu
    obtain ⟨left, hleft⟩ := Space.Halfway.exists_left hw ht
    refine ⟨left, hleft, hw.visits ht hleft, fun hn => ?_,
      fun e he => ⟨hleft.tree?_eq_none e he, ht.contains_of_flattens hleft he⟩⟩
    exact List.self_eq_append_right.mp (((hw.next ht).2.2 hn).unique hleft)

/-- The first container holds the second one, which has two fields, and has a field after it. -/
def innerFirst : List Operation :=
  [.newContainer, .newContainer, .container ⟨2⟩ (.add (.name "x") (.int 1)),
    .container ⟨2⟩ (.add (.name "y") (.int 2)), .container ⟨1⟩ (.add (.name "inner") (.tree ⟨2⟩)),
    .container ⟨1⟩ (.add (.name "z") (.int 3))]

/-- The walk goes into the second container. -/
def innerEntered : Walk := (Walk.next (Space.after innerFirst) { root := .shared ⟨1⟩ }).2

/-- Meanwhile the second container takes in another field. -/
def innerGrown : Space :=
  final ((Holder.shared ⟨2⟩).add (.name "w") (.int 4)) (Space.after innerFirst)

theorem innerFirst_holds {h : Holder} {k : Key} {l : Label} {b : ContainerId}
    (hf : ((Space.after innerFirst).contents h).field? k = some ⟨l, .tree b⟩) :
    h = .shared ⟨1⟩ ∧ k = ⟨3⟩ := by
  have hmem := ((Reachable.after innerFirst).wellKept.contents h).mem_entries_iff.mpr hf
  cases h with
  | record id => cases hmem
  | shared i =>
    have hi : i ∈ (Space.after innerFirst).containers.keys :=
      Space.mem_keys_of_holds ((Container.holds_iff _ k).mpr ⟨_, hf⟩)
    have hkeys : (Space.after innerFirst).containers.keys = [⟨1⟩, ⟨2⟩] := by decide
    have hall : ∀ i ∈ [⟨1⟩, ⟨2⟩], ∀ e ∈ ((Space.after innerFirst).contents (.shared i)).entries,
        e.2.value.tree?.isSome → i = ⟨1⟩ ∧ e.1 = ⟨3⟩ := by decide
    obtain ⟨rfl, hk⟩ := hall i (hkeys ▸ hi) _ hmem rfl
    exact ⟨rfl, hk⟩

theorem innerFirst_unshared : (Space.after innerFirst).Unshared (.shared ⟨1⟩) := by
  intro h h' k k' l l' b _ _ hf hf'
  obtain ⟨rfl, rfl⟩ := innerFirst_holds hf
  obtain ⟨rfl, rfl⟩ := innerFirst_holds hf'
  exact ⟨rfl, rfl⟩

theorem walk_flattens_innerFirst :
    ∃ left, innerGrown.Flattens (innerGrown.contents (.shared ⟨1⟩)).entries
        ((⟨1⟩, ⟨.name "x", .int 1⟩) :: left) ∧
      innerEntered.Visits innerGrown left ∧ left.map (·.1) = [⟨2⟩, ⟨5⟩, ⟨4⟩] := by
  have hawaits : innerEntered.Awaits (Space.after innerFirst) ⟨2⟩ :=
    .inl ⟨⟨⟨2⟩, 1⟩, by decide, .inl rfl⟩
  have hcourse : Walk.Interleaves (.shared ⟨1⟩) (Space.after innerFirst) innerGrown innerEntered
      [(⟨1⟩, ⟨.name "x", .int 1⟩)] := .add (.next .start) hawaits rfl
  obtain ⟨left, hflat, hvisits, -⟩ := ((Reachable.after innerFirst).walk_flattens (.shared ⟨1⟩)).2
    innerFirst_unshared _ _ _ hcourse
  refine ⟨left, hflat, hvisits, ?_⟩
  have hgrown : innerGrown.Layered :=
    Space.holderClosed_layered.add _ _ _ _ (Reachable.after innerFirst).layered
  have hkeys : innerGrown.treeKeys (.shared ⟨1⟩) = [⟨1⟩, ⟨2⟩, ⟨5⟩, ⟨4⟩] := by decide
  rw [Space.treeKeys, hgrown.walk_fields hflat] at hkeys
  exact (List.cons.inj hkeys).2

end LiveRecords
