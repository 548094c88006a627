import Mathlib.Data.List.Perm.Subperm
import Mathlib.Logic.Relation
import LiveRecords.Proofs.Container.WellKept

/-! # No container lies inside itself

A container encloses the containers that are values of its fields. Before one is stored, a search
finds out whether it has an open container inside it, so enclosing never comes round. The search
is deep enough and keys belong to one container each, so nothing else is refused.
-/

namespace LiveRecords

open Relation (ReflTransGen TransGen)

section Links

variable {α : Type} {r q : α → α → Prop} {c v : α}

theorem reflTransGen_of_link (hq : ∀ a b, q a b → r a b ∨ a = c ∧ b = v)
    (hv : ¬ ReflTransGen r v c) {x : α} (h : ReflTransGen q v x) : ReflTransGen r v x := by
  induction h with
  | refl => exact .refl
  | tail _ hxy ih =>
    rcases hq _ _ hxy with hr | ⟨rfl, rfl⟩
    · exact ih.tail hr
    · exact absurd ih hv

/-- One more link, from `c` to `v`, makes no cycle unless `v` leads to `c` already. -/
theorem acyclic_of_link (hq : ∀ a b, q a b → r a b ∨ a = c ∧ b = v) (hv : ¬ ReflTransGen r v c)
    (hr : ∀ a, ¬ TransGen r a a) (a : α) : ¬ TransGen q a a := by
  have key : ∀ x, TransGen q a x → TransGen r a x ∨ ReflTransGen r a c ∧ ReflTransGen q v x := by
    intro x h
    induction h with
    | single h =>
      rcases hq _ _ h with hr | ⟨rfl, rfl⟩
      · exact .inl (.single hr)
      · exact .inr ⟨.refl, .refl⟩
    | tail _ hxy ih =>
      rcases ih with ih | ⟨hc, ih⟩
      · rcases hq _ _ hxy with hr | ⟨rfl, rfl⟩
        · exact .inl (ih.tail hr)
        · exact .inr ⟨ih.to_reflTransGen, .refl⟩
      · exact .inr ⟨hc, ih.tail hxy⟩
  intro h
  rcases key a h with h | ⟨hc, h⟩
  · exact hr a h
  · exact hv ((reflTransGen_of_link hq hv h).trans hc)

end Links

namespace Space

/-- A field of the container `a` holds the container `b`. -/
def Encloses (s : Space) (a b : ContainerId) : Prop :=
  ∃ k l, (s.container a).field? k = some ⟨l, .tree b⟩

def Acyclic (s : Space) : Prop := ∀ a, ¬ TransGen s.Encloses a a

/-- From `a` one gets to `b` by way of the containers in the list, the last of which is `b`. -/
inductive Path (s : Space) : ContainerId → List ContainerId → ContainerId → Prop where
  | nil {a} : Path s a [] a
  | cons {a b c path} : s.Encloses a b → Path s b path c → Path s a (b :: path) c

variable {s t : Space} {a b c : ContainerId} {path : List ContainerId}

section Paths

theorem Path.reach (h : s.Path a path b) : ReflTransGen s.Encloses a b := by
  induction h with
  | nil => exact .refl
  | cons hab _ ih => exact .head hab ih

theorem exists_path (h : ReflTransGen s.Encloses a b) : ∃ path, s.Path a path b := by
  induction h using ReflTransGen.head_induction_on with
  | refl => exact ⟨[], .nil⟩
  | head hab _ ih =>
    obtain ⟨path, hp⟩ := ih
    exact ⟨_, .cons hab hp⟩

theorem Path.getLast? (h : s.Path a path b) : path.getLast?.getD a = b := by
  induction h with
  | nil => rfl
  | cons _ _ ih =>
    rw [List.getLast?_cons, Option.getD_some]
    exact ih

theorem Path.reach_of_mem (h : s.Path a path b) (hc : c ∈ a :: path) :
    ReflTransGen s.Encloses c b := by
  induction h with
  | nil =>
    obtain rfl := List.mem_singleton.mp hc
    exact .refl
  | cons hab hp ih =>
    rcases List.mem_cons.mp hc with rfl | hc
    · exact .head hab hp.reach
    · exact ih hc

theorem Encloses.mem_keys (h : s.Encloses a b) : a ∈ s.containers.keys := by
  obtain ⟨k, l, hk⟩ := h
  cases hc : s.containers.get? a with
  | some d => exact Table.mem_keys_iff.mpr ⟨d, hc⟩
  | none =>
    rw [container, hc] at hk
    cases hk

/-- Without cycles, the containers left along a path are different ones, and so is the `last` one
reached. -/
theorem Path.exists_visited (ha : s.Acyclic) (h : s.Path a path b) {last : List ContainerId}
    (hn : last.Nodup) (hlast : ∀ x ∈ last, x = b ∧ x ∈ s.containers.keys) :
    ∃ visited : List ContainerId, visited.Nodup ∧ visited.length = path.length + last.length ∧
      ∀ x ∈ visited, x ∈ s.containers.keys ∧ ReflTransGen s.Encloses a x := by
  induction h with
  | nil =>
    refine ⟨last, hn, (Nat.zero_add _).symm, fun x hx => ?_⟩
    obtain ⟨rfl, hk⟩ := hlast x hx
    exact ⟨hk, .refl⟩
  | @cons a b c path hab _ ih =>
    obtain ⟨visited, hn, hl, hx⟩ := ih hlast
    refine ⟨a :: visited, List.nodup_cons.mpr ⟨fun hm => ?_, hn⟩, ?_, ?_⟩
    · exact ha a (.head' hab (hx a hm).2)
    · rw [List.length_cons, List.length_cons, hl]
      omega
    · rw [List.forall_mem_cons]
      exact ⟨⟨hab.mem_keys, .refl⟩, fun x hm => ⟨(hx x hm).1, .head hab (hx x hm).2⟩⟩

theorem length_le_nestingBound {visited : List ContainerId} (hn : visited.Nodup)
    (hx : ∀ x ∈ visited, x ∈ s.containers.keys) : visited.length ≤ s.nestingBound := by
  have hsub : visited.length ≤ s.containers.keys.length :=
    (List.subperm_of_subset hn hx).length_le
  have hkeys : s.containers.keys.length = s.nestingBound := List.length_map _
  omega

/-- Searching as deep as there are containers is searching deep enough. -/
theorem Path.length_le (ha : s.Acyclic) (h : s.Path a path b) : path.length ≤ s.nestingBound := by
  obtain ⟨visited, hn, hl, hx⟩ := h.exists_visited ha List.nodup_nil nofun
  have := length_le_nestingBound hn fun x hm => (hx x hm).1
  rwa [hl] at this

theorem Path.length_lt (ha : s.Acyclic) (h : s.Path a path b) (hb : b ∈ s.containers.keys) :
    path.length < s.nestingBound := by
  have hlast : ∀ x ∈ [b], x = b ∧ x ∈ s.containers.keys :=
    List.forall_mem_singleton.mpr ⟨rfl, hb⟩
  obtain ⟨visited, hn, hl, hx⟩ := h.exists_visited ha (List.nodup_singleton b) hlast
  have := length_le_nestingBound hn fun x hm => (hx x hm).1
  rwa [hl] at this

end Paths

section Search

variable {goals : List ContainerId} {d : Nat} {k : Key}

theorem WellKept.mem_nested_iff (hs : s.WellKept) : b ∈ (s.container a).nested ↔ s.Encloses a b :=
  (hs.contents (.shared a)).mem_nested_iff

theorem reach_of_reachesWithin (hs : s.WellKept) (h : s.reachesWithin goals d a = true) :
    ∃ g ∈ goals, ReflTransGen s.Encloses a g := by
  induction d generalizing a with
  | zero => exact ⟨a, by simpa [reachesWithin] using h, .refl⟩
  | succ d ih =>
    simp only [reachesWithin, Bool.or_eq_true, List.contains_iff_mem, List.any_eq_true] at h
    rcases h with h | ⟨b, hb, h⟩
    · exact ⟨a, h, .refl⟩
    · obtain ⟨g, hg, hr⟩ := ih h
      exact ⟨g, hg, .head (hs.mem_nested_iff.mp hb) hr⟩

theorem Path.reachesWithin (hs : s.WellKept) (h : s.Path a path b) (hb : b ∈ goals)
    (hd : path.length ≤ d) : s.reachesWithin goals d a = true := by
  induction h generalizing d with
  | nil => cases d <;> simp [Space.reachesWithin, hb]
  | @cons a b c path hab hp ih =>
    cases d with
    | zero => exact absurd hd (Nat.not_succ_le_zero _)
    | succ d =>
      have hr := ih hb (Nat.le_of_succ_le_succ hd)
      simp only [Space.reachesWithin, Bool.or_eq_true, List.any_eq_true]
      exact .inr ⟨b, hs.mem_nested_iff.mpr hab, hr⟩

theorem reaches_iff (hs : s.WellKept) (ha : s.Acyclic) :
    s.reaches goals a = true ↔ ∃ g ∈ goals, ReflTransGen s.Encloses a g := by
  constructor
  · exact reach_of_reachesWithin hs
  · rintro ⟨g, hg, hr⟩
    obtain ⟨path, hp⟩ := exists_path hr
    exact hp.reachesWithin hs hg (hp.length_le ha)

theorem path_of_locateWithin (hs : s.WellKept)
    (h : s.locateWithin k d (s.container a) = some path) :
    ∃ b, s.Path a path b ∧ (s.container b).holds k = true := by
  induction d generalizing a path with
  | zero =>
    simp only [locateWithin] at h
    split at h
    · cases h
      exact ⟨a, .nil, ‹_›⟩
    · cases h
  | succ d ih =>
    simp only [locateWithin] at h
    split at h
    · cases h
      exact ⟨a, .nil, ‹_›⟩
    · obtain ⟨b, hb, h⟩ := List.exists_of_findSome?_eq_some h
      obtain ⟨rest, hrest, rfl⟩ := Option.map_eq_some_iff.mp h
      obtain ⟨c, hp, hk⟩ := ih hrest
      exact ⟨c, .cons (hs.mem_nested_iff.mp hb) hp, hk⟩

theorem Path.locateWithin (hs : s.WellKept) (h : s.Path a path b)
    (hk : (s.container b).holds k = true) (hd : path.length ≤ d) :
    (s.locateWithin k d (s.container a)).isSome := by
  induction h generalizing d with
  | nil => cases d <;> simp [Space.locateWithin, hk]
  | @cons a b c path hab hp ih =>
    cases d with
    | zero => exact absurd hd (Nat.not_succ_le_zero _)
    | succ d =>
      have hr := ih hk (Nat.le_of_succ_le_succ hd)
      simp only [Space.locateWithin]
      split
      · rfl
      · rw [List.findSome?_isSome_iff]
        exact ⟨b, hs.mem_nested_iff.mpr hab, by simpa using hr⟩

end Search

/-- Containers are well kept, a key belongs to one holder, and enclosing never comes round. -/
structure Layered (s : Space) : Prop where
  wellKept : s.WellKept
  apart : ∀ g h k, k ∈ (s.contents g).order → k ∈ (s.contents h).order → g = h
  acyclic : s.Acyclic

namespace Layered

theorem empty : ({} : Space).Layered where
  wellKept := .empty
  apart g _ _ hk _ := by cases g <;> cases hk
  acyclic a h := by
    obtain ⟨b, ⟨k, l, hk⟩, -⟩ := TransGen.head'_iff.mp h
    cases hk

theorem nests_iff (hs : s.Layered) {opened : List ContainerId} :
    s.nests opened (.tree b) = true ↔ ∃ a ∈ opened, ReflTransGen s.Encloses b a :=
  reaches_iff hs.wellKept hs.acyclic

theorem not_reach (hs : s.Layered) {opened : List ContainerId} {v : Value}
    (hn : s.nests opened v = false) :
    ∀ b, v = .tree b → ∀ a ∈ opened, ¬ ReflTransGen s.Encloses b a := by
  rintro b rfl a ha h
  rw [hs.nests_iff.mpr ⟨a, ha, h⟩] at hn
  cases hn

theorem of_contents (hs : s.Layered) (ht : t.WellKept)
    (hc : ∀ h, t.contents h = s.contents h ∨ t.contents h = {}) : t.Layered := by
  refine ⟨ht, fun g h k hg hh => ?_, fun a ha => ?_⟩
  · rcases hc g with eg | eg <;> rw [eg] at hg
    · rcases hc h with eh | eh <;> rw [eh] at hh
      · exact hs.apart g h k hg hh
      · cases hh
    · cases hg
  · refine hs.acyclic a (TransGen.mono (fun x y hxy => ?_) a a ha)
    obtain ⟨k, l, hk⟩ := hxy
    rcases hc (.shared x) with e | e
    · have e' : t.container x = s.container x := e
      exact ⟨k, l, e' ▸ hk⟩
    · have e' : t.container x = {} := e
      rw [e'] at hk
      cases hk

theorem congr (hs : s.Layered) (ht : t.WellKept) (hc : ∀ h, t.contents h = s.contents h) :
    t.Layered :=
  hs.of_contents ht fun h => .inl (hc h)

/-- A holder may lose fields and take on one with the value `v`, under a key of its own, as long
as `v` has no open container inside it. -/
theorem setContents (hs : s.Layered) {h : Holder} {d : Container} {v : Value}
    (ht : (s.setContents h d).WellKept)
    (hv : ∀ b, v = .tree b → ∀ a ∈ h.opened, ¬ ReflTransGen s.Encloses b a)
    (hk : ∀ k ∈ d.order, ∀ g ≠ h, k ∉ (s.contents g).order)
    (hd : ∀ k l b, d.field? k = some ⟨l, .tree b⟩ →
      (∃ j m, (s.contents h).field? j = some ⟨m, .tree b⟩) ∨ v = .tree b) :
    (s.setContents h d).Layered := by
  refine ⟨ht, fun g g' k hg hg' => ?_, ?_⟩
  · rw [contents_setContents] at hg hg'
    split at hg <;> rename_i hgh <;> split at hg' <;> rename_i hgh'
    · exact hgh.trans hgh'.symm
    · exact absurd hg' (hk k hg g' hgh')
    · exact absurd hg (hk k hg' g hgh)
    · exact hs.apart g g' k hg hg'
  · cases h with
    | record id => exact hs.acyclic
    | shared id =>
      have hlink : ∀ x y, (s.setContents (.shared id) d).Encloses x y →
          s.Encloses x y ∨ x = id ∧ v = .tree y := by
        rintro x y ⟨k, l, hf⟩
        rw [Space.setContents, container_setContainer] at hf
        split at hf
        · rename_i hx
          rcases hd k l y hf with ⟨j, m, hj⟩ | hy
          · exact .inl ⟨j, m, hx ▸ hj⟩
          · exact .inr ⟨hx, hy⟩
        · exact .inl ⟨k, l, hf⟩
      by_cases hb : ∃ b, v = .tree b
      · obtain ⟨b, rfl⟩ := hb
        refine acyclic_of_link (v := b) (fun x y hxy => ?_)
          (hv b rfl id (List.mem_singleton_self id)) hs.acyclic
        refine (hlink x y hxy).imp_right fun hy => ?_
        exact ⟨hy.1, (Value.tree.inj hy.2).symm⟩
      · intro a ha
        refine hs.acyclic a (TransGen.mono (fun x y hxy => ?_) a a ha)
        rcases hlink x y hxy with h | ⟨-, hy⟩
        · exact h
        · exact absurd ⟨y, hy⟩ hb

theorem setContents_sub (hs : s.Layered) {h : Holder} {d : Container} {v : Value}
    (ht : (s.setContents h d).WellKept)
    (hv : ∀ b, v = .tree b → ∀ a ∈ h.opened, ¬ ReflTransGen s.Encloses b a)
    (ho : d.order ⊆ (s.contents h).order)
    (hd : ∀ k l b, d.field? k = some ⟨l, .tree b⟩ →
      (∃ m, (s.contents h).field? k = some ⟨m, .tree b⟩) ∨ v = .tree b) :
    (s.setContents h d).Layered := by
  refine hs.setContents ht hv (fun k hk g hg hm => hg (hs.apart g h k hm (ho hk))) ?_
  intro k l b hk
  exact (hd k l b hk).imp_left fun ⟨m, hm⟩ => ⟨k, m, hm⟩

theorem insert (hs : s.Layered) (h : Holder) (l : Label) (v : Value)
    {arrange : Key → List Key → List Key}
    (ha : ∀ k, (arrange k (s.contents h).order).Perm (k :: (s.contents h).order)) :
    (final (h.insert l v arrange) s).Layered := by
  have ht := hs.wellKept.insert h l v ha
  rcases h.final_insert l v s arrange with he | ⟨-, hn, he⟩ <;> rw [he] at ht ⊢
  · exact hs
  · have hc := s.contents_setNextKey (s.nextKey + 1)
    have hnext : { s with nextKey := s.nextKey + 1 }.Layered :=
      hs.congr (hs.wellKept.congr hc (Nat.le_succ _) hs.wellKept.ascending) hc
    refine hnext.setContents ht (hs.not_reach hn) (fun k hk g hg => ?_) fun k m b hk => ?_
    · rw [hc]
      rcases List.mem_cons.mp ((ha _).mem_iff.mp hk) with rfl | hk
      · exact fun hm => Nat.lt_irrefl _ (hs.wellKept.minted g _ hm)
      · exact fun hm => hg (hs.apart g h k hm hk)
    · rw [hc]
      rw [Container.field?_insert] at hk
      split at hk
      · cases hk
        exact .inr rfl
      · exact .inl ⟨k, m, hk⟩

end Layered

theorem holderClosed_layered : Holder.Closed (Keeps Layered) where
  add h l v s hs := hs.insert h l v fun k => List.perm_append_singleton k _
  addBefore h next l v s hs := by
    rcases h.final_addBefore l v s next with he | ⟨hn, he⟩ <;> rw [he]
    · exact hs
    · exact hs.insert h l v fun k =>
        Container.perm_flatMap_before k hn (hs.wellKept.contents h).order_nodup
  replaceWithin opened h k v ho s hs := by
    have ht := holderClosed_wellKept.replaceWithin opened h k v ho s hs.wellKept
    rcases h.final_replaceWithin k v s opened with he | ⟨f, hf, hn, he⟩ <;> rw [he] at ht ⊢
    · exact hs
    · refine hs.setContents_sub ht (fun b hb a ha => hs.not_reach hn b hb a (ho ha))
        (List.Subset.refl _) fun j l b hj => ?_
      rw [Container.field?_assign] at hj
      split at hj
      · cases hj
        exact .inr rfl
      · exact .inl ⟨l, hj⟩
  remove h k s hs := by
    have ht := holderClosed_wellKept.remove h k s hs.wellKept
    rcases h.final_remove k s with he | ⟨f, hf, he⟩ <;> rw [he] at ht ⊢
    · exact hs
    · refine hs.setContents_sub (v := .empty) ht nofun (List.filter_subset_self _) ?_
      intro j l b hj
      rw [Container.field?_remove] at hj
      split at hj
      · cases hj
      · exact .inl ⟨l, hj⟩
  relabel h k l s hs := by
    have ht := holderClosed_wellKept.relabel h k l s hs.wellKept
    rcases h.final_relabel k l s with he | ⟨f, hf, hl, he⟩ <;> rw [he] at ht ⊢
    · exact hs
    · refine hs.setContents_sub (v := .empty) ht nofun (List.Subset.refl _) fun j m b hj => ?_
      rw [Container.field?_rename] at hj
      obtain ⟨n, w⟩ := f
      split at hj
      · rename_i hjk
        cases hj
        exact .inl ⟨n, hjk ▸ hf⟩
      · exact .inl ⟨m, hj⟩

theorem Layered.setRecord_of_fields (hs : s.Layered) {id : RecordId} {r : Record}
    (hr : r.fields = (s.record id).fields) : (s.setRecord id r).Layered :=
  hs.congr (hs.wellKept.setRecord_of_fields hr) (contents_setRecord_of_fields hr)

theorem evalClosed_layered : Eval.Closed (OnSpace (Keeps Layered)) :=
  Eval.closed_of_marks fun _ _ _ _ hs => hs.setRecord_of_fields rfl

theorem closed_layered : Edit.Closed (Keeps Layered) where
  toClosed := holderClosed_layered
  mintKey s hs := hs.congr (closed_wellKept.mintKey s hs.wellKept) (s.contents_setNextKey _)
  newContainer s hs := by
    refine hs.of_contents (closed_wellKept.newContainer s hs.wellKept) fun h => ?_
    have hc : (final Edit.newContainer s).contents h =
        (s.setContents (.shared ⟨s.nextContainer⟩) {}).contents h := by cases h <;> rfl
    rw [hc, contents_setContents]
    split
    · exact .inr rfl
    · exact .inl rfl
  newDerived d s hs := hs.congr (closed_wellKept.newDerived d s hs.wellKept) fun h => by
    cases h <;> rfl
  newRecord name maxDepth s hs := by
    refine hs.of_contents (closed_wellKept.newRecord name maxDepth s hs.wellKept) fun h => ?_
    have hc : (final (Edit.newRecord name maxDepth) s).contents h =
        (s.setRecord ⟨s.nextRecord⟩ { name, maxDepth }).contents h := by cases h <;> rfl
    rw [hc, contents_setRecord]
    split
    · exact .inr rfl
    · exact .inl rfl
  retain s held hs :=
    hs.of_contents (hs.wellKept.retain held) (contents_retain hs.wellKept.ascending held)
  setChanges _ _ _ hs := hs.setRecord_of_fields rfl
  read id p := id.read_moves evalClosed_layered p
  evaluate id f := id.evaluate_moves evalClosed_layered f
  write id p v := id.write_moves
    (evalClosed_layered.forWrites holderClosed_layered.add holderClosed_layered.replaceWithin
      fun _ _ _ hs => hs.setRecord_of_fields rfl) p v

end Space

theorem Reachable.layered {s : Space} (h : Reachable s) : s.Layered :=
  h.of_closed Space.closed_layered .empty

end LiveRecords
