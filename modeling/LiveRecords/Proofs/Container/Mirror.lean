import LiveRecords.Proofs.Container.Ledger
import LiveRecords.Proofs.Container.Lookup

/-! # Holders follow their ledgers

The fields of a holder in order, with the next key, are its ledger. Every operation on the holder
answers and changes its fields as the operation on the ledger says, and all that can be observed
of the holder is told by its ledger.
-/

namespace LiveRecords

open Relation (ReflTransGen)

namespace Container

/-- What can be looked up in the fields by themselves. -/
def ledger (c : Container) (next : Nat) : Ledger := ⟨c.entries, next⟩

variable {c d : Container} {k j : Key} {f g : Field} {l : Label} {next : Nat}

theorem mem_entries : (k, f) ∈ c.entries ↔ k ∈ c.order ∧ c.field? k = some f := by
  simp only [entries, List.mem_filterMap, Option.map_eq_some_iff, Prod.mk.injEq]
  constructor
  · rintro ⟨j, hj, g, hg, rfl, rfl⟩
    exact ⟨hj, hg⟩
  · rintro ⟨hk, hf⟩
    exact ⟨k, hk, f, hf, rfl, rfl⟩

theorem entries_insert (order : List Key) :
    (c.insert k f order).entries =
      order.filterMap fun j => if j = k then some (k, f) else (c.field? j).map (j, ·) := by
  change order.filterMap _ = _
  refine List.filterMap_congr fun j _ => ?_
  rw [field?_insert]
  split
  · rename_i hj
    rw [hj]
    rfl
  · rfl

theorem filterMap_insert {js : List Key} (hk : k ∉ js) :
    (js.filterMap fun j => if j = k then some (k, f) else (c.field? j).map (j, ·)) =
      js.filterMap fun j => (c.field? j).map (j, ·) :=
  List.filterMap_congr fun j hj => if_neg fun (e : j = k) => hk (e ▸ hj)

theorem entries_append (hk : k ∉ c.order) :
    (c.insert k f (c.order ++ [k])).entries = c.entries ++ [(k, f)] := by
  rw [entries_insert, List.filterMap_append, filterMap_insert hk]
  simp [entries]

/-- Where one field changes in its place, so it does in the ledger. -/
theorem ledger_put (hk : c.field? k = some f) (ho : d.order = c.order)
    (hd : ∀ j, d.field? j = if j = k then some g else c.field? j) :
    d.ledger next = (c.ledger next).put k g := by
  have he : d.entries = c.entries.map fun e => if e.1 = k then (k, g) else e := by
    rw [entries, entries, List.map_filterMap, ho]
    refine List.filterMap_congr fun j hj => ?_
    rw [hd]
    by_cases hjk : j = k
    · simp [hjk, hk]
    · cases hf : c.field? j <;> simp [hjk]
  rw [ledger, he]
  rfl

theorem ledger_assign (hk : c.field? k = some f) (v : Value) :
    (c.assign k f v).ledger next = (c.ledger next).put k { f with value := v } :=
  ledger_put hk rfl fun j => c.field?_assign k j f v

theorem ledger_rename (hk : c.field? k = some f) (l : Label) :
    (c.rename k f l).ledger next = (c.ledger next).put k { f with label := l } :=
  ledger_put hk rfl fun j => c.field?_rename k j f l

theorem ledger_drop (f : Field) : (c.remove k f).ledger next = (c.ledger next).drop k := by
  have he : (c.remove k f).entries = c.entries.filter (·.1 ≠ k) := by
    have ho : (c.remove k f).order = c.order.filter (· ≠ k) := rfl
    rw [entries, entries, ho, List.filter_filterMap, List.filterMap_filter]
    refine List.filterMap_congr fun j _ => ?_
    rw [field?_remove]
    by_cases hj : j = k
    · cases hf : c.field? j <;> simp [hj, Option.filter_some]
    · cases hf : c.field? j <;> simp [hj, Option.filter_some]
  rw [ledger, he]
  rfl

namespace WellKept

variable (h : c.WellKept)
include h

theorem mem_entries_iff : (k, f) ∈ c.entries ↔ c.field? k = some f :=
  mem_entries.trans ⟨And.right, fun hf => ⟨h.mem_of_field? hf, hf⟩⟩

theorem keys_entries : c.entries.map (·.1) = c.order := by
  rw [entries, List.map_filterMap]
  refine (List.filterMap_congr fun k hk => ?_).trans List.filterMap_some
  obtain ⟨f, hf⟩ := (h.mem_order_iff k).mp hk
  simp [hf]

theorem key?_eq_none (hl : l ≠ .empty → l ∉ c.labels) : c.key? l = none := by
  rw [Option.eq_none_iff_forall_ne_some]
  intro k hk
  obtain ⟨hne, v, hf⟩ := (h.key?_iff l k).mp hk
  exact hl hne (List.mem_map_of_mem (h.mem_entries_iff.mpr hf))

theorem label_not_mem {done es : List (Key × Field)} {v : Value}
    (hes : c.entries = done ++ (k, ⟨l, v⟩) :: es) (hl : l ≠ .empty) :
    l ∉ done.map (·.2.label) := by
  have hmem : ∀ {e}, e ∈ done ++ (k, ⟨l, v⟩) :: es → c.field? e.1 = some e.2 :=
    fun he => (Container.mem_entries.mp (hes ▸ he)).2
  intro hm
  obtain ⟨⟨q, g⟩, hq, rfl⟩ := List.mem_map.mp hm
  have hk : c.field? k = some ⟨g.label, v⟩ :=
    hmem (List.mem_append_right done List.mem_cons_self)
  obtain rfl : q = k := h.label_unique hk (hmem (List.mem_append_left _ hq)) hl rfl
  have hnodup : (c.entries.map (·.1)).Nodup := h.keys_entries ▸ h.order_nodup
  rw [hes, List.map_append] at hnodup
  exact List.disjoint_of_nodup_append hnodup (List.mem_map_of_mem hq) List.mem_cons_self

theorem ledger_field? (k : Key) : (c.ledger next).field? k = c.field? k := by
  unfold Ledger.field? ledger
  cases hfind : c.entries.find? (·.1 = k) with
  | some e =>
    have hk : e.1 = k := by simpa using List.find?_some hfind
    have hf := h.mem_entries_iff.mp (List.mem_of_find?_eq_some hfind)
    rw [← hk, hf]
    rfl
  | none =>
    refine (Option.eq_none_iff_forall_ne_some.mpr fun f hf => ?_).symm
    have := List.find?_eq_none.mp hfind _ (h.mem_entries_iff.mpr hf)
    simp at this

theorem ledger_labelled? (l : Label) :
    (c.ledger next).labelled? l = (c.key? l).bind fun k => (c.field? k).map (k, ·) := by
  unfold Ledger.labelled? ledger
  split
  · rename_i hl
    have hk : c.key? l = none := Option.eq_none_iff_forall_ne_some.mpr fun k hk =>
      ((h.key?_iff l k).mp hk).1 hl
    rw [hk]
    rfl
  · rename_i hl
    cases hfind : c.entries.find? (·.2.label = l) with
    | some e =>
      have hel : e.2.label = l := by simpa using List.find?_some hfind
      have hf := h.mem_entries_iff.mp (List.mem_of_find?_eq_some hfind)
      rw [← hel, h.key?_of_field? hf (hel ▸ hl), Option.bind_some, hf]
      rfl
    | none =>
      have hk : c.key? l = none := Option.eq_none_iff_forall_ne_some.mpr fun k hk => by
        obtain ⟨-, v, hv⟩ := (h.key?_iff l k).mp hk
        have := List.find?_eq_none.mp hfind _ (h.mem_entries_iff.mpr hv)
        simp at this
      rw [hk]
      rfl

theorem ledger_key? (l : Label) : (c.ledger next).key? l = c.key? l := by
  rw [Ledger.key?, h.ledger_labelled?]
  cases hk : c.key? l with
  | none => rfl
  | some k =>
    obtain ⟨-, v, hv⟩ := (h.key?_iff l k).mp hk
    rw [Option.bind_some, hv]
    rfl

theorem ledger_last (hk : c.field? ⟨next⟩ = none) :
    (c.insert ⟨next⟩ f (c.order ++ [⟨next⟩])).ledger (next + 1) =
      (c.ledger next).enter f Ledger.last := by
  have hko : ⟨next⟩ ∉ c.order := by simp [h.mem_order_iff, hk]
  rw [ledger, entries_append hko]
  rfl

theorem ledger_before {at' : Key} (hn : at' ∈ c.order) (hk : c.field? ⟨next⟩ = none) :
    (c.insert ⟨next⟩ f (c.order.flatMap fun j => if j = at' then [⟨next⟩, j] else [j])).ledger
      (next + 1) = (c.ledger next).enter f (Ledger.before at') := by
  have hko : ⟨next⟩ ∉ c.order := by simp [h.mem_order_iff, hk]
  obtain ⟨g, hg⟩ := (h.mem_order_iff at').mp hn
  obtain ⟨front, back, ho⟩ := List.append_of_mem hn
  have hd := h.order_nodup
  rw [ho] at hd hko
  have hentries : c.entries = front.filterMap (fun j => (c.field? j).map (j, ·)) ++
      (at', g) :: back.filterMap fun j => (c.field? j).map (j, ·) := by
    rw [entries, ho, List.filterMap_append, List.filterMap_cons]
    simp [hg]
  have hfront : ∀ e ∈ front.filterMap (fun j => (c.field? j).map (j, ·)),
      decide (e.1 ≠ at') = true := by
    rintro ⟨j, f⟩ he
    obtain ⟨i, hi, he⟩ := List.mem_filterMap.mp he
    obtain ⟨_, _, he⟩ := Option.map_eq_some_iff.mp he
    cases he
    rw [List.nodup_middle, List.nodup_cons] at hd
    exact decide_eq_true fun e => hd.1 (e ▸ List.mem_append_left back hi)
  have hback : ⟨next⟩ ∉ at' :: back := fun hm => hko (List.mem_append_right front hm)
  have he : (c.insert ⟨next⟩ f (c.order.flatMap fun j =>
      if j = at' then [⟨next⟩, j] else [j])).entries = Ledger.before at' (⟨next⟩, f) c.entries := by
    rw [entries_insert, ho, flatMap_before ⟨next⟩ hd, List.filterMap_append,
      filterMap_insert fun hm => hko (List.mem_append_left _ hm), List.filterMap_cons, if_pos rfl,
      filterMap_insert hback, Ledger.before, hentries, List.takeWhile_append_of_pos hfront,
      List.dropWhile_append_of_pos hfront, List.filterMap_cons]
    simp [hg]
  rw [ledger, he]
  rfl

end WellKept

end Container

/-- An outcome, with no more of the space than `view` shows. -/
def seen {α : Type} (view : Space → Ledger) :
    EStateM.Result Fault Space α → EStateM.Result Fault Ledger α
  | .ok a t => .ok a (view t)
  | .error e t => .error e (view t)

theorem seen_map {α β : Type} {view : Space → Ledger} {m : Edit α} {n : EStateM Fault Ledger α}
    {s : Space} {L : Ledger} (f : α → β) (h : seen view (m s) = n L) :
    seen view ((f <$> m) s) = (f <$> n) L := by
  cases hm : m s <;> rw [hm] at h <;> simp [Functor.map, EStateM.map, hm, ← h, seen]

namespace Space

/-- The fields of `g` in order, with the next key. -/
def ledger (s : Space) (g : Holder) : Ledger := (s.contents g).ledger s.nextKey

/-- What the fields of `g` do not tell. -/
def surroundings (s : Space) (g : Holder) : Surroundings where
  bars := s.nests g.opened
  below k := (s.locate (s.contents g) k).map fun path => s.nests (g.opened ++ path)

/-- Only `g` changes, of all holders. -/
def Spares (g : Holder) (s t : Space) : Prop := ∀ h ≠ g, t.contents h = s.contents h

variable {s t : Space} {g : Holder} {k : Key} {l : Label} {v : Value}

instance : IsPreorder Space (Spares g) where
  refl _ _ _ := rfl
  trans _ _ _ h h' j hj := (h' j hj).trans (h j hj)

theorem spares_setContents (s : Space) (g : Holder) (c : Container) :
    Spares g s (s.setContents g c) := fun h hg => by
  rw [contents_setContents, if_neg hg]

theorem ledger_setContents (s : Space) (g : Holder) (c : Container) :
    (s.setContents g c).ledger g = c.ledger s.nextKey := by
  have hn : (s.setContents g c).nextKey = s.nextKey := by cases g <;> rfl
  rw [ledger, contents_setContents, if_pos rfl, hn]

theorem ledger_setContents_of_ne {h : Holder} (hg : g ≠ h) (c : Container) :
    (s.setContents h c).ledger g = s.ledger g := by
  have hn : (s.setContents h c).nextKey = s.nextKey := by cases h <;> rfl
  rw [ledger, contents_setContents, if_neg hg, hn]
  rfl

theorem reach_of_spares {a b : ContainerId} (h : Spares (.shared a) s t)
    (hr : ReflTransGen s.Encloses b a) : ReflTransGen t.Encloses b a := by
  induction hr using ReflTransGen.head_induction_on with
  | refl => exact .refl
  | @head b c hbc _ ih =>
    by_cases hb : b = a
    · exact hb ▸ .refl
    · have hc : t.container b = s.container b := h (.shared b) fun e => hb (Holder.shared.inj e)
      obtain ⟨k, l, hf⟩ := hbc
      exact .head ⟨k, l, hc ▸ hf⟩ ih

theorem nests_of_spares (hs : s.Layered) (ht : t.Layered) (h : Spares g s t) :
    t.nests g.opened = s.nests g.opened := by
  funext v
  cases v with
  | tree b =>
    rw [Bool.eq_iff_iff, ht.nests_iff, hs.nests_iff]
    cases g with
    | record id => simp [Holder.opened]
    | shared a =>
      have hback : Spares (.shared a) t s := fun j hj => (h j hj).symm
      simp only [Holder.opened, List.mem_singleton, exists_eq_left]
      exact ⟨reach_of_spares hback, reach_of_spares h⟩
  | _ => rfl

/-- Run on `g`, the edit comes to what the other program comes to on the ledger. -/
structure Mirrors {α : Type} (g : Holder) (env : Surroundings) (m : Edit α)
    (n : EStateM Fault Ledger α) : Prop where
  seen : ∀ s, s.Layered → s.nests g.opened = env.bars →
    LiveRecords.seen (·.ledger g) (m s) = n (s.ledger g)
  layered : Moves (Keeps Layered) m
  spares : Moves (Spares g) m

namespace Mirrors

variable {α β : Type} {env : Surroundings} {m : Edit α} {n : EStateM Fault Ledger α}

theorem pure (a : α) : Mirrors g env (Pure.pure a) (Pure.pure a) :=
  ⟨fun _ _ _ => rfl, moves_pure a, moves_pure a⟩

theorem bind {f : α → Edit β} {f' : α → EStateM Fault Ledger β} (h : Mirrors g env m n)
    (hf : ∀ a, Mirrors g env (f a) (f' a)) : Mirrors g env (m >>= f) (n >>= f') := by
  refine ⟨fun s hs hb => ?_, h.layered.bind fun a => (hf a).layered,
    h.spares.bind fun a => (hf a).spares⟩
  have hseen := h.seen s hs hb
  have hl := h.layered s hs
  have hsp := h.spares s
  cases hm : m s with
  | ok a t =>
    rw [hm] at hseen
    rw [final_of_ok hm] at hl hsp
    rw [bind_of_ok hm, bind_of_ok hseen.symm]
    -- `env` was read off before `m`, which may since have changed what `g` encloses.
    exact (hf a).seen t hl ((nests_of_spares hs hl hsp).trans hb)
  | error e t =>
    rw [hm] at hseen
    rw [bind_of_error hm, bind_of_error hseen.symm]
    rfl

theorem map (f : α → β) (h : Mirrors g env m n) : Mirrors g env (f <$> m) (f <$> n) :=
  h.bind fun a => .pure (f a)

theorem discard (h : Mirrors g env m n) : Mirrors g env (discard m) (discard n) := h.map _

theorem forM {ι : Type} {f : ι → Edit Unit} {f' : ι → EStateM Fault Ledger Unit} (l : List ι)
    (h : ∀ i, Mirrors g env (f i) (f' i)) : Mirrors g env (l.forM f) (l.forM f') := by
  induction l with
  | nil => exact .pure ()
  | cons i l ih => exact (h i).bind fun _ => ih

end Mirrors

section Operations

theorem Layered.ledger_field? (hs : s.Layered) (g : Holder) (k : Key) :
    (s.ledger g).field? k = (s.contents g).field? k :=
  (hs.wellKept.contents g).ledger_field? k

theorem Layered.ledger_key? (hs : s.Layered) (g : Holder) (l : Label) :
    (s.ledger g).key? l = (s.contents g).key? l :=
  (hs.wellKept.contents g).ledger_key? l

theorem spares_insert (g : Holder) (l : Label) (v : Value) (arrange : Key → List Key → List Key) :
    Moves (Spares g) (g.insert l v arrange) := by
  intro s
  rcases g.final_insert l v s arrange with he | ⟨-, -, he⟩ <;> rw [he]
  · exact refl_of (Spares g) s
  · exact fun h hg => (spares_setContents _ g _ h hg).trans (s.contents_setNextKey _ h)

/-- Where `arrange` puts a new key, `arrange'` puts the new entry. -/
theorem seen_insert (hs : s.Layered) (env : Surroundings) (hb : s.nests g.opened = env.bars)
    (l : Label) (v : Value) {arrange : Key → List Key → List Key}
    {arrange' : Key × Field → List (Key × Field) → List (Key × Field)}
    (ha : (s.contents g).field? ⟨s.nextKey⟩ = none →
      ((s.contents g).insert ⟨s.nextKey⟩ ⟨l, v⟩ (arrange ⟨s.nextKey⟩ (s.contents g).order)).ledger
        (s.nextKey + 1) = (s.ledger g).enter ⟨l, v⟩ arrange') :
    LiveRecords.seen (·.ledger g) (g.insert l v arrange s) =
      Ledger.insert env l v arrange' (s.ledger g) := by
  have hl : (s.contents g).hasLabel l = ((s.ledger g).key? l).isSome := by
    rw [hs.ledger_key?]
    rfl
  rw [Holder.insert_run, Ledger.insert, hl, hb]
  by_cases hk : ((s.ledger g).key? l).isSome = true
  · rw [if_pos hk, if_pos hk]
    rfl
  · rw [if_neg hk, if_neg hk]
    by_cases hv : env.bars v = true
    · rw [if_pos hv, if_pos hv]
      rfl
    · rw [if_neg hv, if_neg hv, LiveRecords.seen, ledger_setContents, ha (hs.wellKept.fresh g)]
      rfl

variable (env : Surroundings)

theorem mirrors_add (g : Holder) (l : Label) (v : Value) :
    Mirrors g env (g.add l v) (Ledger.insert env l v Ledger.last) where
  seen _ hs hb := seen_insert hs env hb l v (hs.wellKept.contents g).ledger_last
  layered := holderClosed_layered.add g l v
  spares := spares_insert g l v _

theorem mirrors_addBefore (g : Holder) (next : Key) (l : Label) (v : Value) :
    Mirrors g env (g.addBefore next l v) (Ledger.addBefore env next l v) where
  seen s hs hb := by
    have hc := hs.wellKept.contents g
    have hn : ((s.ledger g).field? next).isSome = true ↔ next ∈ (s.contents g).order := by
      rw [hs.ledger_field?, hc.mem_order]
      exact Iff.rfl
    rw [Holder.addBefore_run, Ledger.addBefore]
    by_cases ho : next ∈ (s.contents g).order
    · rw [if_pos ho, if_pos (hn.mpr ho)]
      exact seen_insert hs env hb l v (hc.ledger_before ho)
    · rw [if_neg ho, if_neg fun h => ho (hn.mp h)]
      rfl
  layered := holderClosed_layered.addBefore g next l v
  spares s := by
    rcases g.final_addBefore l v s next with he | ⟨-, he⟩ <;> rw [he]
    · exact refl_of (Spares g) s
    · exact spares_insert g l v _ s

theorem mirrors_replace (g : Holder) (k : Key) (v : Value) :
    Mirrors g env (g.replace k v) (Ledger.replace env k v) where
  seen s hs hb := by
    rw [Holder.replace, Holder.replaceWithin_run, Ledger.replace, hs.ledger_field?, hb]
    cases hf : (s.contents g).field? k with
    | none => rfl
    | some f =>
      dsimp only
      by_cases hv : env.bars v = true
      · rw [if_pos hv, if_pos hv]
        rfl
      · rw [if_neg hv, if_neg hv, LiveRecords.seen, ledger_setContents,
          Container.ledger_assign hf]
        rfl
  layered := holderClosed_layered.replace g k v
  spares s := by
    rw [Holder.replace]
    rcases g.final_replaceWithin k v s g.opened with he | ⟨f, -, -, he⟩ <;> rw [he]
    · exact refl_of (Spares g) s
    · exact spares_setContents s g _

theorem mirrors_remove (g : Holder) (k : Key) :
    Mirrors g env (g.remove k) (Ledger.remove k) where
  seen s hs _ := by
    rw [Holder.remove_run, Ledger.remove, hs.ledger_field?]
    cases hf : (s.contents g).field? k with
    | none => rfl
    | some f =>
      dsimp only
      rw [LiveRecords.seen, ledger_setContents, Container.ledger_drop]
      rfl
  layered := holderClosed_layered.remove g k
  spares s := by
    rcases g.final_remove k s with he | ⟨f, -, he⟩ <;> rw [he]
    · exact refl_of (Spares g) s
    · exact spares_setContents s g _

theorem mirrors_relabel (g : Holder) (k : Key) (l : Label) :
    Mirrors g env (g.relabel k l) (Ledger.relabel k l) where
  seen s hs _ := by
    have hl : (s.contents g).hasLabel l = ((s.ledger g).key? l).isSome := by
      rw [hs.ledger_key?]
      rfl
    rw [Holder.relabel_run, Ledger.relabel, hs.ledger_field?, hl]
    cases hf : (s.contents g).field? k with
    | none => rfl
    | some f =>
      dsimp only
      by_cases hfl : f.label = l
      · rw [if_pos hfl, if_pos hfl]
        rfl
      · rw [if_neg hfl, if_neg hfl]
        by_cases hk : ((s.ledger g).key? l).isSome = true
        · rw [if_pos hk, if_pos hk]
          rfl
        · rw [if_neg hk, if_neg hk, LiveRecords.seen, ledger_setContents,
            Container.ledger_rename hf]
          rfl
  layered := holderClosed_layered.relabel g k l
  spares s := by
    rcases g.final_relabel k l s with he | ⟨f, -, -, he⟩ <;> rw [he]
    · exact refl_of (Spares g) s
    · exact spares_setContents s g _

theorem mirrors_store (g : Holder) (k : Key) (v : Value) :
    Mirrors g env (do discard (g.replace k v); return k) (Ledger.store env k v) :=
  (mirrors_replace env g k v).discard.bind fun _ => .pure k

theorem mirrors_assignLabel (g : Holder) (l : Label) (v : Value) :
    Mirrors g env (g.assign (.label l) v) (Ledger.assign env (.label l) v) where
  seen s hs hb := by
    rw [Holder.assign, bind_of_ok (Holder.contents_run g s), Ledger.assign]
    dsimp only
    rw [hs.ledger_key?]
    cases (s.contents g).key? l with
    | some k => exact (mirrors_store env g k v).seen s hs hb
    | none => exact (mirrors_add env g l v).seen s hs hb
  layered := holderClosed_layered.assign g (.label l) v
  spares := by
    have hc : Moves (Spares g) g.contents := moves_of_final fun _ => rfl
    refine hc.bind fun c => ?_
    dsimp only
    split
    · exact (mirrors_store env g _ v).spares
    · exact (mirrors_add env g l v).spares

theorem mirrors_change (g : Holder) (k : Key) (l : Label) (v : Value) :
    Mirrors g env (g.change k l v) (Ledger.change env k l v) :=
  (mirrors_relabel env g k l).bind fun _ => (mirrors_replace env g k v).discard

theorem mirrors_assignAll (g : Holder) (fields : List (Label × Value)) (ignore : List Label) :
    Mirrors g env (g.assignAll fields ignore) (Ledger.assignAll env fields ignore) := by
  refine .forM fields fun e => ?_
  dsimp only
  split
  · exact .pure _
  · exact (mirrors_assignLabel env g e.1 e.2).discard

theorem mirrors_clearLabel (g : Holder) (l : Label) :
    Mirrors g env (g.clear (.label l)) (Ledger.clear env (.label l)) where
  seen s hs hb := by
    rw [Holder.clear, bind_of_ok (Holder.contents_run g s), Ledger.clear, hs.ledger_key?,
      Container.key]
    cases (s.contents g).key? l with
    | some k => exact (mirrors_store env g k .empty).seen s hs hb
    | none => rfl
  layered := holderClosed_layered.clear g (.label l)
  spares := by
    have hc : Moves (Spares g) g.contents := moves_of_final fun _ => rfl
    refine hc.bind fun c => (moves_ofExcept _).bind fun k => ?_
    exact (mirrors_store env g k .empty).spares

theorem Layered.seen_assignKey (hs : s.Layered) (g : Holder) (k : Key) (v : Value) :
    LiveRecords.seen (·.ledger g) (g.assign (.key k) v s) =
      Ledger.assign (s.surroundings g) (.key k) v (s.ledger g) := by
  rw [Ledger.assign, hs.ledger_field?]
  by_cases hk : (s.contents g).holds k = true
  · have hown : g.assign (.key k) v s =
        (do discard (g.replace k v); return k : Edit Key) s := by
      rw [assign_key_eq (s.locate_of_holds k hk), List.append_nil]
      rfl
    rw [if_pos (by exact hk), hown]
    exact (mirrors_store (s.surroundings g) g k v).seen s hs rfl
  · rw [if_neg (by exact hk)]
    cases hp : s.locate (s.contents g) k with
    | none =>
      rw [assign_key_of_locate hp]
      simp only [surroundings, hp, Option.map_none]
      rfl
    | some path =>
      have hholds := (leads_of_locate hs.wellKept hp).2
      obtain ⟨f, hf⟩ := (Container.holds_iff _ k).mp hholds
      have hne : g ≠ g.target path := fun he => hk (he ▸ hholds)
      rw [assign_key_run hp hf]
      simp only [surroundings, hp, Option.map_some]
      by_cases hv : s.nests (g.opened ++ path) v = true
      · rw [if_pos hv, if_pos hv]
        rfl
      · rw [if_neg hv, if_neg hv, LiveRecords.seen, ledger_setContents_of_ne hne]

end Operations

end Space

/-- The operation with its answer. -/
def ContainerOp.reply (g : Holder) : ContainerOp → Edit Reply
  | add l v => .key <$> g.add l v
  | addBefore next l v => .key <$> g.addBefore next l v
  | assign p v => .key <$> g.assign p v
  | replace k v => .value <$> g.replace k v
  | clear p => .key <$> g.clear p
  | remove k => .field <$> g.remove k
  | relabel k l => (fun _ => .done) <$> g.relabel k l
  | change k l v => (fun _ => .done) <$> g.change k l v
  | assignAll fields ignore => (fun _ => .done) <$> g.assignAll fields ignore

theorem ContainerOp.discard_reply (g : Holder) (op : ContainerOp) :
    discard (op.reply g) = op.run g := by
  cases op with
  | relabel k l => exact (discard_map _ _).trans (discard_unit _)
  | change k l v => exact (discard_map _ _).trans (discard_unit _)
  | assignAll fields ignore => exact (discard_map _ _).trans (discard_unit _)
  | _ => exact discard_map _ _

namespace Space

variable {s : Space}

/-- One operation answers and changes the fields as it does on the ledger. -/
theorem Layered.seen_reply (hs : s.Layered) (g : Holder) (op : ContainerOp) :
    LiveRecords.seen (·.ledger g) (op.reply g s) = op.book (s.surroundings g) (s.ledger g) := by
  have mirrored : ∀ {α : Type} {m : Edit α} {n : EStateM Fault Ledger α} (f : α → Reply),
      Mirrors g (s.surroundings g) m n →
      LiveRecords.seen (·.ledger g) ((f <$> m) s) = (f <$> n) (s.ledger g) :=
    fun f h => seen_map f (h.seen s hs rfl)
  cases op with
  | add l v => exact mirrored _ (mirrors_add _ g l v)
  | addBefore next l v => exact mirrored _ (mirrors_addBefore _ g next l v)
  | assign p v =>
    cases p with
    | label l => exact mirrored _ (mirrors_assignLabel _ g l v)
    | key k => exact seen_map _ (hs.seen_assignKey g k v)
  | replace k v => exact mirrored _ (mirrors_replace _ g k v)
  | clear p =>
    cases p with
    | label l => exact mirrored _ (mirrors_clearLabel _ g l)
    | key k => exact seen_map _ (hs.seen_assignKey g k .empty)
  | remove k => exact mirrored _ (mirrors_remove _ g k)
  | relabel k l => exact mirrored _ (mirrors_relabel _ g k l)
  | change k l v => exact mirrored _ (mirrors_change _ g k l v)
  | assignAll fields ignore => exact mirrored _ (mirrors_assignAll _ g fields ignore)

end Space

end LiveRecords
