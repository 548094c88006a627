import LiveRecords.Proofs.Container.Growing
import LiveRecords.Proofs.Container.Minting
import LiveRecords.Proofs.Record.Copies

/-! # Copies unfold their source

A copy has the labels and values of its source, and in place of each container held as the value of
a field a copy of it, a new one each time. So the copy is a tree, whatever fields of the source
share.
-/

namespace LiveRecords

open Relation (ReflTransGen)

namespace Space

/-- The second fields, in `t`, are the first ones, in `s`, under whichever keys and with copies of
the containers that they hold. -/
inductive Unfolds (s t : Space) : List (Key × Field) → List (Key × Field) → Prop where
  | nil : Unfolds s t [] []
  | plain {k k' f es fs} : f.value.tree? = none → Unfolds s t es fs →
      Unfolds s t ((k, f) :: es) ((k', f) :: fs)
  | nested {k k' l i j es fs} : Unfolds s t (s.container i).entries (t.container j).entries →
      Unfolds s t es fs → Unfolds s t ((k, ⟨l, .tree i⟩) :: es) ((k', ⟨l, .tree j⟩) :: fs)

/-- `s` is preserved, and the containers made since have fields under new keys that hold containers
made since, each container being held by one field at most. -/
structure Sprouts (s t : Space) : Prop extends Preserves s t where
  layered : t.Layered
  nextKey : s.nextKey ≤ t.nextKey
  keys : ∀ {a k f}, s.New t a → (t.container a).field? k = some f → s.nextKey ≤ k.number
  new : ∀ {a b}, s.New t a → t.Encloses a b → s.New t b
  once : ∀ {a a' k k' l l' b}, s.New t a → s.New t a' →
    (t.container a).field? k = some ⟨l, .tree b⟩ → (t.container a').field? k' = some ⟨l', .tree b⟩ →
    a = a' ∧ k = k'

/-- The container has been made since `s`, and none of those made since holds it. -/
def Loose (s t : Space) (b : ContainerId) : Prop := s.New t b ∧ ∀ a, s.New t a → ¬ t.Encloses a b

/-- From `t` to `u` a copy `j` of the container `i` has been made. -/
structure Copies (s t : Space) (i j : ContainerId) (u : Space) : Prop where
  sprouts : s.Sprouts u
  kept : t.Preserves u
  loose : s.Loose u j
  unmade : ¬ t.Made (.shared j)
  stays : ∀ {b}, s.Loose t b → s.Loose u b
  unfolds : s.Unfolds u (s.container i).entries (u.container j).entries

variable {s t u w : Space} {a b i j : ContainerId} {k : Key} {f : Field} {l : Label} {v : Value}
  {es fs done items : List (Key × Field)}

namespace Unfolds

theorem labels (h : s.Unfolds t es fs) : fs.map (·.2.label) = es.map (·.2.label) := by
  induction h with
  | nil => rfl
  | plain _ _ ih => exact congrArg (_ :: ·) ih
  | nested _ _ _ ih => exact congrArg (_ :: ·) ih

theorem append {es' fs' : List (Key × Field)} (h : s.Unfolds t es fs) (h' : s.Unfolds t es' fs') :
    s.Unfolds t (es ++ es') (fs ++ fs') := by
  induction h with
  | nil => exact h'
  | plain ht _ ih => exact .plain ht ih
  | nested hinner _ _ ih => exact .nested hinner ih

theorem congr {P : ContainerId → Prop} (h : s.Unfolds t es fs)
    (hfs : ∀ {k l b}, (k, ⟨l, .tree b⟩) ∈ fs → P b) (hP : ∀ {a b}, P a → t.Encloses a b → P b)
    (hu : ∀ {a}, P a → u.container a = t.container a) : s.Unfolds u es fs := by
  induction h with
  | nil => exact .nil
  | plain ht _ ih => exact .plain ht (ih fun he => hfs (List.mem_cons_of_mem _ he))
  | nested _ _ ihinner ih =>
    have hb := hfs List.mem_cons_self
    refine .nested ?_ (ih fun he => hfs (List.mem_cons_of_mem _ he))
    rw [hu hb]
    exact ihinner fun he => hP hb ⟨_, _, (Container.mem_entries.mp he).2⟩

theorem flattens (h : s.Unfolds t es fs) (hes : s.Flattens es items) :
    ∃ items', t.Flattens fs items' ∧ items'.map (·.2) = items.map (·.2) := by
  induction h generalizing items with
  | nil =>
    cases hes
    exact ⟨[], .nil, rfl⟩
  | plain ht _ ih =>
    cases hes with
    | plain _ hes =>
      obtain ⟨items', hfs, hitems⟩ := ih hes
      exact ⟨_, .plain ht hfs, congrArg (_ :: ·) hitems⟩
    | nested => cases ht
  | nested _ _ ihinner ih =>
    cases hes with
    | plain ht => cases ht
    | nested hinner hes =>
      obtain ⟨inner', hfs, hin⟩ := ihinner hinner
      obtain ⟨items', hfs', hitems⟩ := ih hes
      exact ⟨_, .nested hfs hfs', by rw [List.map_append, List.map_append, hin, hitems]⟩

end Unfolds

theorem field?_of_add (hf : ((final ((Holder.shared a).add l v) t).container b).field? k = some f) :
    (t.container b).field? k = some f ∨ b = a ∧ k = ⟨t.nextKey⟩ ∧ f = ⟨l, v⟩ := by
  rcases (Holder.shared a).final_insert l v t fun k order => order ++ [k] with he | ⟨-, -, he⟩ <;>
    rw [Holder.add, he] at hf
  · exact .inl hf
  · rw [setContents, container_setContainer] at hf
    split at hf
    · rename_i hba
      rw [Container.field?_insert] at hf
      split at hf
      · rename_i hk
        cases hf
        exact .inr ⟨hba, hk, rfl⟩
      · exact .inl (hba ▸ hf)
    · exact .inl hf

namespace Sprouts

theorem refl (hs : s.Layered) : s.Sprouts s where
  toPreserves := .refl s
  layered := hs
  nextKey := Nat.le_refl _
  keys ha := absurd ha.2 ha.not_made
  new ha := absurd ha.2 ha.not_made
  once ha := absurd ha.2 ha.not_made

theorem reach (h : s.Sprouts t) (ha : s.New t a) (hr : ReflTransGen t.Encloses a b) :
    s.New t b := by
  induction hr with
  | refl => exact ha
  | tail _ hab ih => exact h.new ih hab

theorem newContainer (h : s.Sprouts t) :
    s.Sprouts (final Edit.newContainer t) ∧
      s.Loose (final Edit.newContainer t) ⟨t.nextContainer⟩ ∧
      ∀ {b}, s.Loose t b → s.Loose (final Edit.newContainer t) b := by
  have hgrows := closed_grows.newContainer t
  have hold : ∀ {a k f}, s.New (final Edit.newContainer t) a →
      ((final Edit.newContainer t).container a).field? k = some f →
      s.New t a ∧ (t.container a).field? k = some f := by
    intro a k f ha hf
    rcases ha.of_newContainer with ⟨-, he⟩ | ⟨ha, he⟩ <;> rw [he] at hf
    · cases hf
    · exact ⟨ha, hf⟩
  refine ⟨⟨h.toPreserves.newContainer, closed_layered.newContainer t h.layered, h.nextKey,
    fun ha hf => ?_, fun ha hab => ?_, fun ha ha' hf hf' => ?_⟩,
    ⟨newContainer_new h.toGrows, fun a ha hab => ?_⟩,
    fun hb => ⟨hb.1.grows hgrows, fun a ha hab => ?_⟩⟩
  · obtain ⟨ha, hf⟩ := hold ha hf
    exact h.keys ha hf
  · obtain ⟨k, l, hf⟩ := hab
    obtain ⟨ha, hf⟩ := hold ha hf
    exact (h.new ha ⟨k, l, hf⟩).grows hgrows
  · obtain ⟨ha, hf⟩ := hold ha hf
    obtain ⟨ha', hf'⟩ := hold ha' hf'
    exact h.once ha ha' hf hf'
  · obtain ⟨k, l, hf⟩ := hab
    obtain ⟨ha, hf⟩ := hold ha hf
    exact Nat.lt_irrefl _ (h.new ha ⟨k, l, hf⟩).2.2
  · obtain ⟨k, l, hf⟩ := hab
    obtain ⟨ha, hf⟩ := hold ha hf
    exact hb.2 a ha ⟨k, l, hf⟩

theorem add (h : s.Sprouts t) (ha : s.New t a) (l : Label) (hv : ∀ b, v = .tree b → s.Loose t b) :
    s.Sprouts (final ((Holder.shared a).add l v) t) ∧
      ∀ {b}, s.Loose t b → v ≠ .tree b → s.Loose (final ((Holder.shared a).add l v) t) b := by
  have hgrows := holderClosed_grows.add (.shared a) l v t
  have hold : ∀ {c k f}, s.New (final ((Holder.shared a).add l v) t) c →
      ((final ((Holder.shared a).add l v) t).container c).field? k = some f → s.New t c ∧
        ((t.container c).field? k = some f ∨ c = a ∧ k = ⟨t.nextKey⟩ ∧ f = ⟨l, v⟩) :=
    fun hc hf => ⟨ha.of_add hc, field?_of_add hf⟩
  refine ⟨⟨add_preserves ha.not_made l v t h.toPreserves, closed_layered.add _ l v t h.layered,
    Nat.le_trans h.nextKey (holderClosed_renews.add (.shared a) l v t h.layered.wellKept).2.nextKey,
    fun hc hf => ?_, fun hc hcb => ?_, fun hc hc' hf hf' => ?_⟩,
    fun hb hne => ⟨hb.1.grows hgrows, fun c hc hcb => ?_⟩⟩
  · obtain ⟨hc, hf | ⟨-, rfl, -⟩⟩ := hold hc hf
    · exact h.keys hc hf
    · exact h.nextKey
  · obtain ⟨k, m, hf⟩ := hcb
    obtain ⟨hc, hf | ⟨-, -, he⟩⟩ := hold hc hf
    · exact (h.new hc ⟨k, m, hf⟩).grows hgrows
    · cases he
      exact (hv _ rfl).1.grows hgrows
  · obtain ⟨hc₀, hf₀ | ⟨hca, hk, he⟩⟩ := hold hc hf <;>
      obtain ⟨hc₁, hf₁ | ⟨hca', hk', he'⟩⟩ := hold hc' hf'
    · exact h.once hc₀ hc₁ hf₀ hf₁
    · cases he'
      exact absurd ⟨_, _, hf₀⟩ ((hv _ rfl).2 _ hc₀)
    · cases he
      exact absurd ⟨_, _, hf₁⟩ ((hv _ rfl).2 _ hc₁)
    · exact ⟨hca.trans hca'.symm, hk.trans hk'.symm⟩
  · obtain ⟨k, m, hf⟩ := hcb
    obtain ⟨hc, hf | ⟨-, -, he⟩⟩ := hold hc hf
    · exact hb.2 c hc ⟨k, m, hf⟩
    · cases he
      exact hne rfl

/-- A loose container does not lie in another one that has been made since. -/
theorem not_reach (h : s.Sprouts t) (ha : s.Loose t a) (hb : s.New t b) (hba : b ≠ a) :
    ¬ ReflTransGen t.Encloses b a := by
  intro hr
  rcases hr.cases_tail with rfl | ⟨c, hbc, hca⟩
  · exact hba rfl
  · exact ha.2 c (h.reach hb hbc) hca

theorem add_run (h : s.Sprouts t) (ha : s.Loose t a) (hl : (t.container a).key? l = none)
    (hv : ∀ b, v = .tree b → s.New t b ∧ b ≠ a) :
    (Holder.shared a).add l v t = .ok ⟨t.nextKey⟩ (final ((Holder.shared a).add l v) t) ∧
      ((final ((Holder.shared a).add l v) t).container a).entries =
        (t.container a).entries ++ [(⟨t.nextKey⟩, ⟨l, v⟩)] := by
  have hlabel : (t.contents (.shared a)).hasLabel l = false :=
    (Container.hasLabel_eq_false _ l).mpr hl
  have hnests : t.nests (Holder.shared a).opened v = false := by
    rw [Bool.eq_false_iff]
    intro hn
    cases v with
    | tree b =>
      obtain ⟨c, hc, hr⟩ := h.layered.nests_iff.mp hn
      obtain rfl := List.mem_singleton.mp hc
      obtain ⟨hb, hne⟩ := hv b rfl
      exact h.not_reach ha hb hne hr
    | _ => cases hn
  have hrun := (Holder.shared a).insert_run l v (fun k order => order ++ [k]) t
  rw [hlabel, hnests, if_neg Bool.false_ne_true, if_neg Bool.false_ne_true] at hrun
  have hk : (⟨t.nextKey⟩ : Key) ∉ (t.container a).order := fun hm =>
    Nat.lt_irrefl _ (h.layered.wellKept.minted (.shared a) _ hm)
  rw [Holder.add, final_of_ok hrun]
  refine ⟨hrun, ?_⟩
  rw [setContents, container_setContainer, if_pos rfl]
  exact Container.entries_append hk

theorem unfolds (h : s.Sprouts t) (ha : s.New t a) (hu : t.Preserves u)
    (hes : s.Unfolds t es (t.container a).entries) : s.Unfolds u es (u.container a).entries := by
  have hsame : ∀ {b}, s.New t b → u.container b = t.container b := fun hb => hu.contents hb.2
  rw [hsame ha]
  exact hes.congr (fun he => h.new ha ⟨_, _, (Container.mem_entries.mp he).2⟩) h.new hsame

theorem take (h : s.Sprouts t) (ha : s.Loose t a) (hdone : s.Unfolds t done (t.container a).entries)
    (hl : (t.container a).key? l = none) (hv : ∀ b, v = .tree b → s.Loose t b ∧ b ≠ a)
    (hlast : s.Unfolds t [(k, f)] [(⟨t.nextKey⟩, ⟨l, v⟩)]) :
    ∃ u, discard ((Holder.shared a).add l v) t = .ok () u ∧ s.Sprouts u ∧
      (∀ {b}, s.Loose t b → v ≠ .tree b → s.Loose u b) ∧
      s.Unfolds u (done ++ [(k, f)]) (u.container a).entries := by
  obtain ⟨hrun, hentries⟩ := h.add_run ha hl fun b hb => ⟨(hv b hb).1.1, (hv b hb).2⟩
  obtain ⟨hsprouts, hloose⟩ := h.add ha.1 l fun b hb => (hv b hb).1
  refine ⟨_, discard_of_ok hrun, hsprouts, hloose, ?_⟩
  rw [hentries]
  refine (hdone.append hlast).congr (P := fun b => s.New t b ∧ b ≠ a) (fun {q m b} he => ?_)
    (fun {c b} hc hcb => ⟨h.new hc.1 hcb, ?_⟩) fun {b} hb => ?_
  · rcases List.mem_append.mp he with he | he
    · have hab : t.Encloses a b := ⟨_, _, (Container.mem_entries.mp he).2⟩
      refine ⟨h.new ha.1 hab, ?_⟩
      rintro rfl
      exact ha.2 b ha.1 hab
    · cases List.mem_singleton.mp he
      exact ⟨(hv b rfl).1.1, (hv b rfl).2⟩
  · rintro rfl
    exact ha.2 c hc.1 hcb
  · exact spares_insert (.shared a) l v _ t (.shared b) fun he => hb.2 (Holder.shared.inj he)

end Sprouts

end Space

open Space

variable {s t u : Space} {a i j : ContainerId} {l : Label} {v : Value}
  {es done : List (Key × Field)}

/-- A copy of a container in its place, and any other value itself. -/
def Value.copyWith (copyTree : ContainerId → Edit ContainerId) : Value → Edit Value
  | tree b => tree <$> copyTree b
  | v => pure v

theorem Holder.addCopies_cons (h : Holder) (copyTree : ContainerId → Edit ContainerId) (k : Key)
    (l : Label) (v : Value) (es : List (Key × Field)) :
    h.addCopies copyTree ((k, ⟨l, v⟩) :: es) =
      (v.copyWith copyTree >>= fun w => discard (h.add l w)) >>= fun _ =>
        h.addCopies copyTree es := by
  cases v <;> rfl

section Passes

variable {copyTree : ContainerId → Edit ContainerId}
  (hcopy : ∀ {b}, s.Encloses i b → ∀ {w}, s.Sprouts w →
    ∃ j u, copyTree b w = .ok j u ∧ s.Copies w b j u)
include hcopy

theorem exists_copied (hv : ∀ b, v = .tree b → s.Encloses i b) (ht : s.Sprouts t) (ha : s.New t a)
    (hdone : s.Unfolds t done (t.container a).entries) :
    ∃ w u, v.copyWith copyTree t = .ok w u ∧ s.Sprouts u ∧
      (∀ {b}, s.Loose t b → s.Loose u b ∧ w ≠ .tree b) ∧ (∀ b, w = .tree b → s.Loose u b) ∧
      s.Unfolds u done (u.container a).entries ∧
      ∀ k k', s.Unfolds u [(k, ⟨l, v⟩)] [(k', ⟨l, w⟩)] := by
  cases v with
  | tree b =>
    obtain ⟨j, u, hrun, hj⟩ := hcopy (hv b rfl) ht
    refine ⟨.tree j, u, ?_, hj.sprouts,
      fun hb => ⟨hj.stays hb, ?_⟩, ?_, ht.unfolds ha hj.kept hdone,
      fun _ _ => .nested hj.unfolds .nil⟩
    · simp only [Value.copyWith, Functor.map, EStateM.map, hrun]
    · rintro he
      cases he
      exact hj.unmade hb.1.2
    · rintro _ he
      cases he
      exact hj.loose
  | _ =>
    exact ⟨_, t, rfl, ht, fun hb => ⟨hb, nofun⟩, nofun, hdone, fun _ _ => .plain rfl .nil⟩

/-- One field after the other is copied into a loose container. -/
theorem Holder.addCopies_unfolds (hs : s.WellKept) (hes : (s.container i).entries = done ++ es)
    (ht : s.Sprouts t) (ha : s.Loose t a) (hdone : s.Unfolds t done (t.container a).entries) :
    ∃ u, (Holder.shared a).addCopies copyTree es t = .ok () u ∧ s.Sprouts u ∧
      (∀ {b}, s.Loose t b → s.Loose u b) ∧
      s.Unfolds u (s.container i).entries (u.container a).entries := by
  induction es generalizing done t with
  | nil =>
    rw [hes, List.append_nil]
    exact ⟨t, rfl, ht, id, hdone⟩
  | cons e es ih =>
    obtain ⟨k, l, v⟩ := e
    have hv : ∀ b, v = .tree b → s.Encloses i b := by
      rintro b rfl
      have hmem : (k, ⟨l, .tree b⟩) ∈ (s.container i).entries :=
        hes ▸ List.mem_append_right done List.mem_cons_self
      exact ⟨k, l, (Container.mem_entries.mp hmem).2⟩
    obtain ⟨w, t₁, hrun, ht₁, hstays, hw, hdone₁, hlast⟩ := exists_copied hcopy hv ht ha.1 hdone
    have hlabels : (t₁.contents (.shared a)).labels = done.map (·.2.label) := hdone₁.labels
    have hl : (t₁.container a).key? l = none :=
      (ht₁.layered.wellKept.contents (.shared a)).key?_eq_none fun hne =>
        hlabels ▸ (hs.contents (.shared i)).label_not_mem hes hne
    obtain ⟨t₂, hadd, ht₂, hstays₂, hdone₂⟩ := ht₁.take (hstays ha).1 hdone₁ hl
      (fun b hb => ⟨hw b hb, fun hba => (hstays ha).2 (hba ▸ hb)⟩) (hlast k ⟨t₁.nextKey⟩)
    have hstays' : ∀ {b}, s.Loose t b → s.Loose t₂ b := fun hb =>
      hstays₂ (hstays hb).1 (hstays hb).2
    rw [List.append_cons] at hes
    obtain ⟨u, hrest, hu, hstays₃, hdone₃⟩ := ih hes ht₂ (hstays' ha) hdone₂
    refine ⟨u, ?_, hu, fun hb => hstays₃ (hstays' hb), hdone₃⟩
    rw [Holder.addCopies_cons, bind_of_ok ((bind_of_ok hrun).trans hadd)]
    exact hrest

end Passes

/-- Copying goes by levels of nesting, into a new container each. -/
theorem ContainerId.copyWithin_copies (hs : s.WellKept) {n : Nat} (ht : s.Sprouts t)
    (hm : ∀ b, ReflTransGen s.Encloses i b → s.Made (.shared b))
    (hn : ∀ {path b}, s.Path i path b → path.length < n) :
    ∃ j u, i.copyWithin n t = .ok j u ∧ s.Copies t i j u := by
  induction n generalizing t i with
  | zero => exact absurd (hn .nil) (Nat.lt_irrefl 0)
  | succ n ih =>
    obtain ⟨hsprouts, hloose, hstays⟩ := ht.newContainer
    have hempty : (final Edit.newContainer t).container ⟨t.nextContainer⟩ = {} :=
      (container_setContainer t ⟨t.nextContainer⟩ _ {}).trans (if_pos rfl)
    have hstart : s.Unfolds (final Edit.newContainer t) []
        ((final Edit.newContainer t).container ⟨t.nextContainer⟩).entries := by
      rw [hempty]
      exact .nil
    have hcopy : ∀ {b}, s.Encloses i b → ∀ {w}, s.Sprouts w →
        ∃ j u, b.copyWithin n w = .ok j u ∧ s.Copies w b j u := fun {b} hb {w} hw =>
      ih hw (fun c hc => hm c (.head hb hc)) fun hp => Nat.lt_of_succ_lt_succ (hn (.cons hb hp))
    have hes : (s.container i).entries = [] ++ (s.container i).entries := rfl
    obtain ⟨u, hadds, hu, hloose', hunfolds⟩ :=
      Holder.addCopies_unfolds hcopy hs hes hsprouts hloose hstart
    have hrun : i.copyWithin (n + 1) t = .ok ⟨t.nextContainer⟩ u := by
      have hcopies : i.copyWithin (n + 1) t =
          ((Holder.shared ⟨t.nextContainer⟩).addCopies (copyWithin n) (t.container i).entries >>=
            fun _ => pure (⟨t.nextContainer⟩ : ContainerId)) (final Edit.newContainer t) := rfl
      have hsame : t.container i = s.container i := ht.contents (hm i .refl)
      rw [hcopies, hsame, bind_of_ok hadds]
      rfl
    refine ⟨_, u, hrun, ⟨hu, ?_, hloose' hloose, not_made_nextContainer (refl_of Grows t),
      fun hb => hloose' (hstays hb), hunfolds⟩⟩
    exact final_of_ok hrun ▸ i.copyWithin_preserves t (n + 1) t (.refl t)

/-- In `t` the container `j` is a copy of what the container `i` was in `s`: under new keys it has
the labels and values of its source, and inside it there are new containers only, each held by one
field. -/
structure Space.CopyOf (s : Space) (i : ContainerId) (t : Space) (j : ContainerId) : Prop where
  unfolds : s.Unfolds t (s.container i).entries (t.container j).entries
  keys : ∀ b k, ReflTransGen t.Encloses j b → (t.container b).holds k = true →
    s.nextKey ≤ k.number
  new : ∀ b, ReflTransGen t.Encloses j b → s.New t b
  apart : ∀ b, ReflTransGen t.Encloses j b → ¬ ReflTransGen t.Encloses i b
  once : ∀ b, ReflTransGen t.Encloses j b → b ≠ j → ∃! p : ContainerId × Key,
    ReflTransGen t.Encloses j p.1 ∧ ∃ l, (t.container p.1).field? p.2 = some ⟨l, .tree b⟩
  root : ∀ b, ReflTransGen t.Encloses j b → ¬ t.Encloses b j

theorem Space.Copies.copyOf (h : s.Copies s i j t)
    (hm : ∀ b, ReflTransGen s.Encloses i b → s.Made (.shared b)) : s.CopyOf i t j := by
  obtain ⟨hsprouts, hkept, ⟨hj, hroot⟩, -, -, hunfolds⟩ := h
  have hnew : ∀ {b}, ReflTransGen t.Encloses j b → s.New t b := fun hb => hsprouts.reach hj hb
  have hold : ∀ {b}, ReflTransGen t.Encloses i b → ReflTransGen s.Encloses i b := by
    intro b hb
    induction hb with
    | refl => exact .refl
    | @tail a b _ hab ih =>
      have hsame : t.container a = s.container a := hkept.contents (hm a ih)
      obtain ⟨k, l, hf⟩ := hab
      exact ih.tail ⟨k, l, hsame ▸ hf⟩
  refine ⟨hunfolds, fun b k hb hk => ?_, fun b hb => hnew hb,
    fun b hb hi => (hnew hb).not_made (hm b (hold hi)), fun b hb hne => ?_,
    fun b hb => hroot b (hnew hb)⟩
  · obtain ⟨f, hf⟩ := (Container.holds_iff _ k).mp hk
    exact hsprouts.keys (hnew hb) hf
  · rcases hb.cases_tail with rfl | ⟨a, ha, k, l, hf⟩
    · exact absurd rfl hne
    · refine ⟨(a, k), ⟨ha, l, hf⟩, fun p hp => ?_⟩
      obtain ⟨c, q⟩ := p
      obtain ⟨hc, m, hg⟩ := hp
      obtain ⟨rfl, rfl⟩ := hsprouts.once (hnew hc) (hnew ha) hg hf
      rfl

/-- In a reachable space, to copy a container never fails, if what lies in it has been made. It
leaves whatever has been made as it was, and what it makes is a copy: with the same labels and
values in the same order at every level, but each container held by a field copied anew. To flatten
the copy is to flatten its source. -/
theorem Reachable.copy_unfolds (h : Reachable s)
    (hm : ∀ b, ReflTransGen s.Encloses i b → s.Made (.shared b)) :
    ∃ j t, i.copy s = .ok j t ∧ (∀ g, s.Made g → t.contents g = s.contents g) ∧ t.Layered ∧
      s.CopyOf i t j ∧ t.treeFields (.shared j) = s.treeFields (.shared i) := by
  have hs := h.layered
  have hbound : ∀ {path b}, s.Path i path b → path.length < s.nestingBound := by
    intro path b hp
    obtain ⟨c, hc⟩ := Option.isSome_iff_exists.mp (hm b hp.reach).1
    exact hp.length_lt hs.acyclic (Table.mem_keys_iff.mpr ⟨c, hc⟩)
  obtain ⟨j, t, hrun, hcopies⟩ := i.copyWithin_copies hs.wellKept (.refl hs) hm hbound
  have ht := hcopies.sprouts.layered
  obtain ⟨items, hitems, hsame⟩ := hcopies.unfolds.flattens (hs.flattens (s.container i))
  refine ⟨j, t, hrun, fun g hg => hcopies.kept.contents hg, ht, hcopies.copyOf hm, ?_⟩
  have hcopy : Walk.fields t (.shared j) = items := ht.walk_fields hitems
  have hsource : Walk.fields s (.shared i) = s.flatten (s.container i) :=
    hs.walk_fields (hs.flattens _)
  rw [treeFields, hcopy, treeFields, hsource]
  have hpairs := congrArg (List.map fun f : Field => (f.label, f.value)) hsame
  rwa [List.map_map, List.map_map] at hpairs

/-- One container lies in another one twice, and besides next to it. -/
def sharedBelow : List Operation :=
  [.newContainer, .newContainer, .newContainer, .container ⟨1⟩ (.add (.name "x") (.int 1)),
    .container ⟨2⟩ (.add (.name "a") (.tree ⟨1⟩)), .container ⟨2⟩ (.add (.name "b") (.tree ⟨1⟩)),
    .container ⟨3⟩ (.add (.name "c") (.tree ⟨2⟩)), .container ⟨3⟩ (.add .empty (.tree ⟨1⟩)),
    .container ⟨3⟩ (.add (.name "y") (.list [.tree ⟨1⟩]))]

theorem sharedBelow_encloses {b : ContainerId} (h : (Space.after sharedBelow).Encloses a b) :
    b ∈ [⟨1⟩, ⟨2⟩] := by
  obtain ⟨k, l, hf⟩ := h
  have hmem := ((Reachable.after sharedBelow).wellKept.contents (.shared a)).mem_entries_iff.mpr hf
  have ha : a ∈ (Space.after sharedBelow).containers.keys :=
    mem_keys_of_holds ((Container.holds_iff _ k).mpr ⟨_, hf⟩)
  have hkeys : (Space.after sharedBelow).containers.keys = [⟨1⟩, ⟨2⟩, ⟨3⟩] := by decide
  have hall : ∀ a ∈ [⟨1⟩, ⟨2⟩, ⟨3⟩], ∀ e ∈ ((Space.after sharedBelow).contents (.shared a)).entries,
      ∀ b ∈ e.2.value.tree?, b ∈ [⟨1⟩, ⟨2⟩] := by decide
  exact hall a (hkeys ▸ ha) _ hmem b rfl

theorem copy_unfolds_sharedBelow :
    ∃ t, ContainerId.copy ⟨3⟩ (Space.after sharedBelow) = .ok ⟨4⟩ t ∧
      (t.container ⟨4⟩).entries = [(⟨11⟩, ⟨.name "c", .tree ⟨5⟩⟩), (⟨13⟩, ⟨.empty, .tree ⟨8⟩⟩),
        (⟨14⟩, ⟨.name "y", .list [.tree ⟨1⟩]⟩)] ∧
      t.treeFields (.shared ⟨4⟩) = [(.name "x", .int 1), (.name "x", .int 1),
        (.name "x", .int 1), (.name "y", .list [.tree ⟨1⟩])] ∧
      (Space.after sharedBelow).CopyOf ⟨3⟩ t ⟨4⟩ := by
  have hm : ∀ b, ReflTransGen (Space.after sharedBelow).Encloses ⟨3⟩ b →
      (Space.after sharedBelow).Made (.shared b) := by
    intro b hb
    have hmem : b ∈ [⟨1⟩, ⟨2⟩, ⟨3⟩] := by
      rcases hb.cases_tail with rfl | ⟨a, -, hab⟩
      · exact List.mem_cons_of_mem _ (List.mem_cons_of_mem _ List.mem_cons_self)
      · exact List.mem_append_left [⟨3⟩] (sharedBelow_encloses hab)
    have hmade : ∀ b ∈ [⟨1⟩, ⟨2⟩, ⟨3⟩], (Space.after sharedBelow).containers.contains b = true ∧
        b.number < (Space.after sharedBelow).nextContainer := by decide
    exact hmade b hmem
  obtain ⟨j, t, hrun, -, -, hcopy, hfields⟩ := (Reachable.after sharedBelow).copy_unfolds hm
  have hj : answer (ContainerId.copy ⟨3⟩) (Space.after sharedBelow) = some ⟨4⟩ := by
    decide +kernel
  obtain ⟨t', ht'⟩ := answer_eq_some_iff.mp hj
  rw [hrun] at ht'
  cases ht'
  refine ⟨t, hrun, ?_, hfields.trans (by decide +kernel), hcopy⟩
  rw [← final_of_ok hrun]
  decide +kernel

end LiveRecords
