import LiveRecords.Proofs.Container.Acyclic

/-! # Storing containers

A value is stored in a container by way of that container or of one that has it nested inside.
Labels in use and missing keys aside, storing a container is refused just when it would come to
lie inside itself.
-/

namespace LiveRecords

open Relation (ReflTransGen)

/-- The ways of storing a value by way of a container. -/
inductive Storing where
  | add (l : Label)
  | addBefore (next : Key) (l : Label)
  | assign (p : Place)
  | replace (k : Key)
  | change (k : Key) (l : Label)

def Storing.op (v : Value) : Storing → ContainerOp
  | add l => .add l v
  | addBefore next l => .addBefore next l v
  | assign p => .assign p v
  | replace k => .replace k v
  | change k l => .change k l v

/-- With no label in the way and no key missing, what is stored by way of `r` goes into `c`. -/
inductive Storing.Into (s : Space) (r : ContainerId) : Storing → ContainerId → Prop where
  | add {l} : (s.container r).key? l = none → Into s r (.add l) r
  | addBefore {next l} : next ∈ (s.container r).order → (s.container r).key? l = none →
      Into s r (.addBefore next l) r
  | assignLabel {l} : Into s r (.assign (.label l)) r
  | assignKey {k c} : ReflTransGen s.Encloses r c → (s.container c).holds k = true →
      Into s r (.assign (.key k)) c
  | replace {k} : (s.container r).holds k = true → Into s r (.replace k) r
  | change {k f l} : (s.container r).field? k = some f →
      f.label = l ∨ (s.container r).key? l = none → Into s r (.change k l) r

variable {α : Type}

/-- Run in `s`, the edit puts the container `b` into `c`, and refuses to just when `c` is `b` or
lies inside it. -/
structure Space.PutsIn (s : Space) (m : Edit α) (b c : ContainerId) : Prop where
  refuses : ReflTransGen s.Encloses b c → ∃ t, m s = .error (.refused .selfNesting) t
  stores : ¬ ReflTransGen s.Encloses b c → ∃ a t, m s = .ok a t ∧ t.Encloses c b

/-- A fault over a missing key or a label in use. -/
def Fault.isMisplaced : Fault → Bool
  | notFound _ => true
  | refused (.labelInUse _) => true
  | _ => false

namespace Space

variable {s t : Space} {b c r : ContainerId} {k : Key} {l : Label} {opened : List ContainerId}

theorem PutsIn.congr {m n : Edit α} (h : s.PutsIn n b c) (he : m s = n s) : s.PutsIn m b c :=
  ⟨he ▸ h.refuses, he ▸ h.stores⟩

theorem PutsIn.after {β : Type} {m : Edit α} {f : α → Edit β} {a : α} (hm : m s = .ok a t)
    (he : t.Encloses = s.Encloses) (h : t.PutsIn (f a) b c) : s.PutsIn (m >>= f) b c := by
  constructor
  · intro hr
    obtain ⟨u, hu⟩ := h.refuses (he ▸ hr)
    exact ⟨u, by rw [bind_of_ok hm, hu]⟩
  · intro hr
    obtain ⟨d, u, hu, hb⟩ := h.stores (he ▸ hr)
    exact ⟨d, u, by rw [bind_of_ok hm, hu], hb⟩

theorem PutsIn.map {β : Type} {m : Edit α} (h : s.PutsIn m b c) (g : α → β) :
    s.PutsIn (m >>= fun a => pure (g a)) b c := by
  constructor
  · intro hr
    obtain ⟨t, ht⟩ := h.refuses hr
    exact ⟨t, bind_of_error ht⟩
  · intro hr
    obtain ⟨a, t, ht, hb⟩ := h.stores hr
    exact ⟨g a, t, bind_of_ok ht, hb⟩

theorem PutsIn.discard {m : Edit α} (h : s.PutsIn m b c) : s.PutsIn (discard m) b c :=
  h.map fun _ => PUnit.unit

/-- An edit that is refused for `b` having an open container inside, all of them being on the way
to `c`, which is open itself. -/
theorem Layered.putsIn (hs : s.Layered) {m : Edit α} (hc : c ∈ opened)
    (ho : ∀ a ∈ opened, ReflTransGen s.Encloses a c)
    (hr : s.nests opened (.tree b) = true → ∃ t, m s = .error (.refused .selfNesting) t)
    (hn : s.nests opened (.tree b) = false → ∃ a t, m s = .ok a t ∧ t.Encloses c b) :
    s.PutsIn m b c := by
  have hiff : s.nests opened (.tree b) = true ↔ ReflTransGen s.Encloses b c := by
    rw [hs.nests_iff]
    constructor
    · rintro ⟨a, ha, hba⟩
      exact hba.trans (ho a ha)
    · exact fun hbc => ⟨c, hc, hbc⟩
  constructor
  · exact fun hbc => hr (hiff.mpr hbc)
  · intro hbc
    refine hn ?_
    rw [Bool.eq_false_iff]
    exact fun h => hbc (hiff.mp h)

theorem Layered.putsIn_insert (hs : s.Layered) (hl : (s.container r).key? l = none)
    (arrange : Key → List Key → List Key) :
    s.PutsIn ((Holder.shared r).insert l (.tree b) arrange) b r := by
  have hl' : (s.contents (.shared r)).hasLabel l = false :=
    (Container.hasLabel_eq_false _ l).mpr hl
  refine hs.putsIn (List.mem_singleton_self r) ?_ (fun hn => ?_) fun hn => ?_
  · intro a ha
    obtain rfl := List.mem_singleton.mp ha
    exact .refl
  · exact ⟨s, by simp [Holder.insert_run, hl', Holder.opened, hn]⟩
  · have hrun : (Holder.shared r).insert l (.tree b) arrange s =
        .ok ⟨s.nextKey⟩ ({ s with nextKey := s.nextKey + 1 }.setContents (.shared r)
          ((s.container r).insert ⟨s.nextKey⟩ ⟨l, .tree b⟩
            (arrange ⟨s.nextKey⟩ (s.container r).order))) := by
      simp only [Holder.insert_run, hl', Holder.opened, hn]
      rfl
    refine ⟨_, _, hrun, ⟨s.nextKey⟩, l, ?_⟩
    simp [Space.setContents, container_setContainer, Container.field?_insert]

theorem Layered.putsIn_addBefore (hs : s.Layered) {next : Key}
    (hn : next ∈ (s.container r).order) (hl : (s.container r).key? l = none) :
    s.PutsIn ((Holder.shared r).addBefore next l (.tree b)) b r :=
  (hs.putsIn_insert hl _).congr
    ((Holder.addBefore_run (.shared r) next l (.tree b) s).trans (if_pos hn))

theorem Layered.putsIn_replaceWithin (hs : s.Layered) (hk : (s.container c).holds k = true)
    (hc : c ∈ opened) (ho : ∀ a ∈ opened, ReflTransGen s.Encloses a c) :
    s.PutsIn (Holder.replaceWithin opened (.shared c) k (.tree b)) b c := by
  obtain ⟨f, hf⟩ := (Container.holds_iff _ k).mp hk
  have hf' : (s.contents (.shared c)).field? k = some f := hf
  refine hs.putsIn hc ho (fun hn => ?_) fun hn => ?_
  · exact ⟨s, by simp [Holder.replaceWithin_run, hf', hn]⟩
  · have hrun : Holder.replaceWithin opened (.shared c) k (.tree b) s =
        .ok f.value (s.setContents (.shared c) ((s.container c).assign k f (.tree b))) := by
      simp only [Holder.replaceWithin_run, hf', hn]
      rfl
    refine ⟨_, _, hrun, k, f.label, ?_⟩
    simp [Space.setContents, container_setContainer, Container.field?_assign]

theorem Layered.putsIn_replace (hs : s.Layered) (hk : (s.container r).holds k = true) :
    s.PutsIn ((Holder.shared r).replace k (.tree b)) b r := by
  refine hs.putsIn_replaceWithin hk (List.mem_singleton_self r) fun a ha => ?_
  obtain rfl := List.mem_singleton.mp ha
  exact .refl

theorem Layered.putsIn_assignLabel (hs : s.Layered) (l : Label) :
    s.PutsIn ((Holder.shared r).assign (.label l) (.tree b)) b r := by
  refine PutsIn.after (Holder.contents_run _ s) rfl ?_
  cases hl : (s.contents (.shared r)).key? l with
  | none =>
    simp only [hl]
    exact hs.putsIn_insert hl _
  | some k =>
    simp only [hl]
    obtain ⟨-, v, hv⟩ := ((hs.wellKept.contents (.shared r)).key?_iff l k).mp hl
    have hk : (s.container r).holds k = true := (Container.holds_iff _ k).mpr ⟨_, hv⟩
    exact (hs.putsIn_replace hk).discard.map fun _ => k

theorem Layered.holds_unique (hs : s.Layered) {d : ContainerId}
    (hc : (s.container c).holds k = true) (hd : (s.container d).holds k = true) : c = d := by
  have hc' : k ∈ (s.contents (.shared c)).order := ((hs.wellKept.contents _).mem_order k).mpr hc
  have hd' : k ∈ (s.contents (.shared d)).order := ((hs.wellKept.contents _).mem_order k).mpr hd
  exact Holder.shared.inj (hs.apart _ _ k hc' hd')

theorem Layered.locate (hs : s.Layered) (hr : ReflTransGen s.Encloses r c)
    (hk : (s.container c).holds k = true) :
    ∃ path, s.locate (s.container r) k = some path ∧ s.Path r path c := by
  obtain ⟨way, hw⟩ := exists_path hr
  have hsome := hw.locateWithin hs.wellKept hk (hw.length_le hs.acyclic)
  obtain ⟨path, hp⟩ := Option.isSome_iff_exists.mp hsome
  obtain ⟨d, hpath, hd⟩ := path_of_locateWithin hs.wellKept hp
  obtain rfl := hs.holds_unique hk hd
  exact ⟨path, hp, hpath⟩

theorem Layered.putsIn_assignKey (hs : s.Layered) (hr : ReflTransGen s.Encloses r c)
    (hk : (s.container c).holds k = true) :
    s.PutsIn ((Holder.shared r).assign (.key k) (.tree b)) b c := by
  obtain ⟨path, hloc, hp⟩ := hs.locate hr hk
  have hloc' : s.locate (s.contents (.shared r)) k = some path := hloc
  have hend : (path.getLast?.map Holder.shared).getD (.shared r) = .shared c := by
    have := congrArg Holder.shared hp.getLast?
    cases hl : path.getLast? <;> simpa [hl] using this
  refine PutsIn.after (Holder.contents_run _ s) rfl (PutsIn.after (Edit.get_run s) rfl ?_)
  simp only [hloc', hend]
  refine (PutsIn.discard ?_).map fun _ => k
  refine hs.putsIn_replaceWithin hk ?_ fun a ha => hp.reach_of_mem ha
  rw [← hp.getLast?]
  cases hl : path.getLast? with
  | none => exact List.mem_cons_self
  | some d => exact List.mem_cons_of_mem _ (List.mem_of_getLast? hl)

theorem encloses_rename {f : Field} (hf : (s.container r).field? k = some f) (l : Label) :
    (s.setContents (.shared r) ((s.container r).rename k f l)).Encloses = s.Encloses := by
  funext x y
  rw [eq_iff_iff]
  obtain ⟨n, v⟩ := f
  unfold Encloses
  rw [setContents, container_setContainer]
  split
  · rename_i hx
    subst hx
    constructor
    · rintro ⟨j, m, hj⟩
      rw [Container.field?_rename] at hj
      split at hj
      · cases hj
        exact ⟨k, n, hf⟩
      · exact ⟨j, m, hj⟩
    · rintro ⟨j, m, hj⟩
      by_cases hjk : j = k
      · subst hjk
        rw [hf] at hj
        cases hj
        exact ⟨j, l, by simp [Container.field?_rename]⟩
      · exact ⟨j, m, by simp [Container.field?_rename, hjk, hj]⟩
  · exact Iff.rfl

theorem Layered.putsIn_change (hs : s.Layered) {f : Field}
    (hf : (s.container r).field? k = some f)
    (hl : f.label = l ∨ (s.container r).key? l = none) :
    s.PutsIn ((Holder.shared r).change k l (.tree b)) b r := by
  have hf' : (s.contents (.shared r)).field? k = some f := hf
  have hk : (s.container r).holds k = true := (Container.holds_iff _ k).mpr ⟨f, hf⟩
  by_cases hfl : f.label = l
  · have hrun : (Holder.shared r).relabel k l s = .ok () s := by
      simp [Holder.relabel_run, hf', hfl]
    exact PutsIn.after hrun rfl (hs.putsIn_replace hk).discard
  · have hn := (Container.hasLabel_eq_false _ l).mpr (hl.resolve_left hfl)
    have hn' : (s.contents (.shared r)).hasLabel l = false := hn
    have hrun : (Holder.shared r).relabel k l s =
        .ok () (s.setContents (.shared r) ((s.container r).rename k f l)) := by
      simp only [Holder.relabel_run, hf', hfl, hn', if_false]
      rfl
    refine PutsIn.after hrun (encloses_rename hf l) (PutsIn.discard ?_)
    have ht := holderClosed_layered.relabel (.shared r) k l s hs
    rw [final_of_ok hrun] at ht
    refine ht.putsIn_replace ?_
    refine (Container.holds_iff _ k).mpr ⟨{ f with label := l }, ?_⟩
    simp [Space.setContents, container_setContainer, Container.field?_rename]

theorem Layered.putsIn_storing (hs : s.Layered) {r : ContainerId} {st : Storing}
    (h : st.Into s r c) : s.PutsIn ((st.op (.tree b)).run (.shared r)) b c := by
  cases h with
  | add hl => exact (hs.putsIn_insert hl _).discard
  | addBefore hn hl => exact (hs.putsIn_addBefore hn hl).discard
  | assignLabel => exact (hs.putsIn_assignLabel _).discard
  | assignKey hr hk => exact (hs.putsIn_assignKey hr hk).discard
  | replace hk => exact (hs.putsIn_replace hk).discard
  | change hf hl => exact hs.putsIn_change hf hl

/-- Without a place to go to, nothing is stored. -/
theorem Layered.misplaced (hs : s.Layered) {st : Storing} {r : ContainerId}
    (h : ∀ c, ¬ st.Into s r c) (v : Value) :
    ∃ e t, (st.op v).run (.shared r) s = .error e t ∧ e.isMisplaced = true := by
  cases st with
  | add l =>
    have hl : (s.contents (.shared r)).hasLabel l = true := by
      by_contra hn
      exact h r (.add ((Container.hasLabel_eq_false _ l).mp (Bool.eq_false_iff.mpr hn)))
    refine ⟨.refused (.labelInUse l), s, discard_of_error ?_, rfl⟩
    simp [Holder.add, Holder.insert_run, hl]
  | addBefore next l =>
    by_cases hn : next ∈ (s.contents (.shared r)).order
    · have hl : (s.contents (.shared r)).hasLabel l = true := by
        by_contra hl
        exact h r (.addBefore hn ((Container.hasLabel_eq_false _ l).mp (Bool.eq_false_iff.mpr hl)))
      refine ⟨.refused (.labelInUse l), s, discard_of_error ?_, rfl⟩
      simp [Holder.addBefore_run, hn, Holder.insert_run, hl]
    · refine ⟨.notFound (.key next), s, discard_of_error ?_, rfl⟩
      simp [Holder.addBefore_run, hn]
  | assign p =>
    cases p with
    | label l => exact absurd .assignLabel (h r)
    | key k =>
      have hloc : s.locate (s.contents (.shared r)) k = none := by
        rw [Option.eq_none_iff_forall_ne_some]
        intro path hp
        obtain ⟨c, hpath, hk⟩ := path_of_locateWithin hs.wellKept hp
        exact h c (.assignKey hpath.reach hk)
      refine ⟨.notFound (.key k), s, discard_of_error ?_, rfl⟩
      rw [Holder.assign, bind_of_ok (Holder.contents_run _ s)]
      dsimp only
      rw [bind_of_ok (Edit.get_run s)]
      simp only [hloc]
      rfl
  | replace k =>
    have hk : (s.contents (.shared r)).field? k = none := by
      rw [Option.eq_none_iff_forall_ne_some]
      intro f hf
      exact h r (.replace ((Container.holds_iff _ k).mpr ⟨f, hf⟩))
    refine ⟨.notFound (.key k), s, discard_of_error ?_, rfl⟩
    simp [Holder.replace, Holder.replaceWithin_run, hk]
  | change k l =>
    cases hk : (s.contents (.shared r)).field? k with
    | none =>
      refine ⟨.notFound (.key k), s, bind_of_error ?_, rfl⟩
      simp [Holder.relabel_run, hk]
    | some f =>
      have hfl : f.label ≠ l := fun hfl => h r (.change hk (.inl hfl))
      have hl : (s.contents (.shared r)).hasLabel l = true := by
        by_contra hl
        exact h r (.change hk
          (.inr ((Container.hasLabel_eq_false _ l).mp (Bool.eq_false_iff.mpr hl))))
      refine ⟨.refused (.labelInUse l), s, bind_of_error ?_, rfl⟩
      simp [Holder.relabel_run, hk, hfl, hl]

end Space

/-- In every reachable space, enclosing does not come round; a container is stored wherever there
is a place for it, and refused just when it would come to lie inside itself. -/
theorem Reachable.nesting_exact {s : Space} (h : Reachable s) :
    (∀ a, ¬ Relation.TransGen s.Encloses a a) ∧
      ∀ (st : Storing) (r b : ContainerId),
        (∀ c, st.Into s r c → s.PutsIn ((st.op (.tree b)).run (.shared r)) b c) ∧
        ((∀ c, ¬ st.Into s r c) →
          ∃ e t, (st.op (.tree b)).run (.shared r) s = .error e t ∧ e.isMisplaced = true) :=
  ⟨h.layered.acyclic, fun _ _ _ =>
    ⟨fun _ hi => h.layered.putsIn_storing hi, fun hi => h.layered.misplaced hi _⟩⟩

/-- The container `⟨4⟩` lies inside `⟨1⟩` in two ways, by way of `⟨2⟩` and of `⟨3⟩`. -/
def diamond : List Operation :=
  [.newContainer, .newContainer, .newContainer, .newContainer,
    .container ⟨1⟩ (.add (.name "left") (.tree ⟨2⟩)),
    .container ⟨1⟩ (.add (.name "right") (.tree ⟨3⟩)),
    .container ⟨2⟩ (.add .empty (.tree ⟨4⟩)), .container ⟨3⟩ (.add .empty (.tree ⟨4⟩)),
    .container ⟨4⟩ (.add (.index 0) .empty)]

/-- From its ends one gets across the diamond downwards only. -/
theorem nesting_exact_diamond :
    (∃ t, ((Storing.assign (.key ⟨5⟩)).op (.tree ⟨1⟩)).run (.shared ⟨1⟩) (Space.after diamond) =
        .error (.refused .selfNesting) t) ∧
      ∃ a t, ((Storing.add (.name "middle")).op (.tree ⟨4⟩)).run (.shared ⟨1⟩)
        (Space.after diamond) = .ok a t ∧ t.Encloses ⟨1⟩ ⟨4⟩ := by
  have hdown : (Space.after diamond).Encloses ⟨1⟩ ⟨2⟩ := ⟨⟨1⟩, .name "left", by decide⟩
  have hdown' : (Space.after diamond).Encloses ⟨2⟩ ⟨4⟩ := ⟨⟨3⟩, .empty, by decide⟩
  have hacross : Relation.TransGen (Space.after diamond).Encloses ⟨1⟩ ⟨4⟩ :=
    .tail (.single hdown) hdown'
  obtain ⟨hacyclic, hexact⟩ := (Reachable.after diamond).nesting_exact
  constructor
  · have hinto := (hexact (.assign (.key ⟨5⟩)) ⟨1⟩ ⟨1⟩).1 ⟨4⟩
      (.assignKey hacross.to_reflTransGen (by decide))
    exact hinto.refuses hacross.to_reflTransGen
  · have hinto := (hexact (.add (.name "middle")) ⟨1⟩ ⟨4⟩).1 ⟨1⟩ (.add (by decide))
    exact hinto.stores fun hup => hacyclic ⟨1⟩ (hacross.trans_left hup)

end LiveRecords
