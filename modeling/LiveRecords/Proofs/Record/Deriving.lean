import LiveRecords.Proofs.Evaluation.Confined
import LiveRecords.Proofs.Evaluation.Twins
import LiveRecords.Proofs.Packets.Batches
import LiveRecords.Proofs.Record.Copies

/-! # Derived records

A record derived from another one has the same fields under new keys, each derived cell being one
of its own. It reads as its source does, though labels lead a formula to the fields of the one and
names and references to the fields of the other.
-/

namespace LiveRecords

namespace Space

/-- Every derived cell has been made. -/
def Issued (s : Space) : Prop := ∀ i d, s.derived.get? i = some d → i.number < s.nextDerived

/-- From `s` to `t` nothing has been done but to make derived cells. -/
structure Issues (s t : Space) : Prop where
  issued : t.Issued
  derived : ∀ {i d}, s.derived.get? i = some d → t.derived.get? i = some d
  records : t.records = s.records
  contents : ∀ g, t.contents g = s.contents g
  nextKey : t.nextKey = s.nextKey

/-- In `t` the record `c` has twins of the fields `done`, all of them noted and under keys that are
new since `s`. No other record has changed. -/
structure Duplicates (s : Space) (c : RecordId) (done : List (Key × Field)) (t : Space) : Prop where
  wellKept : t.WellKept
  issued : t.Issued
  others : ∀ j ≠ c, t.record j = s.record j
  alive : t.alive c = true
  maxDepth : (t.record c).maxDepth = (s.record c).maxDepth
  nextKey : s.nextKey ≤ t.nextKey
  keys : ∀ k f, (t.record c).fields.field? k = some f → s.nextKey ≤ k.number
  noted : ∀ k, (t.record c).changes.get? k = (t.record c).fields.field? k
  fields : List.Forall₂ (fun e e' => t.TwinFields e.2 e'.2) done (t.record c).fields.entries

variable {s t u : Space} {id c : RecordId} {k : Key} {f : Field} {l : Label} {v w : Value}
  {es done : List (Key × Field)}

section Issuing

theorem Issued.newDerived (hs : s.Issued) (d : Derived) :
    s.Issues (final (Edit.newDerived d) s) ∧
      (final (Edit.newDerived d) s).derived.get? ⟨s.nextDerived⟩ = some d := by
  have hget : ∀ i, (final (Edit.newDerived d) s).derived.get? i =
      if i = ⟨s.nextDerived⟩ then some d else s.derived.get? i := fun i => Table.get?_put_if ..
  refine ⟨⟨fun i e hi => ?_, fun {i e} hi => ?_, rfl, fun g => by cases g <;> rfl, rfl⟩,
    (hget _).trans (if_pos rfl)⟩
  · rw [hget] at hi
    split at hi
    · rename_i hnew
      rw [hnew]
      exact Nat.lt_succ_self _
    · exact Nat.lt_succ_of_lt (hs i e hi)
  · have hne : i ≠ ⟨s.nextDerived⟩ := by
      rintro rfl
      exact Nat.lt_irrefl _ (hs _ e hi)
    rw [hget, if_neg hne, hi]

theorem Issues.refl (hs : s.Issued) : s.Issues s := ⟨hs, id, rfl, fun _ => rfl, rfl⟩

theorem closed_issued : Edit.Closed (Keeps Issued) := by
  have hmarks : Eval.Closed (OnSpace (Keeps Issued)) := Eval.closed_of_marks fun _ _ _ _ hs => hs
  have holder : Holder.Closed (Keeps Issued) :=
    Holder.closed_of_setContents (fun s h c hs => by cases h <;> exact hs) fun _ hs => hs
  exact
    { toClosed := holder
      mintKey := fun _ hs => hs
      newContainer := fun _ hs => hs
      newDerived := fun d _ hs => (hs.newDerived d).1.issued
      newRecord := fun _ _ _ hs => hs
      retain := fun _ _ hs => hs
      setChanges := fun _ _ _ hs => hs
      read := fun id p => id.read_moves hmarks p
      evaluate := fun id f => id.evaluate_moves hmarks f
      write := fun id p v =>
        id.write_moves (hmarks.forWrites holder.add holder.replaceWithin fun _ _ _ hs => hs) p v }

end Issuing

theorem Duplicates.issue (h : s.Duplicates c done t) (hu : t.Issues u) : s.Duplicates c done u := by
  have hrecord : ∀ j, u.record j = t.record j := fun j => by rw [record, hu.records, record]
  have halive : u.alive c = t.alive c := by rw [Space.alive, hu.records, Space.alive]
  refine
    { wellKept := h.wellKept.congr hu.contents hu.nextKey.ge (hu.records ▸ h.wellKept.ascending)
      issued := hu.issued
      others := fun j hj => (hrecord j).trans (h.others j hj)
      alive := halive.trans h.alive
      maxDepth := hrecord c ▸ h.maxDepth
      nextKey := hu.nextKey ▸ h.nextKey
      keys := hrecord c ▸ h.keys
      noted := hrecord c ▸ h.noted
      fields := ?_ }
  rw [hrecord]
  exact h.fields.imp fun _ _ he => he.mono hu.derived

theorem Duplicates.labels (h : s.Duplicates c done t) :
    (t.record c).fields.labels = done.map (·.2.label) := labels_of_twins h.fields

theorem Duplicates.add (h : s.Duplicates c done t) (hl : (t.record c).fields.key? l = none)
    (k : Key) (hf : t.TwinFields f ⟨l, v⟩) :
    ∃ u, discard (c.add l v) t = .ok () u ∧ s.Duplicates c (done ++ [(k, f)]) u := by
  let a := t.appended c l v
  let u := a.setRecord c
    { a.record c with changes := (a.record c).changes.record ⟨t.nextKey⟩ l v }
  have hrun : c.add l v t = .ok ⟨t.nextKey⟩ u := by
    rw [RecordId.add, bind_of_ok (Holder.add_run v hl)]
    rfl
  have happended : a.record c =
      { t.record c with
        fields := (t.record c).fields.insert ⟨t.nextKey⟩ ⟨l, v⟩
          ((t.record c).fields.order ++ [(⟨t.nextKey⟩ : Key)]) } := record_setRecord_self ..
  have hself : u.record c =
      { a.record c with changes := (a.record c).changes.record ⟨t.nextKey⟩ l v } :=
    record_setRecord_self ..
  rw [happended] at hself
  have hfresh : (⟨t.nextKey⟩ : Key) ∉ (t.record c).fields.order := fun hm =>
    Nat.lt_irrefl _ (h.wellKept.minted (.record c) _ hm)
  have hwell := closed_wellKept.recordOp c (.add l v) t h.wellKept
  rw [RecordOp.run, final_discard, final_of_ok hrun] at hwell
  refine ⟨u, discard_of_ok hrun,
    { wellKept := hwell
      issued := h.issued
      others := fun j hj => ?_
      alive := ?_
      maxDepth := hself ▸ h.maxDepth
      nextKey := Nat.le_succ_of_le h.nextKey
      keys := fun q g hq => ?_
      noted := fun q => ?_
      fields := ?_ }⟩
  · have hother : u.record j = t.record j := by
      simp only [u, a, appended, setContents, record_setRecord, if_neg hj]
      rfl
    exact hother.trans (h.others j hj)
  · exact (alive_setRecord ..).trans (by simp)
  · rw [hself, Container.field?_insert] at hq
    split at hq
    · rename_i hqk
      exact hqk ▸ h.nextKey
    · exact h.keys q g hq
  · rw [hself, Container.field?_insert, Changes.record, Table.get?_put_if, h.noted]
  · rw [hself, Container.entries_append hfresh]
    exact List.rel_append (h.fields.imp fun _ _ he => he.mono id) (.cons (hf.mono id) .nil)

end Space

open Space

variable {s t : Space} {id c : RecordId} {v : Value} {name : Option String}
  {es done : List (Key × Field)}

theorem RecordId.copyValue_twin (hs : s.Issued) (hv : v.tree? = none) :
    ∃ w t, RecordId.copyValue v s = .ok w t ∧ s.Issues t ∧ t.Twin v w := by
  cases v with
  | tree => cases hv
  | cell cell =>
    cases cell with
    | reference => exact ⟨_, s, rfl, .refl hs, .same _⟩
    | derived i =>
      rw [RecordId.copyValue, bind_of_ok (Edit.get_run s)]
      cases hi : s.derived.get? i with
      | none => exact ⟨_, s, rfl, .refl hs, .same _⟩
      | some d =>
        obtain ⟨hissues, hnew⟩ := hs.newDerived d
        exact ⟨_, _, rfl, hissues, .derived (hissues.derived hi) hnew⟩
  | _ => exact ⟨_, s, rfl, .refl hs, .same _⟩

/-- One field after the other is copied. The induction is on the fields still to come. -/
theorem RecordId.addCopies_duplicates {b : Container} (hb : b.WellKept)
    (hes : b.entries = done ++ es) (hv : ∀ e ∈ es, e.2.value.tree? = none)
    (h : s.Duplicates c done t) :
    ∃ u, c.addCopies es t = .ok () u ∧ s.Duplicates c b.entries u := by
  induction es generalizing done t with
  | nil =>
    rw [hes, List.append_nil]
    exact ⟨t, rfl, h⟩
  | cons e es ih =>
    obtain ⟨k, l, v⟩ := e
    rw [List.forall_mem_cons] at hv
    obtain ⟨w, t₁, hcopy, hissues, hw⟩ := RecordId.copyValue_twin h.issued hv.1
    have h₁ := h.issue hissues
    have hl : (t₁.record c).fields.key? l = none :=
      (h₁.wellKept.contents (.record c)).key?_eq_none fun hne =>
        h₁.labels ▸ hb.label_not_mem hes hne
    obtain ⟨t₂, hadd, h₂⟩ := h₁.add (f := ⟨l, v⟩) (v := w) hl k ⟨rfl, hw⟩
    rw [List.append_cons] at hes
    obtain ⟨u, hrest, hu⟩ := ih hes hv.2 h₂
    refine ⟨u, ?_, hu⟩
    have hcons : c.addCopies ((k, ⟨l, v⟩) :: es) =
        (RecordId.copyValue v >>= fun w => discard (c.add l w)) >>= fun _ => c.addCopies es := rfl
    rw [hcons, bind_of_ok ((bind_of_ok hcopy).trans hadd), hrest]

theorem RecordId.derive_duplicates (hs : s.WellKept) (hi : s.Issued) (hid : s.Made (.record id))
    (hv : ∀ k f, (s.record id).fields.field? k = some f → f.value.tree? = none)
    (name : Option String) :
    ∃ t, id.derive name s = .ok ⟨s.nextRecord⟩ t ∧
      (s.withNew name (s.record id).maxDepth).Duplicates ⟨s.nextRecord⟩
        (s.record id).fields.entries t := by
  let start := s.withNew name (s.record id).maxDepth
  have hself : start.record ⟨s.nextRecord⟩ = { name, maxDepth := (s.record id).maxDepth } :=
    (record_withNew ..).trans (if_pos rfl)
  have hsource : start.record id = s.record id := by
    refine (record_withNew ..).trans (if_neg ?_)
    rintro rfl
    exact Nat.lt_irrefl _ hid
  have hstart : start.Duplicates ⟨s.nextRecord⟩ [] start :=
    { wellKept := closed_wellKept.newRecord name _ s hs
      issued := hi
      others := fun _ _ => rfl
      alive := (s.alive_setRecord ⟨s.nextRecord⟩ ⟨s.nextRecord⟩ _).trans (by simp)
      maxDepth := rfl
      nextKey := Nat.le_refl _
      keys := by
        rw [hself]
        exact nofun
      noted := by
        rw [hself]
        exact fun _ => rfl
      fields := by
        rw [hself]
        exact .nil }
  have hderive : id.derive name s =
      ((⟨s.nextRecord⟩ : RecordId).addCopies (start.record id).fields.entries >>=
        fun _ => pure (⟨s.nextRecord⟩ : RecordId)) start := rfl
  obtain ⟨t, hadds, ht⟩ := RecordId.addCopies_duplicates (b := (s.record id).fields)
    (hs.contents (.record id)) (List.nil_append _).symm
    (fun e he => hv _ _ (Container.mem_entries.mp he).2) hstart
  refine ⟨t, ?_, ht⟩
  rw [hderive, hsource, bind_of_ok hadds]
  rfl

/-- In `t` the record `c` is a copy of `id` that has been made since `s`, and that alone: it has the
same labels under new keys, all noted as changes, and the fields read as those of `id` do. -/
structure Space.DerivedFrom (s : Space) (id : RecordId) (t : Space) (c : RecordId) : Prop where
  new : ¬ s.Made (.record c)
  alive : t.alive c = true
  others : ∀ j ≠ c, t.record j = s.record j
  labels : (t.record c).fields.labels = (s.record id).fields.labels
  keys : ∀ k, (t.record c).fields.holds k = true → s.nextKey ≤ k.number
  noted : ∀ k, (t.record c).changes.get? k = (t.record c).fields.field? k
  reads : ∀ (n : Nat) (e e' : Key × Field), (s.record id).fields.entries[n]? = some e →
    (t.record c).fields.entries[n]? = some e' →
    ∀ v, (∃ u, id.read (.key e.1) t = .ok v u) ↔ ∃ u, c.read (.key e'.1) t = .ok v u

theorem Space.Duplicates.derivedFrom (h : (s.withNew name (s.record id).maxDepth).Duplicates
    ⟨s.nextRecord⟩ (s.record id).fields.entries t) (hid : s.Made (.record id)) (ht : Reachable t) :
    s.DerivedFrom id t ⟨s.nextRecord⟩ := by
  have hothers : ∀ j ≠ (⟨s.nextRecord⟩ : RecordId), t.record j = s.record j := fun j hj =>
    (h.others j hj).trans ((record_withNew ..).trans (if_neg hj))
  have hsource : t.record id = s.record id := by
    refine hothers id ?_
    rintro rfl
    exact Nat.lt_irrefl _ hid
  have htwins : t.Twins id ⟨s.nextRecord⟩ := by
    rw [Twins, hsource]
    exact h.fields
  have hdepth : (t.record ⟨s.nextRecord⟩).maxDepth = (t.record id).maxDepth := by
    rw [h.maxDepth, record_withNew, if_pos rfl, hsource]
  refine ⟨Nat.lt_irrefl _, h.alive, hothers, h.labels, fun k hk => ?_, h.noted,
    fun n e e' he he' v => ?_⟩
  · obtain ⟨f, hf⟩ := (Container.holds_iff ..).mp hk
    exact h.keys k f hf
  · rw [← hsource] at he
    exact ht.read_twin htwins hdepth (htwins.places h.wellKept he he') v

/-- In a reachable space a record without containers in its fields can always be copied, and the
copy reads as the record does. Whatever is done afterwards: to write to a derived field of the copy
changes no fields but those of the copy, as long as the reactions have different outputs and output
to no cells. -/
theorem Reachable.derive_reads (h : Reachable s) (hid : s.Made (.record id))
    (hv : ∀ k f, (s.record id).fields.field? k = some f → f.value.tree? = none)
    (name : Option String) :
    ∃ c t, id.derive name s = .ok c t ∧ s.DerivedFrom id t c ∧
      ∀ ops p k l i, (t.perform ops).slot? c p = some (k, ⟨l, .cell (.derived i)⟩) →
        (((t.perform ops).derivation i).reactions.map (·.1)).Nodup →
        (∀ r ∈ ((t.perform ops).derivation i).reactions, (t.perform ops).PlainAt c r.1) →
        ∀ v, Spares (.record c) (t.perform ops) (final (c.write p v) (t.perform ops)) := by
  obtain ⟨t, hrun, hdup⟩ := RecordId.derive_duplicates h.wellKept
    (h.of_closed closed_issued nofun) hid hv name
  have ht : Reachable t := by
    have := h.next (.record id (.derive name))
    rwa [Operation.run, RecordOp.run, final_discard, final_of_ok hrun] at this
  refine ⟨_, t, hrun, hdup.derivedFrom hid ht, fun ops p k l i hk hn hp v => ?_⟩
  exact RecordId.write_spares (ht.foldl ops).wellKept hk hn hp v

/-- A cell that follows the field `x`, and assigns it. -/
def following : Derived :=
  { getter := .mk "first" Function.first [.here (.name "x")] : Derived }.reacting (.name "x")
    (.mk "first" Function.first [.here (.name "d")])

/-- A record with a cell that follows a field next to it, one that asks for the former by the name
of the record, and a reference of the record to itself. -/
def selfKnowing : List Operation :=
  [.newRecord none 8, .newDerived following,
    .newDerived { getter := .mk "first" Function.first [.field ⟨⟨"source", ⟨1⟩⟩, .name "d"⟩] },
    .record ⟨1⟩ (.add (.name "x") (.int 1)),
    .record ⟨1⟩ (.add (.name "d") (.cell (.derived ⟨1⟩))),
    .record ⟨1⟩ (.add (.name "back") (.cell (.derived ⟨2⟩))),
    .record ⟨1⟩ (.add (.name "self") (.cell (.reference ⟨1⟩ (.name "d")))),
    .record ⟨1⟩ .takeChanges]

/-- The field of the copy that its cell follows is written. -/
def writeCopy : List Operation := [.record ⟨2⟩ (.write (.label (.name "x")) (.int 7))]

def copyWritten : Space := Space.after (selfKnowing ++ .record ⟨1⟩ (.derive none) :: writeCopy)

theorem derive_reads_selfKnowing :
    ∃ t, RecordId.derive ⟨1⟩ none (Space.after selfKnowing) = .ok ⟨2⟩ t ∧
      (Space.after selfKnowing).DerivedFrom ⟨1⟩ t ⟨2⟩ ∧ t.perform writeCopy = copyWritten ∧
      answer (RecordId.fields ⟨2⟩) copyWritten = some [(.name "x", .int 7), (.name "d", .int 7),
        (.name "back", .int 1), (.name "self", .int 1)] ∧
      Spares (.record ⟨2⟩) copyWritten
        (final (RecordId.write ⟨2⟩ (.label (.name "d")) (.int 5)) copyWritten) := by
  have hid : (Space.after selfKnowing).Made (.record ⟨1⟩) :=
    show 1 < (Space.after selfKnowing).nextRecord by decide
  have hv : ∀ k f, ((Space.after selfKnowing).record ⟨1⟩).fields.field? k = some f →
      f.value.tree? = none := by
    have hall : ∀ f ∈ ((Space.after selfKnowing).record ⟨1⟩).fields.fields.values,
        f.value.tree? = none := by decide
    exact fun k f hf => hall f (Table.mem_values_of_get? hf)
  obtain ⟨c, t, hrun, hfrom, hwrite⟩ := (Reachable.after selfKnowing).derive_reads hid hv none
  have hc : answer (RecordId.derive ⟨1⟩ none) (Space.after selfKnowing) = some ⟨2⟩ := by
    decide +kernel
  obtain ⟨t', ht'⟩ := answer_eq_some_iff.mp hc
  rw [hrun] at ht'
  cases ht'
  have ht : t.perform writeCopy = copyWritten := by
    have hop : final (Operation.record ⟨1⟩ (.derive none)).run (Space.after selfKnowing) = t := by
      rw [Operation.run, RecordOp.run, final_discard, final_of_ok hrun]
    rw [copyWritten, Space.after, List.foldl_append, List.foldl_cons]
    change _ = Space.perform writeCopy (final _ (Space.after selfKnowing))
    rw [hop]
  have houtputs : (copyWritten.derivation ⟨3⟩).reactions.map (·.1) =
      following.reactions.map (·.1) := by decide +kernel
  have hspares := hwrite writeCopy (.label (.name "d")) ⟨6⟩ (.name "d") ⟨3⟩
  rw [ht, houtputs] at hspares
  refine ⟨t, hrun, hfrom, ht, by decide +kernel, hspares (by decide +kernel)
    (Derived.nodup_reacting (d := ⟨following.getter, []⟩) List.nodup_nil _ _)
    (fun r hr _ k w hk => ?_) _⟩
  have hmem : r.1 ∈ following.reactions.map (·.1) := houtputs ▸ List.mem_map_of_mem hr
  have hx : r.1 = .name "x" := List.mem_singleton.mp hmem
  have hall : ∀ f ∈ (copyWritten.record ⟨2⟩).fields.fields.values, f.label = .name "x" →
      f.value.isCell = false := by decide +kernel
  exact hall _ (Table.mem_values_of_get? hk) hx

end LiveRecords
