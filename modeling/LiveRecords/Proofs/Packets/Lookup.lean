import LiveRecords.Proofs.Packets.Runs
import LiveRecords.Proofs.Tables

/-! # Lookups answer for the last commit

A commit enters every field of the registered records as it is when the changes are taken. Until
the next one, lookups change only by the names of records that are removed.
-/

namespace LiveRecords

variable {τ : Type}

open Packet (Course)

namespace Packet

section Drain

theorem drain_cons (s : Space) (name : String) (id : RecordId) (es : List (String × RecordId))
    (cs : Changeset) :
    ∃ t : Space,
      drain s ((name, id) :: es) cs = drain t es (cs.insert name (s.record id).changes) ∧
      t.nextRecord = s.nextRecord ∧
      ∀ j, t.record j = if j = id then { s.record id with changes := ∅ } else s.record j := by
  rw [drain]
  cases he : (s.record id).changes.isEmpty with
  | true =>
    refine ⟨s, ?_, rfl, fun j => ?_⟩
    · rw [Changeset.insert, if_pos he]
      rfl
    · split
      · rename_i hj
        rw [hj, ← Table.eq_empty_of_isEmpty he]
      · rfl
  | false => exact ⟨_, rfl, rfl, fun j => Space.record_setRecord ..⟩

variable {s : Space} {es : List (String × RecordId)} {cs : Changeset}

theorem drain_nextRecord : (drain s es cs).2.nextRecord = s.nextRecord := by
  induction es generalizing s cs with
  | nil => rfl
  | cons e es ih =>
    obtain ⟨t, hdrain, hnext, -⟩ := drain_cons s e.1 e.2 es cs
    rw [hdrain, ih, hnext]

theorem drain_record (j : RecordId) :
    (drain s es cs).2.record j =
      if j ∈ es.map (·.2) then { s.record j with changes := ∅ } else s.record j := by
  induction es generalizing s cs with
  | nil => rfl
  | cons e es ih =>
    obtain ⟨t, hdrain, -, ht⟩ := drain_cons s e.1 e.2 es cs
    rw [hdrain, ih, ht]
    have hmem : j ∈ (e :: es).map (·.2) ↔ j = e.2 ∨ j ∈ es.map (·.2) := List.mem_cons
    by_cases hj : j = e.2
    · subst hj
      simp
    · simp only [hmem, hj, if_false, false_or]

theorem drain_wellKept (hs : s.WellKept) : (drain s es cs).2.WellKept :=
  drain_moves (R := Keeps Space.WellKept)
    (fun id => Moves.of_discard (Space.closed_wellKept.recordOp id .takeChanges)) s es cs hs

theorem drain_ordered (hcs : cs.Ordered) : (drain s es cs).1.Ordered := by
  induction es generalizing s cs with
  | nil => exact hcs
  | cons e es ih =>
    obtain ⟨t, hdrain, -⟩ := drain_cons s e.1 e.2 es cs
    rw [hdrain]
    exact ih (hcs.insert _ _)

/-- The changeset tells the changes of the records drained, where no record is drained under two
names. -/
theorem drain_change? (hc : ∀ id, (s.record id).changes.Ascending)
    (hes : es.Pairwise fun e f => compare e.1 f.1 = .lt ∧ e.2 ≠ f.2) (name : String) (k : Key) :
    (drain s es cs).1.change? name k =
      ((Table.lookup name es).bind fun id => (s.record id).changes.get? k).or
        (cs.change? name k) := by
  induction es generalizing s cs with
  | nil => rfl
  | cons e es ih =>
    obtain ⟨n, id⟩ := e
    obtain ⟨hid, hes⟩ := List.pairwise_cons.mp hes
    obtain ⟨t, hdrain, -, ht⟩ := drain_cons s n id es cs
    have hct : ∀ j, (t.record j).changes.Ascending := by
      intro j
      rw [ht]
      split
      · exact Table.ascending_empty
      · exact hc j
    rw [hdrain, ih hct hes, Changeset.change?_insert (hc id), Table.lookup]
    simp only [Std.LawfulEqCmp.compare_eq_iff_eq]
    by_cases hn : name = n
    · subst hn
      rw [Table.lookup_eq_none fun e he => (hid e he).1]
      simp
    · simp only [hn, if_false]
      cases hl : Table.lookup name es with
      | none => rfl
      | some j =>
        have hj : j ≠ id := fun hj => (hid _ (Table.mem_of_lookup hl)).2 hj.symm
        simp only [Option.bind_some, ht, hj, if_false]

end Drain

theorem commit_records (p : Packet τ) (s : Space) : (p.commit s).packet.records = p.records := by
  unfold commit
  dsimp only
  split <;> rfl

theorem commit_index (p : Packet τ) (s : Space) :
    (p.commit s).packet.index = p.index.apply (drain s p.records.entries ∅).1 := by
  unfold commit
  dsimp only
  split
  · rename_i he
    rw [Table.eq_empty_of_isEmpty he]
    rfl
  · rfl

theorem commit_advances (p : Packet τ) (s : Space) :
    (drain s p.records.entries ∅).2.Advances (p.commit s).space := by
  unfold commit
  dsimp only
  split
  · exact refl_of Space.Advances _
  · exact consult_moves (fun _ _ id _ place _ hv => id.write_advances place hv) _ _

end Packet

namespace Packet.Course

namespace Sound

variable {σ : Course τ} (h : σ.Sound)
include h

theorem entries_pairwise :
    σ.packet.records.entries.Pairwise fun e f => compare e.1 f.1 = .lt ∧ e.2 ≠ f.2 :=
  h.ascending.pairwise_of_injective h.name_unique

/-- What the registered records hold when their changes are taken is entered. -/
theorem apply_drained_current (name : String) (k : Key) :
    (σ.packet.index.apply (drain σ.space σ.packet.records.entries ∅).1).current.get? ⟨name, k⟩ =
      ((σ.packet.records.get? name).bind fun id =>
        (σ.space.record id).fields.field? k).bind Field.entry? := by
  have hasc : ∀ id, (σ.space.record id).changes.Ascending := fun id => by
    obtain ⟨r, hs⟩ := h.since id
    exact hs.told.tracked.ascending
  rw [Index.apply_current (drain_ordered Changeset.ordered_empty),
    drain_change? hasc h.entries_pairwise]
  change ((Option.bind (σ.packet.records.get? name) _).or none).elim _ _ = _
  rw [Option.or_none]
  cases hn : σ.packet.records.get? name with
  | none => exact h.current_eq_none hn k
  | some id =>
    obtain ⟨r, hs⟩ := h.since id
    obtain ⟨htracked, hemptied, -⟩ := hs.told
    simp only [Option.bind_some]
    cases hc : (σ.space.record id).changes.get? k with
    | none =>
      rw [htracked.untouched k hc]
      exact hs.entered name hn k
    | some f =>
      cases hf : (σ.space.record id).fields.field? k with
      | none => exact Field.entry?_of_empty (hemptied k f hc hf)
      | some g =>
        rw [htracked.current k f g hc hf]
        rfl

theorem drained :
    Sound ⟨{ σ.packet with
        index := σ.packet.index.apply (drain σ.space σ.packet.records.entries ∅).1 },
      (drain σ.space σ.packet.records.entries ∅).2, σ.drains σ.packet.records.values⟩ := by
  refine h.take (h.index.apply _) h.ascending id (fun site e he => ?_)
    (fun name id hn k => ?_) (drain_wellKept h.wellKept) drain_nextRecord drain_record
  · obtain ⟨name, k⟩ := site
    dsimp only at he ⊢
    rw [h.apply_drained_current] at he
    obtain ⟨f, hf, -⟩ := Option.bind_eq_some_iff.mp he
    obtain ⟨id, hid, -⟩ := Option.bind_eq_some_iff.mp hf
    exact ⟨id, hid⟩
  · dsimp only at hn ⊢
    rw [h.apply_drained_current, hn, if_pos (Table.mem_values_of_get? hn)]
    rfl

theorem commit : (PacketOp.commit.run σ).Sound :=
  h.drained.advance (σ.packet.commit_records σ.space) (σ.packet.commit_index σ.space)
    (σ.packet.commit_advances σ.space)

theorem step {op : PacketOp τ} (ho : op.Allowed σ) : (op.run σ).Sound := by
  cases op with
  | newRecord name maxDepth => exact h.newRecord name maxDepth
  | derive id name => exact h.derive name id
  | letGo held => exact h.letGo ho
  | record id op =>
    rcases ho with ho | ho
    · exact h.advance rfl rfl (op.advances_of_writes ho id σ.space)
    · exact h.advance rfl rfl (op.moves_of_reads Space.evalClosed_advances ho id σ.space)
  | create name =>
    have hnew := h.newRecord (some name) σ.packet.maxDepth
    rw [PacketOp.run, σ.packet.create_run]
    cases hn : σ.packet.records.get? name with
    | none =>
      refine hnew.add (h.since_new (some name) σ.packet.maxDepth) (fun _ => rfl) ?_ hn
      exact (congrArg Record.name (Space.record_withNew ..)).trans (by rw [if_pos rfl])
    | some id => exact hnew
  | add id =>
    obtain ⟨r, hs⟩ := h.since id
    rw [PacketOp.run]
    cases hname : (σ.space.record id).name with
    | none =>
      rw [σ.packet.add_run_unnamed _ _ hname]
      exact h
    | some name =>
      rw [σ.packet.add_run _ _ hname]
      cases hn : σ.packet.records.get? name with
      | none => exact h.add hs (hs.fresh ho) hname hn
      | some _ => exact h
  | remove name =>
    rw [PacketOp.run, σ.packet.remove_run]
    cases hn : σ.packet.records.get? name with
    | none => exact h
    | some id => exact h.remove hn
  | write n v =>
    refine h.advance rfl rfl (Moves.bind (σ.packet.record_moves _) (fun id => ?_) σ.space)
    exact (id.write_advances _ ho).discard
  | addSensor s => exact h.advance rfl rfl (refl_of Space.Advances σ.space)
  | setSensor id s => exact h.advance rfl rfl (refl_of Space.Advances σ.space)
  | removeSensor id => exact h.advance rfl rfl (refl_of Space.Advances σ.space)
  | commit => exact h.commit

theorem run {ops : List (PacketOp τ)} (ha : σ.Admits ops) : (σ.run ops).Sound := by
  induction ops generalizing σ with
  | nil => exact h
  | cons op ops ih => exact ih (h.step ha.1) ha.2

end Sound

variable {σ : Course τ}

theorem admits_append {before after : List (PacketOp τ)} :
    σ.Admits (before ++ after) ↔ σ.Admits before ∧ (σ.run before).Admits after := by
  induction before generalizing σ with
  | nil => exact ⟨fun h => ⟨trivial, h⟩, fun h => h.2⟩
  | cons op before ih =>
    change op.Allowed σ ∧ (op.run σ).Admits (before ++ after) ↔
      (op.Allowed σ ∧ (op.run σ).Admits before) ∧ ((op.run σ).run before).Admits after
    rw [ih, and_assoc]

theorem run_append (before after : List (PacketOp τ)) :
    σ.run (before ++ after) = (σ.run before).run after :=
  List.foldl_append

end Packet.Course

namespace PacketOp

variable {σ : Course τ} {op : PacketOp τ} {l : Label} {v : Value} {name : String}

theorem index_run (hr : ∀ name, op ≠ .remove name) (hc : op ≠ .commit) :
    (op.run σ).packet.index = σ.packet.index := by
  cases op with
  | create name =>
    rw [run, σ.packet.create_run]
    cases σ.packet.records.get? name <;> rfl
  | add id =>
    rw [run]
    cases hname : (σ.space.record id).name with
    | none => rw [σ.packet.add_run_unnamed _ _ hname]
    | some name =>
      rw [σ.packet.add_run _ _ hname]
      cases σ.packet.records.get? name <;> rfl
  | remove name => exact absurd rfl (hr name)
  | commit => exact absurd rfl hc
  | _ => rfl

theorem mem_lookup_remove (h : σ.Sound) {removed : String} :
    name ∈ ((remove removed).run σ).packet.lookup l v ↔
      name ∈ σ.packet.lookup l v ∧ removed ≠ name := by
  rw [run, σ.packet.remove_run]
  cases hn : σ.packet.records.get? removed with
  | none =>
    refine (and_iff_left_of_imp fun hmem => ?_).symm
    rintro rfl
    obtain ⟨k, form, -, hk⟩ := h.index.mem_lookup_iff.mp hmem
    rw [h.current_eq_none hn k] at hk
    cases hk
  | some id =>
    dsimp only
    rw [Packet.lookup, (h.index.forget removed).mem_lookup_iff, Packet.lookup,
      h.index.mem_lookup_iff]
    simp only [Index.forget_current]
    constructor
    · rintro ⟨k, form, hv, hk⟩
      split at hk
      · cases hk
      · rename_i hne
        exact ⟨⟨k, form, hv, hk⟩, fun he => hne he.symm⟩
    · rintro ⟨⟨k, form, hv, hk⟩, hne⟩
      exact ⟨k, form, hv, by rwa [if_neg fun he => hne he.symm]⟩

/-- Between commits a lookup loses the name that is removed, and nothing else happens to it. -/
theorem mem_lookup_run (h : σ.Sound) (hc : op ≠ .commit) :
    name ∈ (op.run σ).packet.lookup l v ↔ name ∈ σ.packet.lookup l v ∧ op ≠ .remove name := by
  cases op with
  | remove removed =>
    rw [mem_lookup_remove h]
    simp only [ne_eq, remove.injEq]
  | _ =>
    rw [Packet.lookup, index_run (fun _ hr => by cases hr) hc]
    exact (and_iff_left fun hr => by cases hr).symm

end PacketOp

namespace Packet.Course

theorem Sound.mem_lookup_run {σ : Course τ} (h : σ.Sound) {ops : List (PacketOp τ)}
    (ha : σ.Admits ops) (hc : .commit ∉ ops) {l : Label} {v : Value} {name : String} :
    name ∈ (σ.run ops).packet.lookup l v ↔
      name ∈ σ.packet.lookup l v ∧ .remove name ∉ ops := by
  induction ops generalizing σ with
  | nil => exact (and_iff_left List.not_mem_nil).symm
  | cons op ops ih =>
    rw [List.mem_cons, not_or] at hc
    change name ∈ ((op.run σ).run ops).packet.lookup l v ↔ _
    rw [ih (h.step ha.1) ha.2 hc.2, PacketOp.mem_lookup_run h (Ne.symm hc.1), List.mem_cons, not_or,
      and_assoc]
    simp only [ne_eq, eq_comm]

end Packet.Course

/-- Let a run of an empty packet come to a commit, and after that go on without another one. For
every label but the empty one, a lookup then answers with the names of the records that were
registered at the commit and, when it took their changes, held a field with that label the value of
which has the same index form as the one looked for, except for the names removed since. -/
theorem Packet.lookup_after_commit {maxDepth : Nat} {before after : List (PacketOp τ)}
    (h : (Course.start maxDepth).Admits (before ++ .commit :: after)) (hafter : .commit ∉ after)
    {l : Label} (hl : l ≠ .empty) (v : Value) (name : String) :
    name ∈ ((Course.start maxDepth).run (before ++ .commit :: after)).packet.lookup l v ↔
      (∃ id k w form,
        ((Course.start maxDepth).run before).packet.records.get? name = some id ∧
        (((Course.start maxDepth).run before).space.record id).fields.field? k = some ⟨l, w⟩ ∧
        w.indexForm = some form ∧ v.indexForm = some form) ∧
      .remove name ∉ after := by
  obtain ⟨hbefore, hcommit⟩ := Course.admits_append.mp h
  have hsound := (Course.sound_start maxDepth).run hbefore
  rw [Course.run_append]
  generalize (Course.start maxDepth).run before = σ at hsound hcommit ⊢
  change name ∈ ((PacketOp.commit.run σ).run after).packet.lookup l v ↔ _
  rw [hsound.commit.mem_lookup_run hcommit.2 hafter, Packet.lookup,
    hsound.commit.index.mem_lookup_iff]
  have hcurrent : ∀ k, (PacketOp.commit.run σ).packet.index.current.get? ⟨name, k⟩ =
      ((σ.packet.records.get? name).bind fun id =>
        (σ.space.record id).fields.field? k).bind Field.entry? := by
    intro k
    rw [← hsound.apply_drained_current, ← σ.packet.commit_index σ.space]
    rfl
  simp only [hcurrent, Option.bind_eq_some_iff]
  refine and_congr_left fun _ => ⟨?_, ?_⟩
  · rintro ⟨k, form, hv, ⟨m, w⟩, ⟨id, hid, hk⟩, he⟩
    obtain ⟨-, rfl, hw⟩ := Field.entry?_eq_some.mp he
    exact ⟨id, k, w, form, hid, hk, hw, hv⟩
  · rintro ⟨id, k, w, form, hid, hk, hw, hv⟩
    exact ⟨k, form, hv, ⟨l, w⟩, ⟨id, hid, hk⟩, Field.entry?_eq_some.mpr ⟨hl, rfl, hw⟩⟩

/-- A record is written, a sensor notes the commit in another one, and then the first one is
relabelled and refuses to give up a field that it does not have. -/
def relabelled : List (PacketOp Unit) :=
  [.create "a", .record ⟨1⟩ (.write (.label (.name "x")) (.int 1)), .newRecord (some "log") 4,
    .add ⟨2⟩, .addSensor { name := "s", patterns := [fun _ => true], output := some ⟨2⟩ }, .commit,
    .record ⟨1⟩ (.relabel ⟨1⟩ (.name "y")), .record ⟨1⟩ (.remove ⟨9⟩)]

/-- The log is taken out, and another one is begun under its name. -/
def logRenewed : List (PacketOp Unit) :=
  [.remove "log", .create "log", .record ⟨3⟩ (.write (.label (.name "sensor")) (.text "s"))]

theorem relabelled_admitted : (Course.start 4).Admits (relabelled ++ .commit :: logRenewed) := by
  refine Course.admits_append.mpr ⟨?_, ?_⟩
  · exact And.intro trivial (And.intro (.inl ⟨rfl, rfl⟩) (And.intro trivial
      (And.intro List.not_mem_nil (And.intro trivial (And.intro trivial
      (And.intro (.inl trivial) (And.intro (.inl trivial) trivial)))))))
  · exact And.intro trivial (And.intro trivial (And.intro trivial
      (And.intro (.inl ⟨rfl, rfl⟩) trivial)))

theorem commit_not_mem_logRenewed : .commit ∉ logRenewed := by
  simp [logRenewed]

theorem lookup_after_commit_logRenewed :
    "a" ∈ ((Course.start 4).run (relabelled ++ .commit :: logRenewed)).packet.lookup
        (.name "y") (.int 1) ∧
      "log" ∉ ((Course.start 4).run (relabelled ++ .commit :: logRenewed)).packet.lookup
        (.name "sensor") (.text "s") := by
  constructor
  · refine (Packet.lookup_after_commit relabelled_admitted commit_not_mem_logRenewed
      (by decide) _ _).mpr ⟨⟨⟨1⟩, ⟨1⟩, .int 1, .int 1, by decide, by decide, rfl, rfl⟩, ?_⟩
    simp [logRenewed]
  · intro hmem
    exact ((Packet.lookup_after_commit relabelled_admitted commit_not_mem_logRenewed
      (by decide) _ _).mp hmem).2 List.mem_cons_self

end LiveRecords
