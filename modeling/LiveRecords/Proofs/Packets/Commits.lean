import LiveRecords.Formula.Functions
import LiveRecords.Proofs.Packets.Acts

/-! # Every write is told by one commit

A commit tells the changes of the registered records and of no others, and takes them before it
shows them to a sensor. So what is noted of a registered record is told by the next commit and by
no later one, unless something else is noted in its place or its changes are taken before.
-/

namespace LiveRecords

variable {τ : Type}

open Packet (Course)

theorem PacketAct.Steps.get?_eq_some_iff {act : PacketAct τ} {σ : Course τ} {id : RecordId}
    (h : act.Steps σ id) (k : Key) (f : Field) :
    ((act.run σ).space.changesOf id).get? k = some f ↔
      (act.noted σ id).get? k = some f ∨
        (¬ act.Takes σ id ∧ (act.noted σ id).get? k = none) ∧
          (σ.space.changesOf id).get? k = some f := by
  by_cases ht : act.Takes σ id
  · rw [h.taken ht]
    simp only [ht, not_true_eq_false, false_and, or_false]
  · rw [h.left ht, Option.or_eq_some_iff]
    simp only [ht, not_false_eq_true, true_and]

namespace Packet.Course

/-- One of the acts noted this of a key, none after it noted anything else, and the changes were
not taken since. -/
def Lasts (σ : Course τ) (id : RecordId) (k : Key) (f : Field) (acts : List (PacketAct τ)) : Prop :=
  ∃ before act after, acts = before ++ act :: after ∧
    (act.noted (σ.acted before) id).get? k = some f ∧
    Leaves id k (act.run (σ.acted before)) after

variable {σ : Course τ} {id : RecordId} {k : Key} {f : Field} {act : PacketAct τ}
  {acts : List (PacketAct τ)}

section Splits

variable (Q : Course τ → PacketAct τ → Prop) (R : Course τ → List (PacketAct τ) → Prop)

theorem not_split_nil :
    ¬ ∃ before act after, [] = before ++ act :: after ∧ Q (σ.acted before) act ∧
      R (act.run (σ.acted before)) after := by
  rintro ⟨before, act, after, h, -⟩
  exact absurd h (by simp)

/-- What one act does, and those after it, is done by the first act or by a later one. -/
theorem split_cons :
    (∃ before last after, act :: acts = before ++ last :: after ∧ Q (σ.acted before) last ∧
        R (last.run (σ.acted before)) after) ↔
      (Q σ act ∧ R (act.run σ) acts) ∨
        ∃ before last after, acts = before ++ last :: after ∧ Q ((act.run σ).acted before) last ∧
          R (last.run ((act.run σ).acted before)) after := by
  constructor
  · rintro ⟨before, last, after, h, hq, hr⟩
    cases before with
    | nil =>
      cases h
      exact .inl ⟨hq, hr⟩
    | cons first before =>
      cases h
      exact .inr ⟨before, last, after, rfl, hq, hr⟩
  · rintro (⟨hq, hr⟩ | ⟨before, last, after, rfl, hq, hr⟩)
    · exact ⟨[], act, acts, rfl, hq, hr⟩
    · exact ⟨act :: before, last, after, rfl, hq, hr⟩

end Splits

theorem not_lasts_nil : ¬ σ.Lasts id k f [] :=
  not_split_nil (fun σ act => (act.noted σ id).get? k = some f) (Leaves id k)

theorem lasts_cons :
    σ.Lasts id k f (act :: acts) ↔
      ((act.noted σ id).get? k = some f ∧ Leaves id k (act.run σ) acts) ∨
        (act.run σ).Lasts id k f acts :=
  split_cons (fun σ act => (act.noted σ id).get? k = some f) (Leaves id k)

theorem permits_append {before after : List (PacketAct τ)} :
    σ.Permits (before ++ after) ↔ σ.Permits before ∧ (σ.acted before).Permits after := by
  induction before generalizing σ with
  | nil => exact ⟨fun h => ⟨trivial, h⟩, fun h => h.2⟩
  | cons act before ih =>
    change act.Allowed σ ∧ (act.run σ).Permits (before ++ after) ↔
      (act.Allowed σ ∧ (act.run σ).Permits before) ∧ ((act.run σ).acted before).Permits after
    rw [ih, and_assoc]

theorem acted_append (before after : List (PacketAct τ)) :
    σ.acted (before ++ after) = (σ.acted before).acted after :=
  List.foldl_append

/-- What the changes of a record tell, the last act that noted it noted, or it was there before. -/
theorem Orderly.get?_acted_iff (h : σ.Orderly) (ha : σ.Permits acts) :
    ((σ.acted acts).space.changesOf id).get? k = some f ↔
      σ.Lasts id k f acts ∨ Leaves id k σ acts ∧ (σ.space.changesOf id).get? k = some f := by
  induction acts generalizing σ with
  | nil =>
    change (σ.space.changesOf id).get? k = some f ↔ _ ∨ True ∧ _
    simp only [not_lasts_nil, false_or, true_and]
  | cons act acts ih =>
    change (((act.run σ).acted acts).space.changesOf id).get? k = some f ↔ _ ∨
      (¬ act.Takes σ id ∧ (act.noted σ id).get? k = none ∧ Leaves id k (act.run σ) acts) ∧ _
    rw [ih (h.step ha.1) ha.2, (h.steps ha.1 id).get?_eq_some_iff, lasts_cons]
    constructor
    · rintro (hl | ⟨hl, hn | ⟨⟨ht, hn⟩, hb⟩⟩)
      · exact .inl (.inr hl)
      · exact .inl (.inl ⟨hn, hl⟩)
      · exact .inr ⟨⟨ht, hn, hl⟩, hb⟩
    · rintro ((⟨hn, hl⟩ | hl) | ⟨⟨ht, hn, hl⟩, hb⟩)
      · exact .inr ⟨hl, .inl hn⟩
      · exact .inl hl
      · exact .inr ⟨hl, .inr ⟨⟨ht, hn⟩, hb⟩⟩

theorem registered_run {name : String} (hn : σ.packet.records.get? name = some id)
    (hr : act ≠ .remove name) : (act.run σ).packet.records.get? name = some id := by
  have hput : ∀ {m : String} (j : RecordId), σ.packet.records.get? m = none →
      (σ.packet.records.put m j).get? name = some id := by
    intro m j hm
    have hne : name ≠ m := by
      rintro rfl
      rw [hn] at hm
      cases hm
    rw [Table.get?_put_if, if_neg hne, hn]
  cases act with
  | create m =>
    rw [PacketAct.run, PacketOp.run, σ.packet.create_run]
    cases hm : σ.packet.records.get? m with
    | some _ => exact hn
    | none => exact hput _ hm
  | add j =>
    rw [PacketAct.run, PacketOp.run]
    cases hname : (σ.space.record j).name with
    | none =>
      rw [σ.packet.add_run_unnamed _ _ hname]
      exact hn
    | some m =>
      rw [σ.packet.add_run _ _ hname]
      cases hm : σ.packet.records.get? m with
      | some _ => exact hn
      | none => exact hput _ hm
  | remove m =>
    rw [PacketAct.run, PacketOp.run, σ.packet.remove_run]
    cases σ.packet.records.get? m with
    | none => exact hn
    | some _ =>
      have hne : name ≠ m := fun he => hr (congrArg PacketAct.remove he.symm)
      exact (Table.get?_erase_if ..).trans (by rw [if_neg hne, hn])
  | commit => exact (congrArg (Table.get? · name) (σ.packet.commit_records σ.space)).trans hn
  | _ => exact hn

namespace Orderly

variable (h : σ.Orderly)
include h

theorem not_takes (ha : act.Allowed σ) {name : String}
    (hn : σ.packet.records.get? name = some id) (hc : act ≠ .commit) (hr : act ≠ .remove name)
    (ht : act ≠ .operation (.record id .takeChanges)) : ¬ act.Takes σ id := by
  cases act with
  | operation op =>
    rcases op.notes_or with ho | ⟨kept, rfl⟩ | ⟨j, rfl⟩
    · exact PacketAct.not_takes_of_notes ho σ id
    · have hkept : kept id = true := ha id (σ.packet.mem_held hn)
      exact fun hid : kept id = false => Bool.noConfusion (hkept.symm.trans hid)
    · rintro rfl
      exact ht rfl
  | remove m =>
    intro hm
    exact hr (congrArg PacketAct.remove (h.name_unique hn hm))
  | commit => exact absurd rfl hc
  | _ => exact fun ht => ht

theorem leaves_acted (ha : σ.Permits acts) {name : String}
    (hn : σ.packet.records.get? name = some id) (hc : .commit ∉ acts) (hr : .remove name ∉ acts)
    (ht : .operation (.record id .takeChanges) ∉ acts)
    (hk : ∀ before act after, acts = before ++ act :: after →
      (act.noted (σ.acted before) id).get? k = none) :
    Leaves id k σ acts ∧ (σ.acted acts).packet.records.get? name = some id := by
  induction acts generalizing σ with
  | nil => exact ⟨trivial, hn⟩
  | cons act acts ih =>
    rw [List.mem_cons, not_or] at hc hr ht
    have hrest := ih (h.step ha.1) ha.2 (registered_run hn (Ne.symm hr.1)) hc.2 hr.2 ht.2
      fun before last after he => hk (act :: before) last after (by rw [he]; rfl)
    have hleft := h.not_takes ha.1 hn (Ne.symm hc.1) (Ne.symm hr.1) (Ne.symm ht.1)
    exact ⟨⟨hleft, hk [] act acts rfl, hrest.1⟩, hrest.2⟩

/-- What is noted of a registered record lasts until the next commit. -/
theorem lasts_of_noted {before after : List (PacketAct τ)} (ha : σ.Permits (before ++ act :: after))
    {name : String} (hn : (act.run (σ.acted before)).packet.records.get? name = some id)
    (hc : .commit ∉ after) (hr : .remove name ∉ after)
    (ht : .operation (.record id .takeChanges) ∉ after)
    (hf : (act.noted (σ.acted before) id).get? k = some f)
    (hk : ∀ earlier later last, after = earlier ++ later :: last →
      (later.noted (σ.acted (before ++ act :: earlier)) id).get? k = none) :
    (σ.acted (before ++ act :: after)).packet.records.get? name = some id ∧
      σ.Lasts id k f (before ++ act :: after) := by
  obtain ⟨hbefore, hact, hafter⟩ := permits_append.mp ha
  obtain ⟨hleaves, hstay⟩ := ((h.acted hbefore).step hact).leaves_acted hafter hn hc hr ht
    fun earlier later last he => by
      have hnone := hk earlier later last he
      rwa [acted_append] at hnone
  rw [acted_append]
  exact ⟨hstay, before, act, after, rfl, hf, hleaves⟩

/-- The changeset of a commit has an entry for every registered record with changes. -/
theorem get?_commit (name : String) :
    (σ.packet.commit σ.space).changes.get? name =
      (σ.packet.records.get? name).bind fun id =>
        if (σ.space.record id).changes.isEmpty then none else some (σ.space.record id).changes := by
  rw [commit_changes, drain_get? h.entries_pairwise fun _ _ => rfl]
  have hlookup : Table.lookup name σ.packet.records.entries = σ.packet.records.get? name := rfl
  rw [hlookup]
  cases hn : σ.packet.records.get? name with
  | none => rfl
  | some id =>
    have hasc : (σ.space.record id).changes.Ascending := h.changesOf hn ▸ h.changes id
    have hmerge : Table.merge ∅ (σ.space.record id).changes = (σ.space.record id).changes := by
      refine (Table.ascending_empty.merge _).ext hasc fun k => ?_
      rw [hasc.get?_merge]
      exact Option.or_none
    rw [Option.bind_some]
    dsimp only
    rw [hmerge]

theorem get?_commit_eq_some_iff (name : String) (c : Changes) :
    (σ.packet.commit σ.space).changes.get? name = some c ↔
      ∃ id, σ.packet.records.get? name = some id ∧ (σ.space.record id).changes = c ∧
        c.isEmpty = false := by
  rw [h.get?_commit, Option.bind_eq_some_iff]
  refine exists_congr fun id => and_congr_right fun _ => ?_
  constructor
  · intro he
    split at he
    · cases he
    · rename_i hne
      cases he
      exact ⟨rfl, Bool.eq_false_iff.mpr hne⟩
  · rintro ⟨rfl, he⟩
    rw [he]
    rfl

theorem change?_commit (name : String) (k : Key) :
    (σ.packet.commit σ.space).changes.change? name k =
      (σ.packet.records.get? name).bind fun id => (σ.space.changesOf id).get? k := by
  rw [Changeset.change?, h.get?_commit]
  cases hn : σ.packet.records.get? name with
  | none => rfl
  | some id =>
    rw [Option.bind_some, Option.bind_some, h.changesOf hn]
    split
    · rename_i he
      rw [Changeset.get?_of_isEmpty he]
      rfl
    · rfl

end Orderly

theorem get?_acted_start_iff {maxDepth : Nat} (h : (start maxDepth).Permits acts) :
    (((start maxDepth).acted acts).space.changesOf id).get? k = some f ↔
      (start maxDepth).Lasts id k f acts := by
  rw [(orderly_start maxDepth).get?_acted_iff h, or_iff_left]
  rintro ⟨-, hf⟩
  have hempty : (start maxDepth : Course τ).space.changesOf id = ∅ := ite_self _
  rw [hempty] at hf
  cases hf

theorem change?_commit_start_iff {maxDepth : Nat} (h : (start maxDepth).Permits acts)
    (name : String) (k : Key) (f : Field) :
    let σ := (start maxDepth).acted acts
    (σ.packet.commit σ.space).changes.change? name k = some f ↔
      ∃ id, σ.packet.records.get? name = some id ∧ (start maxDepth).Lasts id k f acts := by
  intro σ
  rw [((orderly_start maxDepth).acted h).change?_commit, Option.bind_eq_some_iff]
  exact exists_congr fun _ => and_congr_right fun _ => get?_acted_start_iff h

theorem commit_again (p : Packet τ) (s : Space) (hs : ∀ e ∈ p.sensors, e.2.output.isSome →
    e.2.evaluate (p.commit s).changes = none) :
    (p.commit s).packet.commit (p.commit s).space =
      ⟨∅, [], (p.commit s).packet, (p.commit s).space⟩ := by
  refine commit_of_isEmpty fun e he => ?_
  rw [commit_records] at he
  rw [p.commit_space_of_silent s hs, drain_record, if_pos (List.mem_map_of_mem he)]
  rfl

end Packet.Course

/-- Let a run of an empty packet come to a commit. Its changeset has an entry for every registered
record the changes of which are not empty, and none besides, and under every key it tells what was
noted last and not taken before. All these changes are taken before the first sensor is shown the
changeset. So it tells whatever was noted of a registered record since the last commit, unless
something else was noted in its place, the record was removed or someone other than the packet took
its changes. And if no sensor with an output fired, another commit comes to nothing, listeners being
taken to do nothing to records. -/
theorem Packet.commit_tells_noted {maxDepth : Nat} {acts : List (PacketAct τ)}
    (h : (Course.start maxDepth).Permits acts) :
    let σ := (Course.start maxDepth).acted acts
    let commit := σ.packet.commit σ.space
    commit.changes.Ascending ∧
    (∀ name c, commit.changes.get? name = some c ↔
      ∃ id, σ.packet.records.get? name = some id ∧ (σ.space.record id).changes = c ∧
        c.isEmpty = false) ∧
    (∀ name k f, commit.changes.change? name k = some f ↔
      ∃ id, σ.packet.records.get? name = some id ∧ (Course.start maxDepth).Lasts id k f acts) ∧
    (∃ taken : Space,
      (∀ name id, σ.packet.records.get? name = some id → (taken.record id).changes = ∅) ∧
      (commit.delivered, commit.packet.sensors, commit.space) =
        if commit.changes.isEmpty then ([], σ.packet.sensors, taken)
        else consult commit.changes taken σ.packet.sensors) ∧
    (∀ before act after, acts = before ++ act :: after →
      ∀ name id, (act.run ((Course.start maxDepth).acted before)).packet.records.get? name =
          some id → .commit ∉ after → .remove name ∉ after →
      .operation (.record id .takeChanges) ∉ after →
      ∀ k f, (act.noted ((Course.start maxDepth).acted before) id).get? k = some f →
        (∀ earlier later last, after = earlier ++ later :: last →
          (later.noted ((Course.start maxDepth).acted (before ++ act :: earlier)) id).get? k =
            none) →
        commit.changes.change? name k = some f) ∧
    ((∀ e ∈ σ.packet.sensors, e.2.output.isSome → e.2.evaluate commit.changes = none) →
      commit.packet.commit commit.space = ⟨∅, [], commit.packet, commit.space⟩) := by
  intro σ commit
  have hstart : (Course.start maxDepth : Course τ).Orderly := Course.orderly_start maxDepth
  have hσ : σ.Orderly := hstart.acted h
  have htold := Course.change?_commit_start_iff h
  refine ⟨(σ.packet.ordered_commit σ.space).1, hσ.get?_commit_eq_some_iff, htold, ?_, ?_,
    Course.commit_again σ.packet σ.space⟩
  · refine ⟨(drain σ.space σ.packet.records.entries ∅).2, fun name id hn => ?_, ?_⟩
    · rw [drain_record, if_pos (hσ.mem_values_iff.mpr ⟨name, hn⟩)]
    · have hchanges : commit.changes = (drain σ.space σ.packet.records.entries ∅).1 :=
        commit_changes ..
      rw [hchanges]
      exact commit_consults σ.packet σ.space
  · intro before act after he name id hn hc hr ht k f hf hk
    have hlast := hstart.lasts_of_noted (he ▸ h) hn hc hr ht hf hk
    rw [← he] at hlast
    exact (htold name k f).mpr ⟨id, hlast⟩

/-- A sensor notes the first commit in a registered log, and another record comes and goes. -/
def logged : List (PacketAct Unit) :=
  [.create "a", .create "log",
    .operation (.newDerived
      { getter := .mk "first" Function.first [.here (.name "x")]
        reactions := [(.name "x", .mk "first" Function.first [.here (.name "c")])] }),
    .operation (.record ⟨1⟩ (.add (.name "x") (.int 1))),
    .operation (.record ⟨1⟩ (.add (.name "c") (.cell (.derived ⟨1⟩)))),
    .addSensor { name := "s", patterns := [fun _ => true], output := some ⟨2⟩ }, .commit,
    .create "b", .write ⟨⟨"b", ⟨3⟩⟩, .name "y"⟩ (.int 7), .remove "b"]

/-- A reaction writes `x`, something fails, and the sensor is taken out. -/
def reacted : List (PacketAct Unit) :=
  [.operation (.record ⟨1⟩ (.write (.label (.name "c")) (.int 5))),
    .operation (.record ⟨1⟩ (.remove ⟨9⟩)), .removeSensor 1]

theorem permits_reacted : (Course.start 4).Permits (logged ++ reacted) :=
  ⟨trivial, trivial, trivial, trivial, trivial, trivial, trivial, trivial, trivial, trivial,
    trivial, trivial, trivial, trivial⟩

theorem commit_tells_noted_reacted :
    let σ := (Course.start 4).acted (logged ++ reacted)
    let commit := σ.packet.commit σ.space
    commit.changes.change? "a" ⟨1⟩ = some ⟨.name "x", .int 5⟩ ∧
      (∃ c, commit.changes.get? "log" = some c) ∧ commit.changes.get? "b" = none ∧
      commit.packet.commit commit.space = ⟨∅, [], commit.packet, commit.space⟩ := by
  obtain ⟨-, hget, -, -, hnoted, hagain⟩ := Packet.commit_tells_noted permits_reacted
  refine ⟨?_, ?_, ?_, ?_⟩
  · refine hnoted logged _ _ rfl "a" ⟨1⟩ (by decide +kernel) (by simp) (by simp) (by simp)
      ⟨1⟩ _ (by decide +kernel) fun earlier later last he => ?_
    rcases earlier with _ | ⟨_, _ | ⟨_, _⟩⟩
    · cases he
      decide +kernel
    · cases he
      decide +kernel
    · simp at he
  · exact ⟨_, (hget "log" _).mpr ⟨⟨2⟩, by decide +kernel, rfl, by decide +kernel⟩⟩
  · rw [Option.eq_none_iff_forall_ne_some]
    intro c hc
    obtain ⟨id, hid, -⟩ := (hget "b" c).mp hc
    have hnone : ((Course.start 4).acted (logged ++ reacted)).packet.records.get? "b" = none := by
      decide +kernel
    rw [hnone] at hid
    cases hid
  · have hs : ((Course.start 4).acted (logged ++ reacted)).packet.sensors = [] := rfl
    refine hagain fun e he => ?_
    rw [hs] at he
    cases he

end LiveRecords
