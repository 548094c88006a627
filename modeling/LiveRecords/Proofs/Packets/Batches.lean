import LiveRecords.Proofs.Packets.Commits

/-! # Two commits come to one

Committing after each of two batches of operations tells, taken together, what one commit after
both of them tells, and it leaves an index that answers the same.
-/

namespace LiveRecords

variable {τ : Type}

open Packet (Course)

namespace Changeset

/-- No record has an entry without changes. -/
def Filled (cs : Changeset) : Prop := cs.Each fun c => c.isEmpty = false

variable {cs ds : Changeset}

theorem Filled.insert (h : cs.Filled) (name : String) (c : Changes) :
    (cs.insert name c).Filled := by
  unfold Changeset.insert
  split
  · exact h
  · rename_i hc
    exact h.put name (Table.isEmpty_merge _ (Bool.eq_false_iff.mpr hc))

theorem Filled.merge (h : cs.Filled) (later : Changeset) : (cs.merge later).Filled :=
  List.foldlRecOn later.entries _ h fun _ h e _ => Filled.insert h e.1 e.2

theorem Ordered.merge (h : cs.Ordered) (later : Changeset) : (cs.merge later).Ordered :=
  List.foldlRecOn later.entries _ h fun _ h e _ => Ordered.insert h e.1 e.2

theorem change?_merge (cs : Changeset) {later : Changeset} (h : later.Ordered) (name : String)
    (k : Key) :
    (cs.merge later).change? name k = (later.change? name k).or (cs.change? name k) := by
  have hc : ∀ e ∈ later.entries, e.2.Ascending := fun e he =>
    h.2 e.1 e.2 (h.1.mem_entries_iff.mp he)
  obtain ⟨hasc, -⟩ := h
  obtain ⟨es⟩ := later
  change (es.foldl (fun acc e => acc.insert e.1 e.2) cs).change? name k =
    ((Table.lookup name es).bind (·.get? k)).or (cs.change? name k)
  change ∀ e ∈ es, e.2.Ascending at hc
  change es.Pairwise _ at hasc
  induction es generalizing cs with
  | nil => rfl
  | cons e es ih =>
    obtain ⟨n, c⟩ := e
    obtain ⟨hn, hes⟩ := List.pairwise_cons.mp hasc
    rw [List.forall_mem_cons] at hc
    rw [List.foldl_cons, ih _ hc.2 hes, change?_insert hc.1, Table.lookup]
    simp only [Std.LawfulEqCmp.compare_eq_iff_eq]
    split
    · rename_i he
      rw [he, Table.lookup_eq_none hn]
      rfl
    · rfl

theorem Filled.exists_change? (hf : cs.Filled) {name : String} {c : Changes}
    (hc : cs.get? name = some c) : ∃ k f, cs.change? name k = some f := by
  obtain ⟨⟨k, _⟩, he⟩ := List.isEmpty_eq_false_iff_exists_mem.mp (hf.of_get? hc)
  obtain ⟨f, hf⟩ := Table.exists_get?_of_mem he
  exact ⟨k, f, by rw [change?, hc, Option.bind_some, hf]⟩

/-- Changesets without empty entries that tell the same are the same. -/
theorem eq_of_change? (ho : cs.Ordered) (hf : cs.Filled) (ho' : ds.Ordered) (hf' : ds.Filled)
    (h : ∀ name k, cs.change? name k = ds.change? name k) : cs = ds := by
  refine ho.1.ext ho'.1 fun name => ?_
  cases hc : cs.get? name with
  | none =>
    symm
    rw [Option.eq_none_iff_forall_ne_some]
    intro d hd
    obtain ⟨k, f, hk⟩ := hf'.exists_change? hd
    rw [← h, change?, hc] at hk
    cases hk
  | some c =>
    cases hd : ds.get? name with
    | none =>
      obtain ⟨k, f, hk⟩ := hf.exists_change? hc
      rw [h, change?, hd] at hk
      cases hk
    | some d =>
      refine congrArg some ((ho.2 name c hc).ext (ho'.2 name d hd) fun k => ?_)
      have hk := h name k
      rwa [change?, change?, hc, hd] at hk

end Changeset

namespace Space

/-- The space after some operations, whichever of them fault. -/
def perform (ops : List Operation) (s : Space) : Space := ops.foldl (fun s op => final op.run s) s

theorem Alike.perform {ops : List Operation} (ho : ∀ op ∈ ops, op.Notes) {s t : Space}
    (h : s.Alike t) :
    ∃ notes, s.Gains notes (s.perform ops) ∧ t.Gains notes (t.perform ops) := by
  induction ops generalizing s t with
  | nil => exact ⟨[], .refl s, .refl t⟩
  | cons op ops ih =>
    rw [List.forall_mem_cons] at ho
    obtain ⟨notes, ha, hs, ht⟩ := (Operation.oblivious ho.1).ends h
    obtain ⟨later, hs', ht'⟩ := ih ho.2 ha
    exact ⟨notes ++ later, hs.trans hs', ht.trans ht'⟩

end Space

namespace Packet.Course.Orderly

variable {σ : Course τ} (h : σ.Orderly)
include h

theorem perform {ops : List Operation} (ho : ∀ op ∈ ops, op.Notes) :
    Orderly { σ with space := σ.space.perform ops } := by
  induction ops generalizing σ with
  | nil => exact h
  | cons op ops ih =>
    rw [List.forall_mem_cons] at ho
    exact ih (h.operation op ho.1) ho.2

theorem filled_commit : (σ.packet.commit σ.space).changes.Filled := by
  rintro ⟨name, c⟩ he
  have hget := (σ.packet.ordered_commit σ.space).1.mem_entries_iff.mp he
  obtain ⟨-, -, -, hne⟩ := (h.get?_commit_eq_some_iff name c).mp hget
  exact hne

/-- Of a second batch of operations a commit after the first one tells what the second noted, and
one commit after both tells that and, below it, what the first noted. -/
theorem change?_commit_in_two (hs : ∀ e ∈ σ.packet.sensors, e.2.output = none)
    {earlier later : List Operation} (he : ∀ op ∈ earlier, op.Notes)
    (hl : ∀ op ∈ later, op.Notes) (name : String) (k : Key) :
    let first := σ.packet.commit (σ.space.perform earlier)
    let second := first.packet.commit (first.space.perform later)
    let once := σ.packet.commit ((σ.space.perform earlier).perform later)
    once.changes.change? name k =
      (second.changes.change? name k).or (first.changes.change? name k) := by
  intro first second once
  have hone := h.perform he
  have hspace : first.space = (drain (σ.space.perform earlier) σ.packet.records.entries ∅).2 := by
    refine commit_space_of_silent _ _ fun e hmem ho => ?_
    rw [hs e hmem] at ho
    cases ho
  have hrecords : first.packet.records = σ.packet.records := commit_records ..
  have halike : (σ.space.perform earlier).Alike first.space := hspace ▸ drain_alike
  obtain ⟨notes, hg, hg'⟩ := halike.perform hl
  have hfirst := hone.change?_commit name k
  have hsecond := (hone.commit.perform hl).change?_commit name k
  have honce := (hone.perform hl).change?_commit name k
  change first.changes.change? name k = _ at hfirst
  change second.changes.change? name k = (first.packet.records.get? name).bind
    fun id => ((first.space.perform later).changesOf id).get? k at hsecond
  change once.changes.change? name k = _ at honce
  rw [hfirst, hsecond, honce, hrecords]
  cases hn : σ.packet.records.get? name with
  | none => rfl
  | some id =>
    have hid : id ∈ σ.packet.records.entries.map (·.2) := Table.mem_values_of_get? hn
    rw [Option.bind_some, Option.bind_some, Option.bind_some, hg.changes, hg'.changes, hspace,
      drain_changesOf, if_pos hid]
    exact Note.get?_replay k

end Packet.Course.Orderly

/-- Let a run of an empty packet come to where no sensor has an output. Operations on its records
that take no changes, failing ones included, are done in two batches. The changesets of a commit
after each batch, merged, are the changeset of one commit after both, and either way the index
answers all lookups the same and has the same entries and labels. Listeners are taken to do nothing
to records. -/
theorem Packet.commit_in_two {maxDepth : Nat} {acts : List (PacketAct τ)}
    (h : (Course.start maxDepth).Permits acts)
    (hs : ∀ e ∈ ((Course.start maxDepth).acted acts).packet.sensors, e.2.output = none)
    {earlier later : List Operation} (he : ∀ op ∈ earlier, op.Notes)
    (hl : ∀ op ∈ later, op.Notes) :
    let σ := (Course.start maxDepth).acted acts
    let first := σ.packet.commit (σ.space.perform earlier)
    let second := first.packet.commit (first.space.perform later)
    let once := σ.packet.commit ((σ.space.perform earlier).perform later)
    first.changes.merge second.changes = once.changes ∧
      (∀ l v, second.packet.index.lookup l v = once.packet.index.lookup l v) ∧
      second.packet.index.size = once.packet.index.size ∧
      second.packet.index.labels = once.packet.index.labels := by
  intro σ first second once
  have hσ : σ.Orderly := (Course.orderly_start maxDepth).acted h
  have hone := hσ.perform he
  have htwo := hone.commit.perform hl
  have hboth := hone.perform hl
  have hchange := hσ.change?_commit_in_two hs he hl
  refine ⟨?_, Index.answers_eq htwo.commit.index htwo.commit.pruned hboth.commit.index
    hboth.commit.pruned fun site => ?_⟩
  · -- Neither changeset keeps an empty entry, so it is enough that they tell the same.
    refine Changeset.eq_of_change? ((ordered_commit ..).merge _) (hone.filled_commit.merge _)
      (ordered_commit ..) hboth.filled_commit fun name k => ?_
    rw [Changeset.change?_merge _ (ordered_commit ..)]
    exact (hchange name k).symm
  · -- The last field told is the one entered, in one step or in two.
    have honce : once.packet.index.current.get? site = _ :=
      σ.packet.commit_current ((σ.space.perform earlier).perform later) site
    have hsecond : second.packet.index.current.get? site = _ :=
      first.packet.commit_current (first.space.perform later) site
    rw [honce, hsecond, σ.packet.commit_current (σ.space.perform earlier) site, hchange]
    cases second.changes.change? site.name site.key <;> rfl

/-- A record holds a number and a cell that passes on what is written to it. -/
def entered : List (PacketAct Unit) :=
  [.create "a",
    .operation (.newDerived
      { getter := .mk "first" Function.first [.here (.name "x")]
        reactions := [(.name "x", .mk "first" Function.first [.here (.name "c")])] }),
    .operation (.record ⟨1⟩ (.add (.name "x") (.int 1))),
    .operation (.record ⟨1⟩ (.add (.name "c") (.cell (.derived ⟨1⟩)))),
    .addSensor { name := "s", patterns := [fun _ => true] }, .commit]

/-- The number is written through the cell, and something fails. -/
def rewritten : List Operation :=
  [.record ⟨1⟩ (.write (.label (.name "c")) (.int 5)), .record ⟨1⟩ (.remove ⟨9⟩)]

/-- The number is relabelled, and the cell is removed. -/
def retitled : List Operation :=
  [.record ⟨1⟩ (.relabel ⟨1⟩ (.name "y")), .record ⟨1⟩ (.remove ⟨2⟩)]

theorem commit_in_two_retitled :
    let σ := (Course.start 4).acted entered
    let first := σ.packet.commit (σ.space.perform rewritten)
    let second := first.packet.commit (first.space.perform retitled)
    first.changes.change? "a" ⟨1⟩ = some ⟨.name "x", .int 5⟩ ∧
      (first.changes.merge second.changes).change? "a" ⟨1⟩ = some ⟨.name "y", .int 5⟩ ∧
      second.packet.index.lookup (.name "y") (.int 5) = ["a"] ∧
      second.packet.index.lookup (.name "x") (.int 5) = [] ∧ second.packet.index.size = 1 := by
  have hs : ∀ e ∈ ((Course.start 4).acted entered).packet.sensors, e.2.output = none := by
    have hsensors : ((Course.start 4).acted entered).packet.sensors.map (·.2.output) = [none] := rfl
    intro e he
    have hout := List.mem_map_of_mem (f := (·.2.output)) he
    rw [hsensors, List.mem_singleton] at hout
    exact hout
  have h : (Course.start 4).Permits entered :=
    ⟨trivial, trivial, trivial, trivial, trivial, trivial, trivial⟩
  have he : ∀ op ∈ rewritten, op.Notes := by simp [rewritten, Operation.Notes]
  have hl : ∀ op ∈ retitled, op.Notes := by simp [retitled, Operation.Notes]
  obtain ⟨hmerge, hlookup, hsize, -⟩ := Packet.commit_in_two h hs he hl
  refine ⟨by decide +kernel, ?_, ?_, ?_, ?_⟩
  · rw [hmerge]
    decide +kernel
  · rw [hlookup]
    decide +kernel
  · rw [hlookup]
    decide +kernel
  · rw [hsize]
    decide +kernel

end LiveRecords
