import LiveRecords.Proofs.Container.Mirror

/-! # Runs of operations on one holder

Whatever operations are run on a holder, whichever of them fault, their answers and all that is
observed of the holder afterwards are told by running them on its ledger. A key in use stays in
use until it is removed, and one that has been removed does not come back.
-/

namespace LiveRecords

/-- In what a program comes to, leaving out the state. -/
def outcome {σ α : Type} (m : EStateM Fault σ α) (s : σ) : Except Fault α :=
  match m s with
  | .ok a _ => .ok a
  | .error e _ => .error e

/-- What the steps come to one after the other, whichever of them fault, and where they end. -/
def runAll {ι σ α : Type} (step : ι → EStateM Fault σ α) : List ι → σ → List (Except Fault α) × σ
  | [], s => ([], s)
  | i :: is, s =>
    let rest := runAll step is (final (step i) s)
    (outcome (step i) s :: rest.1, rest.2)

/-- The operations, each with what the fields of `g` do not tell when it comes to it. -/
def ContainerOp.inSurroundings (g : Holder) :
    List ContainerOp → Space → List (Surroundings × ContainerOp)
  | [], _ => []
  | op :: ops, s => (s.surroundings g, op) :: inSurroundings g ops (final (op.reply g) s)

/-- Run the operations on `g`. -/
def Holder.runAll (g : Holder) (ops : List ContainerOp) (s : Space) :
    List (Except Fault Reply) × Space :=
  LiveRecords.runAll (·.reply g) ops s

def Ledger.runAll (es : List (Surroundings × ContainerOp)) (L : Ledger) :
    List (Except Fault Reply) × Ledger :=
  LiveRecords.runAll (fun e => e.2.book e.1) es L

theorem ContainerOp.map_inSurroundings (g : Holder) (ops : List ContainerOp) (s : Space) :
    (inSurroundings g ops s).map (·.2) = ops := by
  induction ops generalizing s with
  | nil => rfl
  | cons op ops ih => rw [inSurroundings, List.map_cons, ih]

theorem moves_runAll {ι σ α : Type} {R : σ → σ → Prop} [IsPreorder σ R]
    {step : ι → EStateM Fault σ α} (is : List ι) (h : ∀ i ∈ is, Moves R (step i)) (s : σ) :
    R s (runAll step is s).2 := by
  induction is generalizing s with
  | nil => exact refl_of R s
  | cons i is ih =>
    rw [List.forall_mem_cons] at h
    exact trans_of R (h.1 s) (ih h.2 _)

section Seen

variable {α : Type} {view : Space → Ledger} {m : Edit α} {n : EStateM Fault Ledger α} {s : Space}
  {L : Ledger}

theorem outcome_of_seen (h : seen view (m s) = n L) : outcome m s = outcome n L := by
  cases hm : m s <;> rw [hm] at h <;> simp [outcome, hm, ← h, seen]

theorem final_of_seen (h : seen view (m s) = n L) : view (final m s) = final n L := by
  cases hm : m s <;> rw [hm] at h <;> simp [final, hm, ← h, seen]

end Seen

namespace Space

variable {s : Space} {g : Holder}

theorem layered_reply (g : Holder) (op : ContainerOp) : Moves (Keeps Layered) (op.reply g) := by
  intro s
  rw [← final_discard, op.discard_reply]
  exact holderClosed_layered.containerOp g op s

/-- All that is observed of the fields of `g` is told by the ledger. -/
structure Shows (s : Space) (g : Holder) (L : Ledger) : Prop where
  next : s.nextKey = L.next
  size : (s.contents g).size = L.entries.length
  isEmpty : (s.contents g).isEmpty = L.entries.isEmpty
  order : (s.contents g).order = L.keys
  entries : (s.contents g).entries = L.entries
  labels : (s.contents g).labels = L.entries.map (·.2.label)
  values : (s.contents g).values = L.entries.map (·.2.value)
  holds : ∀ k, (s.contents g).holds k = (L.field? k).isSome
  hasLabel : ∀ l, (s.contents g).hasLabel l = (L.labelled? l).isSome
  resolve : ∀ p, (s.contents g).resolve p = L.resolve p
  key : ∀ l, (s.contents g).key l =
    match L.labelled? l with
    | some e => .ok e.1
    | none => .error (.notFound (.label l))
  valueOfLabel : ∀ l, s.value (s.contents g) (.label l) =
    match L.labelled? l with
    | some e => .ok e.2.value
    | none => .error (.notFound (.label l))
  valueOfKey : ∀ k f, L.field? k = some f → s.value (s.contents g) (.key k) = .ok f.value

theorem Layered.shows (hs : s.Layered) (g : Holder) : s.Shows g (s.ledger g) := by
  have hc := hs.wellKept.contents g
  have horder : (s.contents g).order = (s.ledger g).keys := hc.keys_entries.symm
  have hlength : (s.contents g).order.length = (s.ledger g).entries.length := by
    rw [horder, Ledger.keys, List.length_map]
  have hholds : ∀ k, (s.contents g).holds k = ((s.ledger g).field? k).isSome := fun k => by
    rw [hs.ledger_field?]
    rfl
  refine ⟨rfl, hlength, ?_, horder, rfl, rfl, rfl, hholds, fun l => ?_, fun p => ?_, fun l => ?_,
    fun l => ?_, fun k f hf => ?_⟩
  · rw [Container.isEmpty, horder, Ledger.keys, List.isEmpty_map]
  · rw [← Option.isSome_map (f := Prod.fst)]
    change _ = ((s.ledger g).key? l).isSome
    rw [hs.ledger_key?]
    rfl
  · cases p with
    | key k => rw [Container.resolve, Ledger.resolve, hholds]
    | label l => exact (hs.ledger_key? g l).symm
  · rw [Container.key, ← hs.ledger_key?, Ledger.key?]
    cases (s.ledger g).labelled? l <;> rfl
  · have hl : (s.ledger g).labelled? l = ((s.contents g).key? l).bind fun k =>
        ((s.contents g).field? k).map (k, ·) := hc.ledger_labelled? l
    rw [value, hl]
    cases hk : (s.contents g).key? l with
    | none => rfl
    | some k =>
      obtain ⟨-, v, hv⟩ := (hc.key?_iff l k).mp hk
      simp [hv]
  · rw [hs.ledger_field?] at hf
    exact (hs.finds .here hf).value

/-- The induction is on the run: each step leads from a space with its ledger to a space with the
ledger that the step leads to. -/
theorem Layered.runAll_reply (hs : s.Layered) (g : Holder) (ops : List ContainerOp) :
    (s.ledger g).runAll (ContainerOp.inSurroundings g ops s) =
      ((g.runAll ops s).1, (g.runAll ops s).2.ledger g) := by
  induction ops generalizing s with
  | nil => rfl
  | cons op ops ih =>
    have hseen := hs.seen_reply g op
    have hrest := ih (layered_reply g op s hs)
    have hout : outcome (op.book (s.surroundings g)) (s.ledger g) = outcome (op.reply g) s :=
      (outcome_of_seen hseen).symm
    rw [final_of_seen hseen, Ledger.runAll, Holder.runAll] at hrest
    rw [ContainerOp.inSurroundings, Ledger.runAll, Holder.runAll, runAll, runAll]
    dsimp only
    rw [hrest, hout]

theorem Layered.runAll_layered (hs : s.Layered) (g : Holder) (ops : List ContainerOp) :
    (g.runAll ops s).2.Layered :=
  moves_runAll (R := Keeps Layered) ops (fun op _ => layered_reply g op) s hs

/-- A law of ledgers that the operations keep holds of the fields of `g` after a run. -/
theorem Layered.runAll_keeps (hs : s.Layered) {P : Ledger → Prop} (hP : Ledger.Steady P)
    {ops : List ContainerOp} (hd : ∀ k, .remove k ∈ ops → ∀ L, P L → P (L.drop k))
    (h : P (s.ledger g)) : P ((g.runAll ops s).2.ledger g) := by
  have hmoves : Ledger.Keeps P (s.ledger g)
      ((s.ledger g).runAll (ContainerOp.inSurroundings g ops s)).2 := by
    refine moves_runAll _ (fun e he => hP.book_moves e.1 e.2 fun k hk => hd k ?_) _
    rw [← hk, ← ContainerOp.map_inSurroundings g ops s]
    exact List.mem_map_of_mem he
  rw [hs.runAll_reply] at hmoves
  exact hmoves h

theorem Layered.holds_iff_mem_keys (hs : s.Layered) (k : Key) :
    (s.contents g).holds k = true ↔ k ∈ (s.ledger g).keys := by
  rw [← (hs.wellKept.contents g).mem_order, (hs.shows g).order]

theorem Layered.seen_ofFields (hs : s.Layered) (fields : List (Label × Value)) :
    LiveRecords.seen (·.ledger (.shared ⟨s.nextContainer⟩)) (ContainerId.ofFields fields s) =
      Ledger.ofFields
        ((final Edit.newContainer s).surroundings (.shared ⟨s.nextContainer⟩)) ⟨s.nextContainer⟩
        fields ⟨[], s.nextKey⟩ := by
  let t := final Edit.newContainer s
  have hnew : Edit.newContainer s = .ok ⟨s.nextContainer⟩ t := rfl
  have hledger : t.ledger (.shared ⟨s.nextContainer⟩) = ⟨[], s.nextKey⟩ := by
    have hc : t.contents (.shared ⟨s.nextContainer⟩) = {} :=
      (s.contents_setContents (.shared ⟨s.nextContainer⟩) _ {}).trans (if_pos rfl)
    rw [ledger, hc]
    rfl
  rw [ContainerId.ofFields, bind_of_ok hnew, ← hledger]
  exact ((mirrors_assignAll _ _ fields []).bind fun _ => .pure _).seen t
    (closed_layered.newContainer s hs) rfl

end Space

/-- What is run on a holder of a reachable space answers, faults and leaves the fields as the run
on the ledger of the holder does. All keys in use anywhere have been minted, so the next one is
larger. A key of the holder stays in use until it is removed, and a key that has been minted and is
not in use never comes back. New containers are filled by assigning the fields in turn. -/
theorem Reachable.runs_by_ledger {s : Space} (h : Reachable s) (g : Holder) :
    (∀ ops : List ContainerOp,
        let booked := (s.ledger g).runAll (ContainerOp.inSurroundings g ops s)
        (g.runAll ops s).1 = booked.1 ∧ (g.runAll ops s).2.Shows g booked.2) ∧
      (∀ d k, (s.contents d).holds k = true → k.number < s.nextKey) ∧
      (∀ (ops : List ContainerOp) k, (s.contents g).holds k = true → .remove k ∉ ops →
        ((g.runAll ops s).2.contents g).holds k = true) ∧
      (∀ (ops : List ContainerOp) k, k.number < s.nextKey → (s.contents g).holds k = false →
        ((g.runAll ops s).2.contents g).holds k = false) ∧
      ∀ fields,
        let id : ContainerId := ⟨s.nextContainer⟩
        let filled := Ledger.ofFields ((final Edit.newContainer s).surroundings (.shared id)) id
          fields
        outcome (ContainerId.ofFields fields) s = outcome filled ⟨[], s.nextKey⟩ ∧
          (final (ContainerId.ofFields fields) s).Shows (.shared id)
            (final filled ⟨[], s.nextKey⟩) := by
  have hs := h.layered
  refine ⟨fun ops => ?_,
    fun d k hk => hs.wellKept.minted d k (((hs.wellKept.contents d).mem_order k).mpr hk),
    fun ops k hk hr => ?_, fun ops k hn hk => ?_, fun fields => ?_⟩
  · rw [hs.runAll_reply]
    exact ⟨rfl, (hs.runAll_layered g ops).shows g⟩
  · rw [(hs.runAll_layered g ops).holds_iff_mem_keys]
    refine hs.runAll_keeps (Ledger.steady_mem k) (fun j hj L hL => ?_)
      ((hs.holds_iff_mem_keys k).mp hk)
    exact Ledger.mem_keys_drop.mpr ⟨fun he => hr (he ▸ hj), hL⟩
  · rw [← Bool.not_eq_true, (hs.runAll_layered g ops).holds_iff_mem_keys]
    rw [← Bool.not_eq_true, hs.holds_iff_mem_keys] at hk
    exact (hs.runAll_keeps (Ledger.steady_gone k) (fun j _ L hL =>
      ⟨hL.1, fun hm => hL.2 (Ledger.mem_keys_drop.mp hm).2⟩) ⟨hn, hk⟩).2
  · have hseen := hs.seen_ofFields fields
    have hfinal : (final (ContainerId.ofFields fields) s).Layered := by
      have hnext := (h.next (.ofFields fields)).layered
      rwa [Operation.run, final_discard] at hnext
    refine ⟨outcome_of_seen hseen, ?_⟩
    rw [← final_of_seen hseen]
    exact hfinal.shows _

/-- A container with one field, at `⟨2⟩`; the key `⟨1⟩` went elsewhere. -/
def oneField : Space := Space.after [.mintKey, .ofFields [(.name "a", .bool true)]]

/-- Another field is taken in before the first one, which then gets another label: the label that
it had is free again, the one that it has is refused. -/
def relabels : List ContainerOp :=
  [.addBefore ⟨2⟩ (.name "b") .empty, .relabel ⟨2⟩ (.name "c"), .add (.name "c") .empty,
    .assign (.label (.name "a")) .empty, .clear (.label (.name "c")),
    .assign (.label .empty) (.bool false), .remove ⟨3⟩, .clear (.key ⟨3⟩)]

/-- What the run comes to. -/
def relabelsRun : List (Except Fault Reply) × Ledger where
  fst := [.ok (.key ⟨3⟩), .ok .done, .error (.refused (.labelInUse (.name "c"))),
    .ok (.key ⟨4⟩), .ok (.key ⟨2⟩), .ok (.key ⟨5⟩), .ok (.field ⟨.name "b", .empty⟩),
    .error (.notFound (.key ⟨3⟩))]
  snd := ⟨[(⟨2⟩, ⟨.name "c", .empty⟩), (⟨4⟩, ⟨.name "a", .empty⟩), (⟨5⟩, ⟨.empty, .bool false⟩)], 6⟩

theorem runs_by_ledger_relabels :
    ((Holder.shared ⟨1⟩).runAll relabels oneField).1 = relabelsRun.1 ∧
      ((Holder.shared ⟨1⟩).runAll relabels oneField).2.Shows (.shared ⟨1⟩) relabelsRun.2 ∧
      (((Holder.shared ⟨1⟩).runAll relabels oneField).2.contents (.shared ⟨1⟩)).holds ⟨2⟩ = true ∧
      (((Holder.shared ⟨1⟩).runAll relabels oneField).2.contents (.shared ⟨1⟩)).holds ⟨1⟩ =
        false := by
  obtain ⟨hrun, -, hstays, hgone, -⟩ :=
    (Reachable.after [.mintKey, .ofFields [(.name "a", .bool true)]]).runs_by_ledger (.shared ⟨1⟩)
  have hbooked : (oneField.ledger (.shared ⟨1⟩)).runAll
      (ContainerOp.inSurroundings (.shared ⟨1⟩) relabels oneField) = relabelsRun := by
    decide +kernel
  obtain ⟨hreplies, hshows⟩ := hbooked ▸ hrun relabels
  exact ⟨hreplies, hshows, hstays relabels ⟨2⟩ (by decide +kernel) (by simp [relabels]),
    hgone relabels ⟨1⟩ (by decide +kernel) (by decide +kernel)⟩

end LiveRecords
