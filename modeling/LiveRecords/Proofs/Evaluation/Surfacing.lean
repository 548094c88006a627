import LiveRecords.Proofs.Evaluation.Failures

/-! # The failure that surfaces

Evaluation ends as the rules say that put failures off. So a failure that a read ends in is the
first one that its evaluation meets, unless evaluation comes back to a record by way of another
one and fails there.
-/

namespace LiveRecords

open Relation (ReflTransGen)
open Space (Balanced slot?_key)

variable {α β : Type}

/-- The answer of an evaluation that ends so. -/
def answered (o : Except Failure α) (τ : Session) : EStateM.Result Fault Session α :=
  match o with
  | .ok a => .ok a τ
  | .error f => .error (.failed f) τ

section Hearing

variable {s : Space} {σ ρ τ : Session} {busy busy' : List RecordId} {id : RecordId}
  {heard heard' : List (RecordId × Failure)}

/-- A session over what `s` holds, in which the records in `busy` have cells under evaluation. -/
structure Session.Amid (s : Space) (busy : List RecordId) (σ : Session) : Prop where
  agree : s.Agree σ.space
  busy : ∀ id, id ∈ busy ↔ (σ.space.record id).depth ≠ 0
  settled : σ.space.Settled

/-- Between the two sessions records have heard of the failures listed and have put off the first
one each, if they had not put off one before. All else that was under way still is. -/
structure Session.Hears (s : Space) (heard : List (RecordId × Failure)) (σ τ : Session) :
    Prop where
  agree : s.Agree τ.space
  targets : τ.targets = σ.targets
  depth : ∀ id, (τ.space.record id).depth = (σ.space.record id).depth
  pending : ∀ id,
    (τ.space.record id).pending = (σ.space.record id).pending.or (firstFor id heard)
  settled : τ.space.Settled

theorem Session.Hears.trans (h : σ.Hears s heard ρ) (h' : ρ.Hears s heard' τ) :
    σ.Hears s (heard ++ heard') τ where
  agree := h'.agree
  targets := h'.targets.trans h.targets
  depth id := (h'.depth id).trans (h.depth id)
  pending id := by rw [h'.pending, h.pending, firstFor_append, Option.or_assoc]
  settled := h'.settled

theorem Session.Amid.silent (h : σ.Amid s busy) : σ.Hears s [] σ :=
  ⟨h.agree, rfl, fun _ => rfl, fun _ => Option.or_none.symm, h.settled⟩

theorem Session.Amid.hears (h : σ.Amid s busy) (hh : σ.Hears s heard τ) : τ.Amid s busy :=
  ⟨hh.agree, fun id => by rw [hh.depth, h.busy], hh.settled⟩

theorem Session.Amid.deepen (h : σ.Amid s busy) (hl : s.alive id = true)
    (hb : ∀ j, j ∈ busy' ↔ j = id ∨ j ∈ busy) : (Eval.deepen id σ).Amid s busy' where
  agree := h.agree.trans (.setRecord ((h.agree.alive id).trans hl) rfl rfl)
  busy j := by
    rw [hb, h.busy, Eval.deepen_depth]
    by_cases hj : j = id <;> simp [hj]
  settled j := by
    rw [Eval.deepen_depth, Eval.deepen_pending]
    split
    · exact nofun
    · exact h.settled j

/-- What a session has heard of when the evaluation of a cell of `id` is closed. -/
theorem Session.Hears.close (hh : (Eval.deepen id σ).Hears s heard τ) (hl : s.alive id = true)
    {pending : Option Failure} (hzero : (σ.space.record id).depth = 0 → pending = none)
    (hp : pending = (σ.space.record id).pending.or (firstFor id heard'))
    (hothers : ∀ j, j ≠ id → firstFor j heard' = firstFor j heard) :
    σ.Hears s heard' { τ with space := (τ.space.setRecord id
      { τ.space.record id with depth := (τ.space.record id).depth - 1, pending }) } := by
  have hdepth : (τ.space.record id).depth - 1 = (σ.space.record id).depth := by
    simp [hh.depth, Eval.deepen_depth]
  refine ⟨hh.agree.trans (.setRecord ((hh.agree.alive id).trans hl) rfl rfl), hh.targets,
    fun j => ?_, fun j => ?_, fun j => ?_⟩ <;> rw [Space.record_setRecord] <;> split <;>
    rename_i hj
  · rw [hj, hdepth]
  · simp [hh.depth, Eval.deepen_depth, hj]
  · rw [hj, hp]
  · rw [hh.pending, Eval.deepen_pending, hothers j hj]
  · exact fun hd => hzero (hdepth.symm.trans hd)
  · exact hh.settled j

end Hearing

section Ending

variable {s : Space} {σ τ : Session} {busy : List RecordId} {id : RecordId}
  {ends : Except Failure α → List (RecordId × Failure) → Prop}
  {ends' : Except Failure β → List (RecordId × Failure) → Prop}

/-- What evaluation comes to from `σ`: it ends as `ends` says, and records have heard of failures
accordingly, or it faults otherwise than by a failure. -/
inductive Space.Ended (s : Space) (σ : Session)
    (ends : Except Failure α → List (RecordId × Failure) → Prop)
    (r : EStateM.Result Fault Session α) : Prop where
  | answers {o heard τ} : ends o heard → σ.Hears s heard τ → r = answered o τ → Ended s σ ends r
  | faults {w τ} : (∀ f, w ≠ .failed f) → r = .error w τ → Ended s σ ends r

namespace Space.Ended

theorem mono {r : EStateM.Result Fault Session α}
    {ends' : Except Failure α → List (RecordId × Failure) → Prop} (h : s.Ended σ ends r)
    (himp : ∀ o heard, ends o heard → ends' o heard) : s.Ended σ ends' r := by
  cases h with
  | answers he hh hr => exact .answers (himp _ _ he) hh hr
  | faults hw hr => exact .faults hw hr

theorem pure (h : σ.Amid s busy) {a : α} (ha : ends (.ok a) []) :
    s.Ended σ ends ((Pure.pure a : Eval α) σ) :=
  .answers ha h.silent rfl

theorem bind {m : Eval α} {f : α → Eval β} (hm : s.Ended σ ends (m σ))
    (hok : ∀ a heard τ, ends (.ok a) heard → σ.Hears s heard τ →
      s.Ended τ (fun o heard' => ends' o (heard ++ heard')) (f a τ))
    (herror : ∀ w heard, ends (.error w) heard → ends' (.error w) heard) :
    s.Ended σ ends' ((m >>= f) σ) := by
  cases hm with
  | faults hw hr =>
    rw [bind_of_error hr]
    exact .faults hw rfl
  | @answers o heard τ he hh hr =>
    cases o with
    | error w =>
      rw [bind_of_error hr]
      exact .answers (herror w heard he) hh rfl
    | ok a =>
      rw [bind_of_ok hr]
      cases hok a heard τ he hh with
      | answers he' hh' hr' => exact .answers he' (hh.trans hh') hr'
      | faults hw hr' => exact .faults hw hr'

theorem onTarget {m : Eval α}
    (h : s.Ended { σ with targets := id :: σ.targets } ends
      (m { σ with targets := id :: σ.targets })) : s.Ended σ ends (Eval.onTarget id m σ) := by
  rw [Eval.onTarget_run]
  cases h with
  | faults hw hr =>
    rw [Eval.andThen, hr]
    exact .faults hw rfl
  | @answers o heard τ he hh hr =>
    have hback : σ.Hears s heard { τ with targets := τ.targets.tail } :=
      ⟨hh.agree, congrArg List.tail hh.targets, hh.depth, hh.pending, hh.settled⟩
    refine .answers he hback ?_
    rw [Eval.andThen, hr]
    cases o <;> rfl

theorem guarded {m : Eval α} {k : Key} {l : Label}
    (h : s.Ended { σ with flight := (id, k) :: σ.flight } ends
      (m { σ with flight := (id, k) :: σ.flight })) :
    s.Ended σ ends (Eval.guarded id k l m σ) := by
  by_cases hk : σ.flight.contains (id, k) = true
  · rw [Eval.guarded_of_mem m hk]
    exact .faults (by nofun) rfl
  · rw [Eval.guarded_of_not_mem m hk]
    cases h with
    | faults hw hr =>
      rw [Eval.andThen, hr]
      exact .faults hw rfl
    | @answers o heard τ he hh hr =>
      have hback : σ.Hears s heard { τ with flight := τ.flight.erase (id, k) } :=
        ⟨hh.agree, hh.targets, hh.depth, hh.pending, hh.settled⟩
      refine .answers he hback ?_
      rw [Eval.andThen, hr]
      cases o <;> rfl

end Space.Ended

theorem Record.settle_inner {r : Record} (h : r.depth ≠ 0) (o : Except Failure Value) :
    r.settle (o.mapError .failed) =
      (.ok (o.toOption.getD .empty), { r with pending := r.pending.or (told [] o) }) := by
  obtain ⟨d, hd⟩ := Nat.exists_eq_succ_of_ne_zero h
  cases hp : r.pending
  all_goals
    cases r
    cases hd
    cases hp
    cases o <;> rfl

theorem Record.settle_outermost {r : Record} {heard : List (RecordId × Failure)}
    (h : r.depth = 0) (hp : r.pending = firstFor id heard) (o : Except Failure Value) :
    r.settle (o.mapError .failed) =
      ((surfacing id o heard).mapError .failed, { r with pending := none }) := by
  rw [surfacing, ← hp]
  cases hr : r.pending
  all_goals
    cases r
    cases h
    cases hr
    cases o <;> rfl

theorem Eval.conclude_eq {o o' : Except Failure Value} {r : Record}
    (h : { τ.space.record id with depth := (τ.space.record id).depth - 1 }.settle
      (o.mapError .failed) = (o'.mapError .failed, r)) :
    conclude id (o.mapError .failed) τ =
      answered o' { τ with space := τ.space.setRecord id r } := by
  simp only [conclude, h]
  cases o' <;> rfl

/-- Below the outermost cell of a record evaluation ends in a value and the record hears of the
failure; the outermost one answers with the first failure the record heard of. -/
theorem Space.Ended.settling {m : Eval Value}
    {ends ends' : Except Failure Value → List (RecordId × Failure) → Prop}
    (hσ : σ.Amid s busy) (hl : s.alive id = true)
    (hinner : id ∈ busy → ∀ o heard, ends o heard →
      ends' (.ok (o.toOption.getD .empty)) (heard ++ noted id o))
    (houtermost : id ∉ busy → ∀ o heard, ends o heard →
      ends' (surfacing id o heard) (heard.filter (·.1 ≠ id)))
    (h : s.Ended (Eval.deepen id σ) ends (m (Eval.deepen id σ))) :
    s.Ended σ ends' (Eval.settling id m σ) := by
  cases h with
  | @faults w τ hw hr =>
    have hsettle : ∀ r : Record, (r.settle (.error w)).1 = .error w := by
      intro r
      cases w with
      | failed f => exact absurd rfl (hw f)
      | _ => rfl
    rw [Eval.settling, hr]
    simp only [Eval.conclude, hsettle]
    exact .faults hw rfl
  | @answers o heard τ he hh hr =>
    have hrun : Eval.settling id m σ = Eval.conclude id (o.mapError .failed) τ := by
      rw [Eval.settling, hr]
      cases o <;> rfl
    have hpending : (τ.space.record id).pending =
        (σ.space.record id).pending.or (firstFor id heard) := by
      rw [hh.pending, Eval.deepen_pending]
    have hdepth : (τ.space.record id).depth - 1 = (σ.space.record id).depth := by
      simp [hh.depth, Eval.deepen_depth]
    rw [hrun]
    by_cases hb : id ∈ busy
    · have hd := (hσ.busy id).mp hb
      refine .answers (hinner hb o heard he)
        (hh.close hl (fun hz => absurd hz hd) ?_ fun j hj => ?_)
        (Eval.conclude_eq (Record.settle_inner (hdepth ▸ hd) o))
      · rw [firstFor_append, firstFor_noted, ← Option.or_assoc, hpending]
      · rw [firstFor_append, firstFor_noted_of_ne hj, Option.or_none]
    · have hd : (σ.space.record id).depth = 0 := by simpa [hb] using hσ.busy id
      have hp := hσ.settled id hd
      rw [hp, Option.none_or] at hpending
      refine .answers (houtermost hb o heard he) (hh.close hl (fun _ => rfl) ?_ fun j hj => ?_)
        (Eval.conclude_eq (Record.settle_outermost (by exact hdepth.trans hd)
          (by exact hpending) o))
      · rw [hp, firstFor_others, if_pos rfl]
        rfl
      · rw [firstFor_others, if_neg hj]

end Ending

section Evaluation

variable {s : Space} {n : Nat} {read : Reader}

/-- Whatever the reader reads ends as the rules say. -/
def Reader.Ends (s : Space) (n : Nat) (read : Reader) : Prop :=
  ∀ {busy : List RecordId} {σ : Session} {id : RecordId} {p : Place}, σ.Amid s busy →
    s.Ended σ (s.Ends busy n id p) (read id p σ)

theorem Space.ended_resolve {busy : List RecordId} {σ : Session} {n : RecordName}
    {f : RecordId → Eval α} {ends : Except Failure α → List (RecordId × Failure) → Prop}
    (hσ : σ.Amid s busy) (hf : s.alive n.target = true → s.Ended σ ends (f n.target σ)) :
    s.Ended σ ends ((Eval.edit (Edit.resolve n) >>= f) σ) := by
  have hrun := Eval.resolve_run hσ.agree n
  by_cases hl : s.alive n.target = true
  · rw [if_pos hl] at hrun
    rw [bind_of_ok hrun]
    exact hf hl
  · rw [if_neg hl] at hrun
    rw [bind_of_error hrun]
    exact .faults (by nofun) rfl

theorem Space.ended_follow {busy : List RecordId} {σ : Session} {target : RecordId} {l : Label}
    {f : RecordId → Eval α} {ends : Except Failure α → List (RecordId × Failure) → Prop}
    (hσ : σ.Amid s busy) (hf : s.alive target = true → s.Ended σ ends (f target σ)) :
    s.Ended σ ends ((Eval.edit (Edit.follow target l) >>= f) σ) := by
  have hrun := Eval.follow_run hσ.agree target l
  by_cases hl : s.alive target = true
  · rw [if_pos hl] at hrun
    rw [bind_of_ok hrun]
    exact hf hl
  · rw [if_neg hl] at hrun
    rw [bind_of_error hrun]
    exact .faults (by nofun) rfl

mutual

theorem Formula.eval_ends (hr : Reader.Ends s n read) (f : Formula) {busy : List RecordId}
    {id : RecordId} {σ : Session} (hσ : σ.Amid s busy) :
    s.Ended σ (s.FormulaEnds busy n id f) (f.eval read id σ) := by
  cases f with
  | mk name apply operands =>
    have hσ' : Session.Amid s busy { σ with targets := id :: σ.targets } :=
      ⟨hσ.agree, hσ.busy, hσ.settled⟩
    refine .onTarget ((Operand.evalAll_ends hr operands hσ' rfl).bind
      (fun vs heard τ hvs hh => ?_) fun w heard hw => .apply hw)
    have hτ := hσ'.hears hh
    have hends : s.FormulaEnds busy n id (.mk name apply operands) _ heard := .apply hvs
    rw [bind_of_ok (Eval.space_run τ), hτ.agree.plainText]
    cases hv : apply s.plainText vs with
    | ok v =>
      refine .pure hτ ?_
      rw [Except.bind, hv] at hends
      rwa [List.append_nil]
    | error w =>
      refine .answers (o := .error (w.within name)) ?_ hτ.silent rfl
      rw [Except.bind, hv] at hends
      rwa [List.append_nil]

theorem Operand.eval_ends (hr : Reader.Ends s n read) (a : Operand) {busy : List RecordId}
    {id : RecordId} {targets : List RecordId} {σ : Session} (hσ : σ.Amid s busy)
    (ht : σ.targets = id :: targets) : s.Ended σ (s.OperandEnds busy n id a) (a.eval read σ) := by
  have htarget : Eval.target σ = .ok id σ := by rw [Eval.target_run, ht]
  cases a with
  | constant v => exact .pure hσ .constant
  | here l =>
    rw [Operand.eval, bind_of_ok htarget]
    exact (hr hσ).mono fun _ _ => .here
  | nested f =>
    rw [Operand.eval, bind_of_ok htarget]
    exact (Formula.eval_ends hr f hσ).mono fun _ _ => .nested
  | field name => exact Space.ended_resolve hσ fun hl => (hr hσ).mono fun _ _ => .field hl

theorem Operand.evalAll_ends (hr : Reader.Ends s n read) (as : List Operand)
    {busy : List RecordId} {id : RecordId} {targets : List RecordId} {σ : Session}
    (hσ : σ.Amid s busy) (ht : σ.targets = id :: targets) :
    s.Ended σ (s.OperandsEnd busy n id as) (Operand.evalAll read as σ) := by
  cases as with
  | nil => exact .pure hσ .nil
  | cons a as =>
    refine (Operand.eval_ends hr a hσ ht).bind (fun v heard τ hv hh => ?_) fun w _ hw => .fails hw
    have hτ := hσ.hears hh
    refine (Operand.evalAll_ends hr as hτ (hh.targets.trans ht)).bind
      (fun vs heard' υ hvs hh' => ?_) fun w _ hw => .cons hv hw
    refine .pure (hτ.hears hh') ?_
    rw [List.append_nil]
    exact .cons hv hvs

end

theorem Cell.eval_ends (hr : Reader.Ends s n read) (c : Cell) {busy : List RecordId}
    {owner : RecordId} {σ : Session} (hσ : σ.Amid s busy) :
    s.Ended σ (s.CellEnds busy n owner c) (c.eval read owner σ) := by
  cases c with
  | derived i =>
    rw [Cell.eval, bind_of_ok (Eval.space_run σ), hσ.agree.derivation]
    exact (Formula.eval_ends hr _ hσ).mono fun _ _ => .derived
  | reference target l =>
    exact Space.ended_follow hσ fun hl => (hr hσ).mono fun _ _ => .reference hl

theorem readBy_ends {evaluate : RecordId → Key → Label → Cell → Eval Value}
    {busy : List RecordId} {σ : Session} {id : RecordId} {p : Place} (hσ : σ.Amid s busy)
    (he : ∀ {k l c}, s.slot? id p = some (k, ⟨l, .cell c⟩) →
      s.Ended σ (s.Ends busy n id p) (evaluate id k l c σ)) :
    s.Ended σ (s.Ends busy n id p) (readBy evaluate id p σ) := by
  have hs' := hσ.agree.slot? id p
  cases hs : s.slot? id p with
  | none =>
    rw [readBy_deeper (hs'.trans hs), hσ.agree.value, hσ.agree.fields]
    cases hv : s.value (s.record id).fields p with
    | ok v => exact .pure hσ (.deeper hs hv)
    | error w =>
      obtain ⟨sought, rfl⟩ := Space.notFound_of_value hv
      exact .faults (by nofun) rfl
  | some entry =>
    obtain ⟨k, l, v⟩ := entry
    cases hv : v.isCell with
    | false =>
      rw [readBy_plain (hs'.trans hs) hv]
      exact .pure hσ (.plain hs hv)
    | true =>
      cases v with
      | cell c =>
        rw [readBy_cell (hs'.trans hs)]
        exact he hs
      | _ => cases hv

theorem readWithin_ends (limit room : Nat) : Reader.Ends s room (readWithin limit room) := by
  induction room with
  | zero =>
    intro busy σ id p hσ
    have hfault : s.Ended (Eval.deepen id σ) (fun _ _ => False)
        ((throw (.tooDeep limit) : Eval Value) (Eval.deepen id σ)) := .faults (by nofun) rfl
    exact readBy_ends hσ fun hs =>
      .settling hσ (Space.alive_of_slot? hs) (fun _ _ _ => nofun) (fun _ _ _ => nofun) hfault
  | succ room ih =>
    intro busy σ id p hσ
    refine readBy_ends hσ fun {k l c} hs => ?_
    have hl := Space.alive_of_slot? hs
    by_cases hb : id ∈ busy
    · have hin : (Eval.deepen id σ).Amid s busy := hσ.deepen hl fun j =>
        ⟨.inr, fun hj => hj.elim (· ▸ hb) fun hj => hj⟩
      refine .settling hσ hl (fun _ _ _ => .inner hs hb) (fun hn => absurd hb hn) (.guarded ?_)
      exact c.eval_ends ih ⟨hin.agree, hin.busy, hin.settled⟩
    · have hin : (Eval.deepen id σ).Amid s (id :: busy) := hσ.deepen hl fun j => List.mem_cons
      refine .settling hσ hl (fun hn => absurd hn hb) (fun _ _ _ => .outermost hs hb) (.guarded ?_)
      exact c.eval_ends ih ⟨hin.agree, hin.busy, hin.settled⟩

end Evaluation

theorem Space.Depends.of_cell {s : Space} {id : RecordId} {k : Key} {l : Label} {c : Cell}
    {g : RecordId × Key} (h : s.Depends (id, k) g)
    (hs : s.slot? id (.key k) = some (k, ⟨l, .cell c⟩)) :
    ∃ j m q f, c.Reads s id j m ∧ s.slot? j (.label m) = some (q, f) ∧ g = (j, q) := by
  cases h with
  | intro hs' hr hg =>
    rw [hs] at hs'
    cases hs'
    exact ⟨_, _, _, _, hr, hg, rfl⟩

section Reads

variable {s t : Space} {n : Nat} {id : RecordId} {p : Place} {f : Failure}
  {heard : List (RecordId × Failure)}

theorem Space.Ends.first (h : s.Ends [] n id p (.error f) heard) :
    ∃ k g f₀, s.slot? id p = some (k, g) ∧ s.Fails n id p f₀ ∧
      (s.ReturnsSafely (id, k) → f = f₀) := by
  obtain ⟨o, ho⟩ : ∃ o, o = (.error f : Except Failure Value) := ⟨_, rfl⟩
  rw [← ho] at h
  cases h with
  | plain => cases ho
  | deeper => cases ho
  | inner _ hb => cases hb
  | outermost hs hb hc =>
    cases hc.accounts (.start (id, _)) (slot?_key hs) with
    | value hy hv hh =>
      subst hv hh
      cases ho
    | failure hf hfirst =>
      refine ⟨_, _, _, hs, .cell hs hf, fun hsafe => ?_⟩
      obtain ⟨hown, htold⟩ := hfirst hsafe
      rw [surfacing_of_told hown htold] at ho
      cases ho
      rfl

theorem Space.Quiet.read_ends (h : s.Quiet) (hr : id.read p s = .error (.failed f) t) :
    s.Ends [] (s.record id).maxDepth id p (.error f) [] := by
  have hamid : Session.Amid s [] { space := s } :=
    ⟨.refl s, fun j => by simp [h.depth j], h.settled⟩
  have hends : s.Ended { space := s } (s.Ends [] (s.record id).maxDepth id p)
      (readWithin (s.record id).maxDepth (s.record id).maxDepth id p { space := s }) :=
    readWithin_ends _ _ hamid
  obtain ⟨τ, hτ⟩ := Eval.run_eq_error
    (m := readWithin (s.record id).maxDepth (s.record id).maxDepth id p) hr
  have hb : Balanced s τ.space := final_of_error hτ ▸
    readWithin_moves Space.evalClosed_balanced _ _ id p { space := s }
  rw [hτ] at hends
  cases hends with
  | faults hw hf =>
    cases hf
    exact absurd rfl (hw f)
  | @answers o heard τ' he hh hf =>
    cases o with
    | ok v => cases hf
    | error g =>
      cases hf
      have hnone : ∀ j, firstFor j heard = none := fun j => by
        have := hh.pending j
        rwa [(hb.keeps h).pending, h.pending, Option.none_or, eq_comm] at this
      rwa [eq_nil_of_firstFor hnone] at he

end Reads

/-- In every reachable space a read that ends in a failure ends as the rules say that put failures
off. Of all failures that its evaluation meets there is a first one, and it is the one that the
read ends in, unless evaluation comes back to a record by way of another one and fails there. -/
theorem Reachable.read_fails {s t : Space} (h : Reachable s) {id : RecordId} {p : Place}
    {f : Failure} (hr : id.read p s = .error (.failed f) t) :
    s.Ends [] (s.record id).maxDepth id p (.error f) [] ∧
      ∃ k g f₀, s.slot? id p = some (k, g) ∧ s.Fails (s.record id).maxDepth id p f₀ ∧
        (∀ n f₁, s.Fails n id p f₁ → f₁ = f₀) ∧ (s.ReturnsSafely (id, k) → f = f₀) := by
  have hends := h.quiet.read_ends hr
  obtain ⟨k, g, f₀, hs, hf, hfirst⟩ := hends.first
  exact ⟨hends, k, g, f₀, hs, hf, fun _ _ h' => h'.unique hf, hfirst⟩

/-- The field `a` of the first record stands for `b` of the second one, which comes back to the
first record, where all is well, and then fails. -/
def safeReturn : List Operation :=
  [.newRecord none 4, .newRecord none 4,
    .newDerived { getter := .mk "well" Function.first [.constant (.bool true)] },
    .newDerived { getter := .mk "fails" (fun _ _ => .error ⟨"", .overflow⟩) [
      .field ⟨⟨"one", ⟨1⟩⟩, .name "well"⟩] },
    .record ⟨1⟩ (.add (.name "well") (.cell (.derived ⟨1⟩))),
    .record ⟨2⟩ (.add (.name "b") (.cell (.derived ⟨2⟩))),
    .record ⟨1⟩ (.add (.name "a") (.cell (.reference ⟨2⟩ (.name "b"))))]

theorem slot?_safeReturn :
    (Space.after safeReturn).slot? ⟨1⟩ (.key ⟨3⟩) =
        some (⟨3⟩, ⟨.name "a", .cell (.reference ⟨2⟩ (.name "b"))⟩) ∧
      (Space.after safeReturn).slot? ⟨2⟩ (.label (.name "b")) =
        some (⟨2⟩, ⟨.name "b", .cell (.derived ⟨2⟩)⟩) ∧
      (Space.after safeReturn).slot? ⟨1⟩ (.label (.name "well")) =
        some (⟨1⟩, ⟨.name "well", .cell (.derived ⟨1⟩)⟩) := by
  decide +kernel

/-- Dependencies lead from `a` to `b` and on to the field where all is well, and no further. -/
theorem depends_safeReturn (g : RecordId × Key) :
    ((Space.after safeReturn).Depends (⟨1⟩, ⟨3⟩) g → g = (⟨2⟩, ⟨2⟩)) ∧
      ((Space.after safeReturn).Depends (⟨2⟩, ⟨2⟩) g → g = (⟨1⟩, ⟨1⟩)) ∧
      ¬ (Space.after safeReturn).Depends (⟨1⟩, ⟨1⟩) g := by
  obtain ⟨ha, hb, hwell⟩ := slot?_safeReturn
  refine ⟨fun h => ?_, fun h => ?_, fun h => ?_⟩
  · obtain ⟨_, _, _, _, hr, hs, rfl⟩ := h.of_cell ha
    cases hr
    rw [hb] at hs
    cases hs
    rfl
  · obtain ⟨_, _, _, _, ⟨a, ha, hr⟩, hs, rfl⟩ := h.of_cell (slot?_key hb)
    obtain rfl := List.mem_singleton.mp ha
    cases hr
    rw [hwell] at hs
    cases hs
    rfl
  · obtain ⟨_, _, _, _, ⟨a, ha, hr⟩, -⟩ := h.of_cell (slot?_key hwell)
    obtain rfl := List.mem_singleton.mp ha
    cases hr

theorem returnsSafely_safeReturn : (Space.after safeReturn).ReturnsSafely (⟨1⟩, ⟨3⟩) := by
  have hwell : ∀ {g}, ReflTransGen (Space.after safeReturn).Depends (⟨1⟩, ⟨1⟩) g →
      g = (⟨1⟩, ⟨1⟩) := fun h => by
    obtain rfl | ⟨c, hd, -⟩ := h.cases_head
    · rfl
    · exact absurd hd (depends_safeReturn c).2.2
  have hb : ∀ {g}, ReflTransGen (Space.after safeReturn).Depends (⟨2⟩, ⟨2⟩) g →
      g = (⟨2⟩, ⟨2⟩) ∨ g = (⟨1⟩, ⟨1⟩) := fun h => by
    obtain rfl | ⟨c, hd, hg⟩ := h.cases_head
    · exact .inl rfl
    · obtain rfl := (depends_safeReturn c).2.1 hd
      exact .inr (hwell hg)
  have ha : ∀ {g}, ReflTransGen (Space.after safeReturn).Depends (⟨1⟩, ⟨3⟩) g →
      g = (⟨1⟩, ⟨3⟩) ∨ ReflTransGen (Space.after safeReturn).Depends (⟨2⟩, ⟨2⟩) g := fun h => by
    obtain rfl | ⟨c, hd, hg⟩ := h.cases_head
    · exact .inl rfl
    · obtain rfl := (depends_safeReturn c).1 hd
      exact .inr hg
  rintro z ⟨x, y, hx, hxy, hyz, hne, hz⟩ n f hf
  have hzwell : z = (⟨1⟩, ⟨1⟩) := by
    rcases ha hx with rfl | hx
    · rcases ha hxy with rfl | hxy
      · exact absurd rfl hne
      · rcases hb (hxy.trans hyz) with rfl | rfl
        · cases hz
        · rfl
    · rcases hb hx with rfl | rfl
      · rcases hb hxy with rfl | rfl
        · exact absurd rfl hne
        · exact hwell hyz
      · exact hwell (hxy.trans hyz)
  subst hzwell
  have hy : (Space.after safeReturn).FormulaYields 0 ⟨1⟩
      (.mk "well" Function.first [.constant (.bool true)]) (.bool true) :=
    .apply (.cons .constant .nil) rfl
  exact hf.not_yields (.cell (slot?_key slot?_safeReturn.2.2) (.derived hy))

theorem read_fails_safeReturn :
    (∃ t, RecordId.read ⟨1⟩ (.key ⟨3⟩) (Space.after safeReturn) =
        .error (.failed ⟨"fails", .overflow⟩) t) ∧
      (Space.after safeReturn).ReturnsSafely (⟨1⟩, ⟨3⟩) ∧
      ∃ f₀, (Space.after safeReturn).Fails 4 ⟨1⟩ (.key ⟨3⟩) f₀ ∧ ⟨"fails", .overflow⟩ = f₀ := by
  have hread : fault (RecordId.read ⟨1⟩ (.key ⟨3⟩)) (Space.after safeReturn) =
      some (.failed ⟨"fails", .overflow⟩) := by decide +kernel
  obtain ⟨t, ht⟩ := fault_eq_some_iff.mp hread
  obtain ⟨-, k, g, f₀, hs, hf, -, hfirst⟩ := (Reachable.after safeReturn).read_fails ht
  rw [slot?_safeReturn.1] at hs
  cases hs
  exact ⟨⟨t, ht⟩, returnsSafely_safeReturn, f₀, hf, hfirst returnsSafely_safeReturn⟩

/-- The field `all` of the first record stands for `both` of the second one, which reads a field
that fails there and then one that fails in the first record. -/
def overtaking : List Operation :=
  [.newRecord none 4, .newRecord none 4,
    .newDerived { getter := .mk "late" (fun _ _ => .error ⟨"", .overflow⟩) [] },
    .newDerived { getter := .mk "early" (fun _ _ => .error ⟨"", .overflow⟩) [] },
    .newDerived { getter := .mk "first" Function.first [.here (.name "early"),
      .field ⟨⟨"one", ⟨1⟩⟩, .name "late"⟩] },
    .record ⟨1⟩ (.add (.name "late") (.cell (.derived ⟨1⟩))),
    .record ⟨2⟩ (.add (.name "early") (.cell (.derived ⟨2⟩))),
    .record ⟨2⟩ (.add (.name "both") (.cell (.derived ⟨3⟩))),
    .record ⟨1⟩ (.add (.name "all") (.cell (.reference ⟨2⟩ (.name "both"))))]

/-- The failure that the first record hears of on the way back surfaces before the one that the
second record has put off. -/
theorem not_read_fails_first :
    ¬ ∀ s, Reachable s → ∀ id p f t f₀, RecordId.read id p s = .error (.failed f) t →
      s.Fails (s.record id).maxDepth id p f₀ → f = f₀ := by
  intro hclaim
  have hread : fault (RecordId.read ⟨1⟩ (.label (.name "all"))) (Space.after overtaking) =
      some (.failed ⟨"late", .overflow⟩) := by decide +kernel
  obtain ⟨t, ht⟩ := fault_eq_some_iff.mp hread
  have hall : (Space.after overtaking).slot? ⟨1⟩ (.label (.name "all")) =
      some (⟨4⟩, ⟨.name "all", .cell (.reference ⟨2⟩ (.name "both"))⟩) := by decide +kernel
  have hboth : (Space.after overtaking).slot? ⟨2⟩ (.label (.name "both")) =
      some (⟨3⟩, ⟨.name "both", .cell (.derived ⟨3⟩)⟩) := by decide +kernel
  have hearly : (Space.after overtaking).slot? ⟨2⟩ (.label (.name "early")) =
      some (⟨2⟩, ⟨.name "early", .cell (.derived ⟨2⟩)⟩) := by decide +kernel
  have hfails : (Space.after overtaking).FormulaFails 1 ⟨2⟩
      (.mk "early" (fun _ _ => .error ⟨"", .overflow⟩) [])
      (Failure.within ⟨"", .overflow⟩ "early") :=
    .apply .nil rfl
  have hreads : (Space.after overtaking).FormulaFails 2 ⟨2⟩
      (.mk "first" Function.first [.here (.name "early"), .field ⟨⟨"one", ⟨1⟩⟩, .name "late"⟩])
      ⟨"early", .overflow⟩ :=
    .operand (.head (.here (.cell hearly (.derived hfails))))
  have hfirst : (Space.after overtaking).Fails 4 ⟨1⟩ (.label (.name "all"))
      ⟨"early", .overflow⟩ :=
    .cell hall (.reference (by decide +kernel) (.cell hboth (.derived hreads)))
  have hsame := hclaim _ (Reachable.after overtaking) _ _ _ _ _ ht hfirst
  simp at hsame

end LiveRecords
