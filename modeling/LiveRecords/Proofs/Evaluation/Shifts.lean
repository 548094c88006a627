import LiveRecords.Proofs.Evaluation.Tasks
import LiveRecords.Proofs.Record.Noting

/-! # Moving tasks

Assigning the end of a task moves its start, and so the end of the task before. Moving the last end
of a row moves all tasks, from the last one back to the first, or none if one of the starts would
overflow: what was shown on the way is taken back.
-/

namespace LiveRecords

section Writing

variable {σ : Session} {limit room : Nat} {id : RecordId} {k : Key} {l : Label} {i : DerivedId}
  {f : Field} {v : Value} {u w m : Int64}

theorem Eval.guarded_of_error {α : Type} {e : Eval α} {g : Fault} (hk : (id, k) ∉ σ.flight)
    (hg : g.isCycle = false)
    (h : e { σ with flight := (id, k) :: σ.flight } =
      .error g { σ with flight := (id, k) :: σ.flight }) :
    guarded id k l e σ = .error g σ := by
  have hk' : ¬ σ.flight.contains (id, k) = true := by simpa using hk
  rw [guarded_of_not_mem e hk', andThen, h]
  cases g with
  | cycle => cases hg
  | _ => simp only [List.erase_cons_head]

theorem Eval.guarded_of_ok {α : Type} {e : Eval α} {a : α} {t : Space} (hk : (id, k) ∉ σ.flight)
    (h : e { σ with flight := (id, k) :: σ.flight } =
      .ok a { σ with space := t, flight := (id, k) :: σ.flight }) :
    guarded id k l e σ = .ok a { σ with space := t } :=
  guarded_eq_ok.mpr ⟨hk, _, h, by simp⟩

section Through

variable {p : Place} {c : Cell} (hs : σ.space.slot? id p = some (k, ⟨l, .cell c⟩))
  (hv : v.isCell = false) (hk : (id, k) ∉ σ.flight)
include hs hv hk

theorem writeWithin_through_fails {g : Fault} (hg : g.isCycle = false)
    (h : c.assign (readWithin limit room) (writeWithin limit room) id k v
      { σ with flight := (id, k) :: σ.flight } =
        .error g { σ with flight := (id, k) :: σ.flight }) :
    writeWithin limit (room + 1) id p v σ = .error g σ := by
  rw [writeWithin, writeBy_through hs hv, bind_of_error (Eval.guarded_of_error hk hg h)]

theorem writeWithin_through_ok {t : Space} {x : Value}
    (h : c.assign (readWithin limit room) (writeWithin limit room) id k v
      { σ with flight := (id, k) :: σ.flight } =
        .ok () { σ with space := t, flight := (id, k) :: σ.flight })
    (hread : readWithin limit (room + 1) id (.key k) { σ with space := t } =
      .ok x { σ with space := t }) :
    writeWithin limit (room + 1) id p v σ = .ok k { σ with space := t.noted id k l x } := by
  rw [writeWithin, writeBy_through hs hv, bind_of_ok (Eval.guarded_of_ok hk h),
    Eval.noteEffective, bind_of_ok hread]
  rfl

end Through

namespace Space

variable {s : Space}

theorem Clear.congr {t : Space} (hc : s.Clear)
    (h : ∀ j, (t.record j).pending = (s.record j).pending) : t.Clear := fun j => (h j).trans (hc j)

theorem Clear.assigned (hc : s.Clear) (id : RecordId) (k : Key) (f : Field) (v : Value) :
    (s.assigned id k f v).Clear := by
  refine hc.congr fun j => ?_
  rw [Space.assigned, setContents, record_setRecord]
  split
  · rename_i hj
    rw [hj]
  · rfl

theorem Clear.noted (hc : s.Clear) (id : RecordId) (k : Key) (l : Label) (v : Value) :
    (s.noted id k l v).Clear := by
  refine hc.congr fun j => ?_
  rw [record_noted]
  split
  · rename_i hj
    rw [hj]
  · rfl

theorem Sorted.assigned (hs : s.Sorted) (id : RecordId) (k : Key) (f : Field) (v : Value) :
    (s.assigned id k f v).Sorted :=
  hs.setContents (.record id) ((hs.fields (.record id)).put k _)

end Space

/-- What a session shows while the end of a task is assigned `w`: the value in place of the cell
at `k`. -/
def Session.showing (σ : Session) (id : RecordId) (k : Key) (i : DerivedId) (w : Int64) : Session :=
  { σ with
    space := σ.space.assigned id k ⟨.finish, .cell (.derived i)⟩ (.int w)
    flight := (id, k) :: σ.flight }

section Ending

variable (h : σ.space.IsTask id v m)
  (hs : σ.space.slot? id (.label .finish) = some (k, ⟨.finish, .cell (.derived i)⟩))
include h hs

theorem Space.IsTask.showing_start : (σ.showing id k i w).space.Carries id .start v :=
  h.start.assigned ((Container.slot?_eq_some ..).mp hs).2 fun _ => Label.finish_ne_start

theorem Space.IsTask.showing_length : (σ.showing id k i w).space.Carries id .length (.int m) :=
  h.length.assigned ((Container.slot?_eq_some ..).mp hs).2 fun _ => Label.finish_ne_length

omit h in
theorem Space.slot?_showing :
    (σ.showing id k i w).space.slot? id (.label .finish) = some (k, ⟨.finish, .int w⟩) := by
  have hslot := slot?_assigned hs id k ⟨.finish, .cell (.derived i)⟩ (.int w)
  rwa [if_pos ⟨rfl, rfl⟩] at hslot

variable (limit room w) in
theorem Space.IsTask.react (hsort : σ.space.Sorted) (hc : σ.space.Clear) (write : Writer) :
    Derived.ending.react (readWithin limit room) write id (σ.showing id k i w) =
      match Checked.sub? w m with
      | some u => discard (write id (.label .start) (.int u)) (σ.showing id k i w)
      | none => .error (.failed ⟨"difference", .overflow⟩) (σ.showing id k i w) := by
  have hover : ∀ targets, Session.Over { σ.showing id k i w with targets }
      (σ.showing id k i w).space := fun _ =>
    Session.over_self (hsort.assigned id k _ _) (hc.assigned id k _ _)
  have heval := Formula.eval_here (σ := σ.showing id k i w) (readWithin limit room) "difference"
    Value.sub
    (fun targets => readWithin_carries (hover targets) ⟨k, slot?_showing hs⟩ rfl)
    fun targets => readWithin_carries (hover targets) (h.showing_length hs) rfl
  have hsub : Value.sub (.int w) (.int m) = Value.ofChecked (Checked.sub? w m) := rfl
  have hreact : Derived.ending.react (readWithin limit room) write id =
      (Derived.reactOnce (readWithin limit room) write id .start
        (.difference [.here .finish, .here .length]) >>= fun _ => pure ()) := rfl
  rw [hsub] at heval
  rw [hreact]
  cases hu : Checked.sub? w m with
  | none =>
    rw [hu] at heval
    exact bind_of_error (bind_of_error heval)
  | some u =>
    rw [hu] at heval
    have honce : Derived.reactOnce (readWithin limit room) write id .start
        (.difference [.here .finish, .here .length]) (σ.showing id k i w) =
        discard (write id (.label .start) (.int u)) (σ.showing id k i w) := bind_of_ok heval
    dsimp only
    cases hw : discard (write id (.label .start) (.int u)) (σ.showing id k i w) with
    | ok _ τ =>
      rw [bind_of_ok (honce.trans hw)]
      rfl
    | error g τ => exact bind_of_error (honce.trans hw)

omit h in
/-- Assigning the end is to show the value, to react, and to put the cell back. -/
theorem Space.assign_ending (hi : σ.space.derivation i = .ending) {read : Reader} {write : Writer} :
    Cell.assign read write id k (.int w) (.derived i) { σ with flight := (id, k) :: σ.flight } =
      (Derived.ending.react read write id).followedBy (Eval.store id k (.cell (.derived i)))
        (σ.showing id k i w) := by
  have hstore := Eval.store_run (σ := { σ with flight := (id, k) :: σ.flight })
    ((Container.slot?_eq_some ..).mp hs).2 (.int w)
  rw [Cell.assign, bind_of_ok (Eval.space_run _), bind_of_ok hstore]
  change (Derived.react read write id (σ.space.derivation i)).followedBy _ _ = _
  rw [hi]
  rfl

omit h in
theorem Space.write_fails (hi : σ.space.derivation i = .ending) (hsort : σ.space.Sorted)
    (hk : (id, k) ∉ σ.flight) {g : Fault} (hg : g.isCycle = false)
    (hreact : Derived.ending.react (readWithin limit room) (writeWithin limit room) id
      (σ.showing id k i w) = .error g (σ.showing id k i w)) :
    writeWithin limit (room + 1) id (.label .finish) (.int w) σ = .error g σ := by
  have hfield := ((Container.slot?_eq_some ..).mp hs).2
  have hback := σ.space.assigned_back (v := .int w) hsort hfield rfl rfl
  have hshown : ((σ.showing id k i w).space.record id).fields.field? k =
      some ⟨.finish, .int w⟩ := by
    rw [Session.showing, Space.field?_assigned, if_pos ⟨rfl, rfl⟩]
  have hstore := Eval.store_run hshown (.cell (.derived i))
  refine writeWithin_through_fails hs rfl hk hg ?_
  rw [assign_ending hs hi, Eval.followedBy, hreact]
  dsimp only
  rw [hstore]
  simp only [Session.showing]
  rw [hback]

omit h in
theorem Space.write_ok (hi : σ.space.derivation i = .ending) (hk : (id, k) ∉ σ.flight) {t : Space}
    {x : Value}
    (hreact : Derived.ending.react (readWithin limit room) (writeWithin limit room) id
      (σ.showing id k i w) = .ok () { σ.showing id k i w with space := t })
    (ht : (t.record id).fields.field? k = some ⟨.finish, .int w⟩)
    (hread : readWithin limit (room + 1) id (.key k)
      { σ with space := t.assigned id k ⟨.finish, .int w⟩ (.cell (.derived i)) } =
        .ok x { σ with space := t.assigned id k ⟨.finish, .int w⟩ (.cell (.derived i)) }) :
    writeWithin limit (room + 1) id (.label .finish) (.int w) σ = .ok k { σ with
      space := (t.assigned id k ⟨.finish, .int w⟩ (.cell (.derived i))).noted id k .finish x } := by
  have hstore := Eval.store_run (σ := { σ.showing id k i w with space := t }) ht
    (.cell (.derived i))
  refine writeWithin_through_ok hs rfl hk ?_ hread
  rw [assign_ending hs hi, Eval.followedBy, hreact]
  exact hstore

end Ending

theorem writeWithin_plain {p : Place} (hs : σ.space.slot? id p = some (k, f))
    (hf : f.value.isCell = false) :
    writeWithin limit room id p v σ =
      .ok k { σ with space := (σ.space.assigned id k f v).noted id k f.label v } := by
  have hfield : ((σ.space.assigned id k f v).record id).fields.field? k =
      some { f with value := v } := by
    rw [Space.field?_assigned, if_pos ⟨rfl, rfl⟩]
  have hplain : writeWithin limit room id p v σ = Eval.writePlain id p v σ := by
    refine writeWithin_of_plain fun k l c hs' => ?_
    rw [hs] at hs'
    cases hs'
    cases hf
  exact hplain.trans
    (Eval.writePlain_run (f := { f with value := v }) (Holder.assign_run v hs) hfield)

section References

variable {target : RecordId} {n : Label} {p : Place}
  (hs : σ.space.slot? id p = some (k, ⟨l, .cell (.reference target n)⟩)) (hv : v.isCell = false)
  (hk : (id, k) ∉ σ.flight) (ha : σ.space.alive target = true)
include hs hv hk ha

theorem writeWithin_reference_fails {g : Fault} (hg : g.isCycle = false)
    (h : writeWithin limit room target (.label n) v { σ with flight := (id, k) :: σ.flight } =
      .error g { σ with flight := (id, k) :: σ.flight }) :
    writeWithin limit (room + 1) id p v σ = .error g σ := by
  have hfollow := Eval.follow_run (σ := { σ with flight := (id, k) :: σ.flight })
    (.refl σ.space) target n
  rw [if_pos ha] at hfollow
  refine writeWithin_through_fails hs hv hk hg ?_
  rw [Cell.assign, bind_of_ok hfollow, discard_of_error h]

theorem writeWithin_reference_ok {t : Space} {j : Key} {x : Value}
    (h : writeWithin limit room target (.label n) v { σ with flight := (id, k) :: σ.flight } =
      .ok j { σ with space := t, flight := (id, k) :: σ.flight })
    (hread : readWithin limit (room + 1) id (.key k) { σ with space := t } =
      .ok x { σ with space := t }) :
    writeWithin limit (room + 1) id p v σ = .ok k { σ with space := t.noted id k l x } := by
  have hfollow := Eval.follow_run (σ := { σ with flight := (id, k) :: σ.flight })
    (.refl σ.space) target n
  rw [if_pos ha] at hfollow
  refine writeWithin_through_ok hs hv hk ?_ hread
  rw [Cell.assign, bind_of_ok hfollow, discard_of_ok h]

end References

end Writing

namespace Space

variable {s t : Space} {id : RecordId} {k : Key} {i : DerivedId} {v : Value} {w m : Int64}

theorem fields_noted (s : Space) (id : RecordId) (k : Key) (l : Label) (v : Value) (j : RecordId) :
    ((s.noted id k l v).record j).fields = (s.record j).fields := by
  rw [record_noted]
  split
  · rename_i hj
    rw [hj]
  · rfl

theorem slot?_noted (s : Space) (id : RecordId) (k : Key) (l : Label) (v : Value) (j : RecordId)
    (p : Place) : (s.noted id k l v).slot? j p = s.slot? j p := by
  rw [slot?, fields_noted, slot?]

theorem fields_assigned {j : RecordId} (hj : j ≠ id) (s : Space) (k : Key) (f : Field)
    (v : Value) : ((s.assigned id k f v).record j).fields = (s.record j).fields := by
  rw [assigned, setContents, record_setRecord, if_neg hj]

theorem Sorted.noted (hs : s.Sorted) (id : RecordId) (k : Key) (l : Label) (v : Value) :
    (s.noted id k l v).Sorted :=
  hs.setRecord_of_fields rfl

theorem isTask_put_back (hi : t.derivation i = .ending) (hstart : t.Carries id .start v)
    (hlength : t.Carries id .length (.int m))
    (hs : t.slot? id (.label .finish) = some (k, ⟨.finish, .int w⟩)) :
    (t.assigned id k ⟨.finish, .int w⟩ (.cell (.derived i))).IsTask id v m ∧
      (t.assigned id k ⟨.finish, .int w⟩ (.cell (.derived i))).slot? id (.label .finish) =
        some (k, ⟨.finish, .cell (.derived i)⟩) := by
  have hfield := ((Container.slot?_eq_some ..).mp hs).2
  have hslot := slot?_assigned hs id k ⟨.finish, .int w⟩ (.cell (.derived i))
  rw [if_pos ⟨rfl, rfl⟩] at hslot
  exact ⟨⟨hstart.assigned hfield fun _ => Label.finish_ne_start,
    hlength.assigned hfield fun _ => Label.finish_ne_length, i, hi, k, hslot⟩, hslot⟩

/-- What moving the last end comes to: a row of tasks of which the first starts at `first`. All
other records hold what they did. -/
structure Retimed (s t : Space) (n : Nat) (task : Nat → RecordId) (length : Nat → Int64)
    (first : Int64) : Prop where
  schedule : t.Schedule n task length first
  sorted : t.Sorted
  clear : t.Clear
  derived : t.derived = s.derived
  fields : ∀ id, (∀ i ≤ n, id ≠ task i) → (t.record id).fields = (s.record id).fields

end Space

section Moving

variable {task : Nat → RecordId} {length : Nat → Int64} {first w : Int64} {n limit room : Nat}
  {σ : Session}

/-- Assigning `w` as the end of task `n` moves the tasks up to it, if all of these can start when
they are due. If not it fails and leaves the session as it is. -/
def Session.Shifts (σ : Session) (limit room : Nat) (task : Nat → RecordId)
    (length : Nat → Int64) (n : Nat) (w : Int64) : Prop :=
  (¬ Affords length n w → writeWithin limit room (task n) (.label .finish) (.int w) σ =
    .error (.failed ⟨"difference", .overflow⟩) σ) ∧
  (Affords length n w → ∃ k t,
    writeWithin limit room (task n) (.label .finish) (.int w) σ = .ok k { σ with space := t } ∧
      σ.space.Retimed t n task length (starts length n w 0))

/-- The reaction of the last task having moved those before it, its own cell is put back and its end
is read anew. -/
theorem Space.Schedule.move_done {k : Key} {i : DerivedId} {t : Space}
    (hk : σ.space.slot? (task n) (.label .finish) = some (k, ⟨.finish, .cell (.derived i)⟩))
    (hi : σ.space.derivation i = .ending) (hf : σ.Spares task n) (hroom : 2 * n ≤ room)
    (hw : Affords length n w)
    (hreact : Derived.ending.react (readWithin limit room) (writeWithin limit room) (task n)
      (σ.showing (task n) k i w) = .ok () { σ.showing (task n) k i w with space := t })
    (ht : t.slot? (task n) (.label .finish) = some (k, ⟨.finish, .int w⟩))
    (hback : (t.assigned (task n) k ⟨.finish, .int w⟩ (.cell (.derived i))).Schedule n task length
      (starts length n w 0))
    (hs : t.Sorted) (hc : t.Clear) (hd : t.derived = σ.space.derived)
    (hfields : ∀ id, (∀ i ≤ n, id ≠ task i) →
      (t.record id).fields = (σ.space.record id).fields) :
    ∃ k t, writeWithin limit (room + 1) (task n) (.label .finish) (.int w) σ =
        .ok k { σ with space := t } ∧
      σ.space.Retimed t n task length (starts length n w 0) := by
  let back := t.assigned (task n) k ⟨.finish, .int w⟩ (.cell (.derived i))
  have hsort : back.Sorted := hs.assigned _ k _ _
  have hclear : back.Clear := hc.assigned _ k _ _
  have hslot := slot?_assigned ht (task n) k ⟨.finish, .int w⟩ (.cell (.derived i))
  rw [if_pos ⟨rfl, rfl⟩] at hslot
  have hi' : back.derivation i = .ending := by
    rw [← hi, derivation, derivation, ← hd]
    rfl
  have hread : readWithin limit (room + 1) (task n) (.key k) { σ with space := back } =
      .ok (.int (starts length n w (n + 1))) { σ with space := back } :=
    hback.read_finish (fun _ hi => hw.add hi) (Session.over_self hsort hclear) hf
      (Nat.succ_le_succ hroom) (slot?_key hslot) hi'
  refine ⟨k, _, Space.write_ok hk hi (hf.not_mem (Nat.le_refl n) k) hreact
    ((Container.slot?_eq_some ..).mp ht).2 hread, ?_, hsort.noted _ k _ _, hclear.noted _ k _ _, hd,
    fun id hid => ?_⟩
  · exact hback.congr rfl fun j _ => fields_noted _ _ _ _ _ _
  · rw [fields_noted, fields_assigned (hid n (Nat.le_refl n))]
    exact hfields id hid

theorem Space.Schedule.move_first (h : σ.space.Schedule 0 task length first)
    (hs : σ.space.Sorted) (hc : σ.space.Clear) (hf : σ.Spares task 0) (hroom : 1 ≤ room) :
    σ.Shifts limit room task length 0 w := by
  obtain ⟨room, rfl⟩ : ∃ r, room = r + 1 := ⟨room - 1, by omega⟩
  obtain ⟨i, hi, k, hk⟩ := h.first.finish
  have hreact := h.first.react limit room w hk hs hc (writeWithin limit room)
  constructor
  · intro hno
    cases hu : Checked.sub? w (length 0) with
    | some u => exact absurd (affords_zero.mpr ⟨u, hu⟩) hno
    | none =>
      rw [hu] at hreact
      exact Space.write_fails hk hi hs (hf.not_mem (Nat.le_refl 0) k) rfl hreact
  · intro hw
    obtain ⟨u, hu⟩ := affords_zero.mp hw
    obtain rfl := starts_of_sub hu
    let u := starts length 0 w 0
    obtain ⟨q, hq⟩ := h.first.showing_start (w := w) hk
    obtain ⟨r, hr⟩ := h.first.showing_length (w := w) hk
    have hk' := Space.slot?_showing (w := w) hk
    have hfield := ((Container.slot?_eq_some ..).mp hq).2
    have hshown : (σ.showing (task 0) k i w).space.Sorted := hs.assigned _ k _ _
    have hclear : (σ.showing (task 0) k i w).space.Clear := hc.assigned _ k _ _
    let moved := (σ.showing (task 0) k i w).space.assigned (task 0) q ⟨.start, .int first⟩ (.int u)
    have hstart : moved.slot? (task 0) (.label .start) = some (q, ⟨.start, .int u⟩) := by
      have hslot := slot?_assigned hq (task 0) q ⟨.start, .int first⟩ (.int u)
      rwa [if_pos ⟨rfl, rfl⟩] at hslot
    have hlength : moved.Carries (task 0) .length (.int (length 0)) :=
      Carries.assigned ⟨r, hr⟩ hfield fun _ => by simp [Label.start, Label.length]
    have hfinish : moved.slot? (task 0) (.label .finish) = some (k, ⟨.finish, .int w⟩) := by
      have hne : ¬ (task 0 = task 0 ∧ k = q) := fun he =>
        key_ne hk' hq Label.finish_ne_start he.2
      have hslot := slot?_assigned hk' (task 0) q ⟨.start, .int first⟩ (.int u)
      rwa [if_neg hne] at hslot
    have hwrite : writeWithin limit room (task 0) (.label .start) (.int u)
        (σ.showing (task 0) k i w) = .ok q { σ.showing (task 0) k i w with
          space := moved.noted (task 0) q .start (.int u) } := writeWithin_plain hq rfl
    rw [hu] at hreact
    have hfinish' := (slot?_noted moved (task 0) q .start (.int u) _ _).trans hfinish
    have hback := (isTask_put_back (t := moved.noted (task 0) q .start (.int u)) hi
      (Carries.congr ⟨q, hstart⟩ (fields_noted ..)) (hlength.congr (fields_noted ..)) hfinish').1
    refine Schedule.move_done hk hi hf (Nat.zero_le _) hw (hreact.trans (discard_of_ok hwrite))
      hfinish' ⟨hback, fun i hi => absurd hi (Nat.not_lt_zero i)⟩
      ((hshown.assigned _ q _ _).noted _ q _ _) ((hclear.assigned _ q _ _).noted _ q _ _) rfl
      fun id hid => ?_
    have hne := hid 0 (Nat.le_refl 0)
    rw [fields_noted, fields_assigned hne, Session.showing, fields_assigned hne]

/-- A start that is a reference hands the time on to the end of the task before. -/
theorem Space.Schedule.hand_on (room : Nat) (u : Int64) {id : RecordId} {q : Key}
    (h : σ.space.Schedule n task length first) (hroom : 2 * n + 1 ≤ room)
    (hq : σ.space.slot? id (.label .start) =
      some (q, ⟨.start, .cell (.reference (task n) .finish)⟩))
    (hid : ∀ i ≤ n, id ≠ task i) (hk : (id, q) ∉ σ.flight) (hf : (Eval.enter id q σ).Spares task n)
    (hu : Session.Shifts { σ with flight := (id, q) :: σ.flight } limit room task length n u) :
    (¬ Affords length n u → writeWithin limit (room + 1) id (.label .start) (.int u) σ =
      .error (.failed ⟨"difference", .overflow⟩) σ) ∧
    (Affords length n u → ∃ t, writeWithin limit (room + 1) id (.label .start) (.int u) σ =
        .ok q { σ with space := t.noted id q .start (.int u) } ∧
      σ.space.Retimed t n task length (starts length n u 0)) := by
  obtain ⟨j, -, r, hr⟩ := h.finish
  have halive := alive_of_slot? hr
  constructor
  · intro hno
    exact writeWithin_reference_fails hq rfl hk halive rfl (hu.1 hno)
  · intro ha
    obtain ⟨j, t, hinner, ht⟩ := hu.2 ha
    have hqt : t.slot? id (.key q) =
        some (q, ⟨.start, .cell (.reference (task n) .finish)⟩) := by
      rw [slot?, ht.fields id hid]
      exact slot?_key hq
    have hread : readWithin limit (room + 1) id (.key q) { σ with space := t } =
        .ok (.int (starts length n u (n + 1))) { σ with space := t } :=
      ht.schedule.read_start (fun _ hi => ha.add hi) (Session.over_self ht.sorted ht.clear) hroom
        hqt hk hf
    rw [starts_top] at hread
    exact ⟨t, writeWithin_reference_ok hq rfl hk halive hinner hread, ht⟩

/-- Assigning the last end moves all tasks, or none. The induction is on the number of tasks: the
reaction of the last one assigns the end of the one before, with its own end and start under
evaluation. -/
theorem Space.Schedule.shifts (h : σ.space.Schedule n task length first) (hs : σ.space.Sorted)
    (hc : σ.space.Clear) (hf : σ.Spares task n) (hroom : 2 * n + 1 ≤ room) :
    σ.Shifts limit room task length n w := by
  induction n generalizing σ room w with
  | zero => exact h.move_first hs hc hf hroom
  | succ n ih =>
    obtain ⟨room, rfl⟩ : ∃ r, room = r + 2 := ⟨room - 2, by omega⟩
    have hlast := h.next n (Nat.lt_succ_self n)
    obtain ⟨i, hi, k, hk⟩ := hlast.finish
    obtain ⟨q, hq⟩ := hlast.showing_start (w := w) hk
    have hk' := Space.slot?_showing (w := w) hk
    have hothers : ∀ j ≤ n, task (n + 1) ≠ task j := fun j hj =>
      (h.ne (Nat.lt_succ_of_le hj) (Nat.le_refl _)).symm
    have hbefore : (σ.showing (task (n + 1)) k i w).space.Schedule n task length first :=
      (h.of_le (Nat.le_succ n)).congr rfl fun j hj => fields_assigned (hothers j hj).symm _ _ _ _
    have hqk : (task (n + 1), q) ∉ (σ.showing (task (n + 1)) k i w).flight :=
      hf.not_mem_cons (key_ne hq hk' Label.finish_ne_start.symm)
    have hspares :
        (Eval.enter (task (n + 1)) q (σ.showing (task (n + 1)) k i w)).Spares task n :=
      hf.before h rfl q
    have hreact := hlast.react limit (room + 1) w hk hs hc (writeWithin limit (room + 1))
    have hand (u : Int64) := hbefore.hand_on room u (by omega) hq hothers hqk hspares
      (ih hbefore (hs.assigned _ k _ _) (hc.assigned _ k _ _) hspares (by omega))
    constructor
    · intro hno
      refine Space.write_fails hk hi hs (hf.not_mem (Nat.le_refl _) k) rfl ?_
      cases hu : Checked.sub? w (length (n + 1)) with
      | none =>
        rw [hu] at hreact
        exact hreact
      | some u =>
        rw [hu] at hreact
        exact hreact.trans
          (discard_of_error ((hand u).1 fun ha => hno (affords_succ.mpr ⟨u, hu, ha⟩)))
    · intro hw
      obtain ⟨u, hu, ha⟩ := affords_succ.mp hw
      obtain ⟨t, hwrite, ht⟩ := (hand u).2 ha
      rw [hu] at hreact
      let moved := t.noted (task (n + 1)) q .start (.int u)
      have hsame : (moved.record (task (n + 1))).fields =
          ((σ.showing (task (n + 1)) k i w).space.record (task (n + 1))).fields :=
        (fields_noted ..).trans (ht.fields _ hothers)
      have hfinish : moved.slot? (task (n + 1)) (.label .finish) = some (k, ⟨.finish, .int w⟩) := by
        rw [slot?, hsame]
        exact hk'
      have hi' : moved.derivation i = .ending := by
        rw [← hi]
        exact congrArg (fun d : Table DerivedId Derived => (d.get? i).getD default) ht.derived
      have hback := (isTask_put_back hi' (Carries.congr ⟨q, hq⟩ hsame)
        ((hlast.showing_length hk).congr hsame) hfinish).1
      have hmoved : (moved.assigned (task (n + 1)) k ⟨.finish, .int w⟩
          (.cell (.derived i))).Schedule n task length (starts length n u 0) :=
        ht.schedule.congr rfl fun j hj =>
          (fields_assigned (hothers j hj).symm ..).trans (fields_noted ..)
      have hrow := hmoved.succ hback
      rw [← starts_succ (Checked.toInt_of_ofInt? hu) (Nat.zero_le _)] at hrow
      refine Schedule.move_done hk hi hf (by omega) hw (hreact.trans (discard_of_ok hwrite))
        hfinish hrow (ht.sorted.noted _ q _ _) (ht.clear.noted _ q _ _) ht.derived fun id hid => ?_
      rw [fields_noted, ht.fields id fun j hj => hid j (Nat.le_succ_of_le hj), Session.showing,
        fields_assigned (hid (n + 1) (Nat.le_refl _))]

end Moving

section Requests

variable {s : Space} {task : Nat → RecordId} {length : Nat → Int64} {n : Nat}

/-- Assigning the end of the last of some tasks that follow on one another succeeds just if every
task up to it can start when it is due. Then each of them starts and ends when it is due. If not,
the reaction that overflows is what fails, and nothing at all has changed. -/
theorem Reachable.schedule_shifts (h : Reachable s) {first : Int64}
    (hs : s.Schedule n task length first)
    (hd : ∀ i ≤ n, 2 * n + 1 ≤ (s.record (task i)).maxDepth) (v : Int64) :
    ((∃ k t, (task n).write (.label .finish) (.int v) s = .ok k t) ↔
      ∀ i ≤ n, Checked.fits (due length n v i) = true) ∧
    (∀ k t, (task n).write (.label .finish) (.int v) s = .ok k t → ∀ i ≤ n,
      (∃ a, (task i).read (.label .start) t = .ok (.int a) t ∧ a.toInt = due length n v i) ∧
      ∃ b, (task i).read (.label .finish) t = .ok (.int b) t ∧
        b.toInt = due length n v (i + 1)) ∧
    ((¬ ∀ i ≤ n, Checked.fits (due length n v i) = true) →
      (task n).write (.label .finish) (.int v) s =
        .error (.failed ⟨"difference", .overflow⟩) s) := by
  have hshift : Session.Shifts { space := s } (s.record (task n)).maxDepth
      (s.record (task n)).maxDepth task length n v :=
    hs.shifts h.sorted h.quiet.pending (fun e he => absurd he List.not_mem_nil)
      (hd n (Nat.le_refl n))
  have hfails : (¬ ∀ i ≤ n, Checked.fits (due length n v i) = true) →
      (task n).write (.label .finish) (.int v) s =
        .error (.failed ⟨"difference", .overflow⟩) s := by
    intro hno
    change Eval.run (writeWithin (s.record (task n)).maxDepth (s.record (task n)).maxDepth
      (task n) (.label .finish) (.int v)) s = _
    rw [Eval.run, hshift.1 hno]
  have hok : Affords length n v → ∃ k t, (task n).write (.label .finish) (.int v) s = .ok k t ∧
      s.Retimed t n task length (starts length n v 0) := by
    intro hv
    obtain ⟨k, t, hrun, ht⟩ := hshift.2 hv
    exact ⟨k, t, Eval.run_eq_ok.mpr ⟨_, hrun, rfl⟩, ht⟩
  have hfits {k t} (hrun : (task n).write (.label .finish) (.int v) s = .ok k t) :
      Affords length n v := by
    by_contra hno
    cases (hfails hno).symm.trans hrun
  refine ⟨⟨fun hrun => ?_, fun hv => ?_⟩, fun k t hrun i hi => ?_, hfails⟩
  · obtain ⟨k, t, hrun⟩ := hrun
    exact hfits hrun
  · obtain ⟨k, t, hrun, -⟩ := hok hv
    exact ⟨k, t, hrun⟩
  · have hv := hfits hrun
    obtain ⟨_, _, hrun', ht⟩ := hok hv
    cases hrun.symm.trans hrun'
    have hlimits : Space.SameLimits s t := by
      have := (task n).write_moves Space.closedForWrites_sameLimits (.label .finish) (.int v) s
      rwa [final_of_ok hrun] at this
    have hread := ht.schedule.read ht.sorted ht.clear (fun _ hi => hv.add hi)
      (fun i hi => by rw [hlimits]; exact hd i hi) hi
    exact ⟨⟨_, hread.1, hv.toInt_starts (Nat.le_succ_of_le hi)⟩,
      ⟨_, hread.2, hv.toInt_starts (Nat.succ_le_succ hi)⟩⟩

/-- A task from 2 to 4, and one of length 3 after it. -/
def twoTasks : List Operation :=
  [.newRecord none 3, .newDerived .ending, .record ⟨1⟩ (.add .start (.int 2)),
    .record ⟨1⟩ (.add .length (.int 2)), .record ⟨1⟩ (.add .finish (.cell (.derived ⟨1⟩))),
    .newRecord none 3, .newDerived .ending,
    .record ⟨2⟩ (.add .start (.cell (.reference ⟨1⟩ .finish))),
    .record ⟨2⟩ (.add .length (.int 3)), .record ⟨2⟩ (.add .finish (.cell (.derived ⟨2⟩)))]

/-- Ending at 9, the second task starts at 6, and so the first one at 4. Three above the least
integer the second task could start, but not the first one. -/
theorem schedule_shifts_twoTasks :
    (∃ k t a, RecordId.write ⟨2⟩ (.label .finish) (.int 9) (Space.after twoTasks) = .ok k t ∧
      RecordId.read ⟨1⟩ (.label .start) t = .ok (.int a) t ∧ a.toInt = 4) ∧
    RecordId.write ⟨2⟩ (.label .finish) (.int (Int64.minValue + 3)) (Space.after twoTasks) =
      .error (.failed ⟨"difference", .overflow⟩) (Space.after twoTasks) := by
  have hs : (Space.after twoTasks).Schedule 1 (fun i => ⟨i + 1⟩) (fun i => if i = 0 then 2 else 3)
      2 := by
    refine ⟨⟨⟨⟨1⟩, by decide +kernel⟩, ⟨⟨2⟩, by decide +kernel⟩, ⟨1⟩, rfl, ⟨3⟩,
      by decide +kernel⟩, fun i hi => ?_⟩
    obtain rfl := Nat.lt_one_iff.mp hi
    exact ⟨⟨⟨4⟩, by decide +kernel⟩, ⟨⟨5⟩, by decide +kernel⟩, ⟨2⟩, rfl, ⟨6⟩, by decide +kernel⟩
  have hd : ∀ i ≤ 1, 2 * 1 + 1 ≤ ((Space.after twoTasks).record ⟨i + 1⟩).maxDepth := by
    decide +kernel
  have hmoves := (Reachable.after twoTasks).schedule_shifts hs hd 9
  have hstays := (Reachable.after twoTasks).schedule_shifts hs hd (Int64.minValue + 3)
  obtain ⟨k, t, hrun⟩ := hmoves.1.mpr (by decide +kernel)
  obtain ⟨⟨a, ha, hdue⟩, -⟩ := hmoves.2.1 k t hrun 0 (Nat.zero_le 1)
  exact ⟨⟨k, t, a, hrun, ha, hdue.trans (by decide +kernel)⟩, hstays.2.2 (by decide +kernel)⟩

end Requests

end LiveRecords
