import Mathlib.Algebra.BigOperators.Intervals
import LiveRecords.Formula.Builtin
import LiveRecords.Proofs.Evaluation.Relays
import LiveRecords.Proofs.Evaluation.Undoing

/-! # Tasks that follow on one another

A task has a start, a length and an end, which is derived from the two. In a row of tasks each but
the first starts where the one before ends. What is read of them is added up from the first start
on.
-/

namespace LiveRecords

def Label.start : Label := .name "start"

def Label.length : Label := .name "length"

def Label.finish : Label := .name "end"

theorem Label.finish_ne_start : finish ≠ start := by decide

theorem Label.finish_ne_length : finish ≠ length := by decide

/-- The end of a task, which moves the start when it is assigned. -/
def Derived.ending : Derived where
  getter := .sum [.here .start, .here .length]
  reactions := [(.start, .difference [.here .finish, .here .length])]

namespace Space

/-- The field of a record labelled `l` holds `v`. -/
def Carries (s : Space) (id : RecordId) (l : Label) (v : Value) : Prop :=
  ∃ k, s.slot? id (.label l) = some (k, ⟨l, v⟩)

/-- A task of length `n` whose start holds `v`. -/
structure IsTask (s : Space) (id : RecordId) (v : Value) (n : Int64) : Prop where
  start : s.Carries id .start v
  length : s.Carries id .length (.int n)
  finish : ∃ i, s.derivation i = .ending ∧ s.Carries id .finish (.cell (.derived i))

/-- The tasks from `0` to `n`: the first one starts at `first`, each other one where the one before
ends. -/
structure Schedule (s : Space) (n : Nat) (task : Nat → RecordId) (length : Nat → Int64)
    (first : Int64) : Prop where
  first : s.IsTask (task 0) (.int first) (length 0)
  next : ∀ i < n, s.IsTask (task (i + 1)) (.cell (.reference (task i) .finish)) (length (i + 1))

end Space

section Amounts

/-- When task `i` starts if task `n` ends at `w`. With `i = n + 1` this is `w` itself. -/
def due (length : Nat → Int64) (n : Nat) (w : Int64) (i : Nat) : Int :=
  w.toInt - ∑ j ∈ Finset.Icc i n, (length j).toInt

/-- All tasks up to `n` can start when they are due. -/
def Affords (length : Nat → Int64) (n : Nat) (w : Int64) : Prop :=
  ∀ i ≤ n, Checked.fits (due length n w i) = true

variable {length : Nat → Int64} {n i : Nat} {u w : Int64}

theorem Checked.fits_toInt (w : Int64) : fits w.toInt = true := by
  have hlow := w.le_toInt
  simp only [fits, Bool.and_eq_true, decide_eq_true_eq, Int64.toInt_le, and_true]
  exact hlow

theorem Checked.ofInt?_of_fits {z : Int} (h : fits z = true) : ofInt? z = some (.ofInt z) :=
  if_pos h

theorem Checked.toInt_ofInt {z : Int} (h : fits z = true) : (Int64.ofInt z).toInt = z :=
  toInt_of_ofInt? (ofInt?_of_fits h)

theorem due_top : due length n w (n + 1) = w.toInt := by simp [due]

theorem due_add (hi : i ≤ n) : due length n w i + (length i).toInt = due length n w (i + 1) := by
  have hsum := Finset.sum_Ioc_add_eq_sum_Icc (f := fun j => (length j).toInt) hi
  have hioc : Finset.Ioc i n = Finset.Icc (i + 1) n := by
    ext j
    simp [Finset.mem_Ioc, Finset.mem_Icc]
  rw [hioc] at hsum
  simp only [due]
  omega

theorem due_succ (hu : u.toInt = w.toInt - (length (n + 1)).toInt) (hi : i ≤ n + 1) :
    due length (n + 1) w i = due length n u i := by
  simp only [due]
  rw [Finset.sum_Icc_succ_top hi, hu]
  omega

/-- When task `i` starts, as a value of its field. -/
def starts (length : Nat → Int64) (n : Nat) (w : Int64) (i : Nat) : Int64 :=
  .ofInt (due length n w i)

theorem Affords.fits (h : Affords length n w) (hi : i ≤ n + 1) :
    Checked.fits (due length n w i) = true := by
  rcases Nat.le_succ_iff.mp hi with hi | rfl
  · exact h i hi
  · rw [due_top]
    exact Checked.fits_toInt w

theorem Affords.toInt_starts (h : Affords length n w) (hi : i ≤ n + 1) :
    (starts length n w i).toInt = due length n w i :=
  Checked.toInt_ofInt (h.fits hi)

theorem starts_top : starts length n w (n + 1) = w := by
  rw [starts, due_top, Int64.ofInt_toInt]

theorem starts_succ (hu : u.toInt = w.toInt - (length (n + 1)).toInt) (hi : i ≤ n + 1) :
    starts length (n + 1) w i = starts length n u i := by
  rw [starts, due_succ hu hi, starts]

theorem starts_of_sub (hu : Checked.sub? w (length n) = some u) : starts length n w n = u := by
  have hdue : due length n w n = w.toInt - (length n).toInt := by simp [due]
  rw [starts, hdue, ← Checked.toInt_of_ofInt? hu, Int64.ofInt_toInt]

theorem Affords.add (h : Affords length n w) (hi : i ≤ n) :
    Checked.add? (starts length n w i) (length i) = some (starts length n w (i + 1)) := by
  rw [Checked.add?, h.toInt_starts (Nat.le_succ_of_le hi), due_add hi]
  exact Checked.ofInt?_of_fits (h.fits (Nat.succ_le_succ hi))

theorem affords_succ : Affords length (n + 1) w ↔
    ∃ u, Checked.sub? w (length (n + 1)) = some u ∧ Affords length n u := by
  constructor
  · intro h
    have htop : due length (n + 1) w (n + 1) + (length (n + 1)).toInt =
        due length (n + 1) w (n + 1 + 1) := due_add (Nat.le_refl (n + 1))
    rw [due_top] at htop
    have hfits := h (n + 1) (Nat.le_refl _)
    have hdue : due length (n + 1) w (n + 1) = w.toInt - (length (n + 1)).toInt := by omega
    rw [hdue] at hfits
    refine ⟨_, Checked.ofInt?_of_fits hfits, fun i hi => ?_⟩
    rw [← due_succ (Checked.toInt_ofInt hfits) (Nat.le_succ_of_le hi)]
    exact h i (Nat.le_succ_of_le hi)
  · rintro ⟨u, hu, h⟩ i hi
    rw [due_succ (Checked.toInt_of_ofInt? hu) hi]
    exact h.fits hi

theorem affords_zero : Affords length 0 w ↔ ∃ u, Checked.sub? w (length 0) = some u := by
  have hdue : due length 0 w 0 = w.toInt - (length 0).toInt := by simp [due]
  constructor
  · intro h
    have hfits := h 0 (Nat.le_refl 0)
    rw [hdue] at hfits
    exact ⟨_, Checked.ofInt?_of_fits hfits⟩
  · rintro ⟨u, hu⟩ i hi
    obtain rfl := Nat.le_zero.mp hi
    rw [hdue, ← Checked.toInt_of_ofInt? hu]
    exact Checked.fits_toInt u

end Amounts

namespace Space

variable {s t : Space} {id j : RecordId} {l : Label} {v w : Value} {n : Int64}

theorem Carries.unique (h : s.Carries id l v) (h' : s.Carries id l w) : v = w := by
  obtain ⟨k, hk⟩ := h
  obtain ⟨q, hq⟩ := h'
  cases hk.symm.trans hq
  rfl

theorem Carries.congr (h : s.Carries id l v) (hf : (t.record id).fields = (s.record id).fields) :
    t.Carries id l v := by
  obtain ⟨k, hk⟩ := h
  exact ⟨k, by rw [slot?, hf]; exact hk⟩

theorem key_ne {p q : Place} {k j : Key} {l m : Label} (hk : s.slot? id p = some (k, ⟨l, v⟩))
    (hj : s.slot? id q = some (j, ⟨m, w⟩)) (hl : l ≠ m) : k ≠ j := by
  rintro rfl
  cases (slot?_key hk).symm.trans (slot?_key hj)
  exact hl rfl

theorem Carries.assigned (h : s.Carries id l v) {k : Key} {f : Field}
    (hk : (s.record j).fields.field? k = some f) (hl : id = j → f.label ≠ l) :
    (s.assigned j k f w).Carries id l v := by
  obtain ⟨q, hq⟩ := h
  have hne : ¬ (id = j ∧ q = k) := by
    rintro ⟨rfl, rfl⟩
    have hq' := ((Container.slot?_eq_some ..).mp hq).2
    rw [hk] at hq'
    cases hq'
    exact hl rfl rfl
  have hslot := slot?_assigned hq j k f w
  rw [if_neg hne] at hslot
  exact ⟨q, hslot⟩

theorem IsTask.congr (h : s.IsTask id v n) (hd : t.derived = s.derived)
    (hf : (t.record id).fields = (s.record id).fields) : t.IsTask id v n := by
  obtain ⟨i, hi, hfinish⟩ := h.finish
  refine ⟨h.start.congr hf, h.length.congr hf, i, ?_, hfinish.congr hf⟩
  rw [derivation, hd]
  exact hi

namespace Schedule

variable {task : Nat → RecordId} {length : Nat → Int64} {first : Int64} {m : Nat}

theorem of_le (h : s.Schedule m task length first) {i : Nat} (hi : i ≤ m) :
    s.Schedule i task length first :=
  ⟨h.first, fun j hj => h.next j (Nat.lt_of_lt_of_le hj hi)⟩

theorem congr (h : s.Schedule m task length first) (hd : t.derived = s.derived)
    (hf : ∀ i ≤ m, (t.record (task i)).fields = (s.record (task i)).fields) :
    t.Schedule m task length first :=
  ⟨h.first.congr hd (hf 0 (Nat.zero_le m)), fun i hi => (h.next i hi).congr hd (hf _ hi)⟩

theorem succ (h : s.Schedule m task length first)
    (hm : s.IsTask (task (m + 1)) (.cell (.reference (task m) .finish)) (length (m + 1))) :
    s.Schedule (m + 1) task length first := by
  refine ⟨h.first, fun i hi => ?_⟩
  rcases Nat.lt_succ_iff_lt_or_eq.mp hi with hi | rfl
  · exact h.next i hi
  · exact hm

theorem finish (h : s.Schedule m task length first) :
    ∃ i, s.derivation i = .ending ∧ s.Carries (task m) .finish (.cell (.derived i)) := by
  cases m with
  | zero => exact h.first.finish
  | succ m => exact (h.next m (Nat.lt_succ_self m)).finish

/-- No task comes twice: going back from both occurrences, the first task would be reached before
another one, and it does not start where one ends. -/
theorem ne (h : s.Schedule m task length first) {i j : Nat} (hij : i < j) (hj : j ≤ m) :
    task i ≠ task j := by
  induction i generalizing j with
  | zero =>
    intro he
    obtain ⟨j, rfl⟩ : ∃ r, j = r + 1 := ⟨j - 1, by omega⟩
    have hstart := (h.next j hj).start
    rw [← he] at hstart
    cases h.first.start.unique hstart
  | succ i ih =>
    intro he
    obtain ⟨j, rfl⟩ : ∃ r, j = r + 1 := ⟨j - 1, by omega⟩
    have hstart := (h.next j hj).start
    rw [← he] at hstart
    have href := (h.next i (by omega)).start.unique hstart
    simp only [Value.cell.injEq, Cell.reference.injEq, and_true] at href
    exact ih (Nat.lt_of_succ_lt_succ hij) (Nat.le_of_succ_le hj) href

end Schedule

end Space

section Reading

variable {s : Space} {σ : Session} {limit room : Nat} {id : RecordId} {p : Place} {k : Key}
  {l : Label} {v : Value}

theorem readWithin_cell {c : Cell} (hσ : σ.Over s) (hs : s.slot? id p = some (k, ⟨l, .cell c⟩))
    (hk : (id, k) ∉ σ.flight)
    (h : c.eval (readWithin limit room) id (Eval.enter id k σ) = .ok v (Eval.enter id k σ)) :
    readWithin limit (room + 1) id p σ = .ok v σ := by
  have hl := Space.alive_of_slot? hs
  have hread := Eval.settling_guarded_of_ok (l := l) hk (hσ.enter hl k).clear h
  rw [Eval.leave_enter hσ.ascending ((hσ.agree.alive id).trans hl)] at hread
  rw [readWithin, readBy_cell ((hσ.agree.slot? id p).trans hs)]
  exact hread

theorem readWithin_reference {target : RecordId} {m : Label} (hσ : σ.Over s)
    (hs : s.slot? id p = some (k, ⟨l, .cell (.reference target m)⟩)) (hk : (id, k) ∉ σ.flight)
    (ha : s.alive target = true)
    (h : readWithin limit room target (.label m) (Eval.enter id k σ) =
      .ok v (Eval.enter id k σ)) :
    readWithin limit (room + 1) id p σ = .ok v σ := by
  have hover := hσ.enter (Space.alive_of_slot? hs) k
  refine readWithin_cell hσ hs hk ?_
  rw [Cell.eval, bind_of_ok (by rw [Eval.follow_run hover.agree, if_pos ha])]
  exact h

theorem readWithin_derived {i : DerivedId} (hσ : σ.Over s)
    (hs : s.slot? id p = some (k, ⟨l, .cell (.derived i)⟩)) (hk : (id, k) ∉ σ.flight)
    (h : (s.derivation i).getter.eval (readWithin limit room) id (Eval.enter id k σ) =
      .ok v (Eval.enter id k σ)) :
    readWithin limit (room + 1) id p σ = .ok v σ := by
  have hover := hσ.enter (Space.alive_of_slot? hs) k
  refine readWithin_cell hσ hs hk ?_
  rw [Cell.eval, bind_of_ok (Eval.space_run _), hover.agree.derivation]
  exact h

theorem readWithin_carries (hσ : σ.Over s) (h : s.Carries id l v) (hv : v.isCell = false) :
    readWithin limit room id (.label l) σ = .ok v σ := by
  obtain ⟨k, hk⟩ := h
  exact readWithin_plain ((hσ.agree.slot? id (.label l)).trans hk) hv

theorem Formula.eval_of_operands {read : Reader} {name : String} {apply : Function}
    {operands : List Operand} {vs : List Value}
    (h : Operand.evalAll read operands { σ with targets := id :: σ.targets } =
      .ok vs { σ with targets := id :: σ.targets }) :
    (Formula.mk name apply operands).eval read id σ =
      match apply σ.space.plainText vs with
      | .ok v => .ok v σ
      | .error f => .error (.failed (f.within name)) σ := by
  rw [Formula.eval, Eval.onTarget_run, Eval.andThen, bind_of_ok h, bind_of_ok (Eval.space_run _)]
  cases apply σ.space.plainText vs <;> rfl

theorem Operand.evalAll_pair {read : Reader} {a b : Operand} {v w : Value}
    (ha : a.eval read σ = .ok v σ) (hb : b.eval read σ = .ok w σ) :
    Operand.evalAll read [a, b] σ = .ok [v, w] σ := by
  have hlast : Operand.evalAll read [b] σ = .ok [w] σ := by
    rw [Operand.evalAll, bind_of_ok hb]
    rfl
  rw [Operand.evalAll, bind_of_ok ha, bind_of_ok hlast]
  rfl

theorem Formula.eval_here (read : Reader) (name : String)
    (op : Value → Value → Except Failure Value) {m : Label} {a b : Value}
    (ha : ∀ targets, read id (.label l) { σ with targets } = .ok a { σ with targets })
    (hb : ∀ targets, read id (.label m) { σ with targets } = .ok b { σ with targets }) :
    (Formula.mk name (.binary name op) [.here l, .here m]).eval read id σ =
      match op a b with
      | .ok v => .ok v σ
      | .error f => .error (.failed (f.within name)) σ := by
  let τ : Session := { σ with targets := id :: σ.targets }
  have htarget : Eval.target τ = .ok id τ := by rw [Eval.target_run]
  have hl : (Operand.here l).eval read τ = .ok a τ := (bind_of_ok htarget).trans (ha _)
  have hm : (Operand.here m).eval read τ = .ok b τ := (bind_of_ok htarget).trans (hb _)
  rw [Formula.eval_of_operands (Operand.evalAll_pair hl hm), Function.binary]

end Reading

section Rows

variable {s t : Space} {σ : Session} {limit room : Nat} {id : RecordId} {p : Place} {k : Key}
  {i : DerivedId} {v : Value} {a b m : Int64} {task : Nat → RecordId} {length : Nat → Int64}
  {n : Nat} {first : Int64}

theorem Space.IsTask.read_finish (h : s.IsTask id v m) (hσ : σ.Over s)
    (hs : s.slot? id p = some (k, ⟨.finish, .cell (.derived i)⟩)) (hi : s.derivation i = .ending)
    (hk : (id, k) ∉ σ.flight) (hadd : Checked.add? a m = some b)
    (hstart : ∀ τ : Session, τ.Over s → τ.flight = (id, k) :: σ.flight →
      readWithin limit room id (.label .start) τ = .ok (.int a) τ) :
    readWithin limit (room + 1) id p σ = .ok (.int b) σ := by
  refine readWithin_derived hσ hs hk ?_
  have hover := hσ.enter (Space.alive_of_slot? hs) k
  have hsum := Formula.eval_here (readWithin limit room) "sum" Value.add
    (fun targets => hstart { Eval.enter id k σ with targets } (hover.of_space rfl) rfl)
    fun targets => readWithin_carries (σ := { Eval.enter id k σ with targets }) (hover.of_space rfl)
      h.length rfl
  have hvalue : Value.add (.int a) (.int m) = .ok (.int b) := by
    rw [Value.add, hadd, Value.ofChecked]
  rw [hvalue] at hsum
  rw [hi]
  exact hsum

/-- None of the tasks up to `n` is under evaluation. -/
def Session.Spares (σ : Session) (task : Nat → RecordId) (n : Nat) : Prop :=
  ∀ e ∈ σ.flight, ∀ i ≤ n, e.1 ≠ task i

theorem Session.Spares.not_mem (h : σ.Spares task n) {i : Nat} (hi : i ≤ n) (k : Key) :
    (task i, k) ∉ σ.flight := fun hk => h _ hk i hi rfl

theorem Session.Spares.not_mem_cons (h : σ.Spares task n) {q : Key} (hq : q ≠ k) :
    (task n, q) ∉ (task n, k) :: σ.flight := by
  rw [List.mem_cons, not_or, Prod.mk.injEq]
  exact ⟨fun he => hq he.2, h.not_mem (Nat.le_refl n) q⟩

/-- While the end of a task is under evaluation, and then its start, none of the tasks before is. -/
theorem Session.Spares.before {τ : Session} (h : σ.Spares task (n + 1))
    (hs : s.Schedule (n + 1) task length first) (hτ : τ.flight = (task (n + 1), k) :: σ.flight)
    (q : Key) : (Eval.enter (task (n + 1)) q τ).Spares task n := by
  intro e he j hj
  have hne : task (n + 1) ≠ task j := (hs.ne (Nat.lt_succ_of_le hj) (Nat.le_refl _)).symm
  rw [Eval.enter, hτ, List.mem_cons, List.mem_cons] at he
  rcases he with rfl | rfl | he
  · exact hne
  · exact hne
  · exact h e he j (Nat.le_succ_of_le hj)

/-- The ends of a row of tasks, if none overflows. The induction is on the number of tasks: the
start of the last one is read as the end of the one before, two cells further in. -/
theorem Space.Schedule.read_finish {times : Nat → Int64}
    (h : s.Schedule n task length (times 0))
    (hadd : ∀ i ≤ n, Checked.add? (times i) (length i) = some (times (i + 1))) (hσ : σ.Over s)
    (hf : σ.Spares task n) (hroom : 2 * n + 1 ≤ room)
    (hs : s.slot? (task n) p = some (k, ⟨.finish, .cell (.derived i)⟩))
    (hi : s.derivation i = .ending) :
    readWithin limit room (task n) p σ = .ok (.int (times (n + 1))) σ := by
  induction n generalizing σ room p k i with
  | zero =>
    obtain ⟨room, rfl⟩ : ∃ r, room = r + 1 := ⟨room - 1, by omega⟩
    refine h.first.read_finish hσ hs hi (hf.not_mem (Nat.le_refl 0) k) (hadd 0 (Nat.le_refl 0)) ?_
    exact fun τ hτ _ => readWithin_carries hτ h.first.start rfl
  | succ n ih =>
    obtain ⟨room, rfl⟩ : ∃ r, room = r + 2 := ⟨room - 2, by omega⟩
    have hlast := h.next n (Nat.lt_succ_self n)
    have hk := hf.not_mem (Nat.le_refl (n + 1)) k
    refine hlast.read_finish hσ hs hi hk (hadd (n + 1) (Nat.le_refl _)) fun τ hτ hflight => ?_
    obtain ⟨q, hq⟩ := hlast.start
    have hqk : (task (n + 1), q) ∉ τ.flight :=
      hflight ▸ hf.not_mem_cons (Space.key_ne hq hs Label.finish_ne_start.symm)
    have hover := hτ.enter (Space.alive_of_slot? hq) q
    obtain ⟨j, hj, r, hr⟩ := (h.of_le (Nat.le_succ n)).finish
    refine readWithin_reference hτ hq hqk (Space.alive_of_slot? hr) ?_
    exact ih (h.of_le (Nat.le_succ n)) (fun i hi => hadd i (Nat.le_succ_of_le hi)) hover
      (hf.before h hflight q) (by omega) hr hj

theorem Space.Schedule.read_start {times : Nat → Int64} {l : Label}
    (h : s.Schedule n task length (times 0))
    (hadd : ∀ i ≤ n, Checked.add? (times i) (length i) = some (times (i + 1))) (hσ : σ.Over s)
    (hroom : 2 * n + 1 ≤ room)
    (hs : s.slot? id p = some (k, ⟨l, .cell (.reference (task n) .finish)⟩))
    (hk : (id, k) ∉ σ.flight) (hf : (Eval.enter id k σ).Spares task n) :
    readWithin limit (room + 1) id p σ = .ok (.int (times (n + 1))) σ := by
  obtain ⟨i, hi, q, hq⟩ := h.finish
  have hover := hσ.enter (Space.alive_of_slot? hs) k
  exact readWithin_reference hσ hs hk (Space.alive_of_slot? hq)
    (h.read_finish hadd hover hf hroom hq hi)

theorem Space.Schedule.read {times : Nat → Int64} (h : t.Schedule n task length (times 0))
    (hs : t.Sorted) (hc : t.Clear)
    (hadd : ∀ i ≤ n, Checked.add? (times i) (length i) = some (times (i + 1)))
    (hd : ∀ i ≤ n, 2 * n + 1 ≤ (t.record (task i)).maxDepth) {i : Nat} (hi : i ≤ n) :
    (task i).read (.label .start) t = .ok (.int (times i)) t ∧
      (task i).read (.label .finish) t = .ok (.int (times (i + 1))) t := by
  have hover : Session.Over { space := t } t := Session.over_self hs hc
  have hroom := hd i hi
  constructor
  · cases i with
    | zero => exact Eval.run_eq_ok.mpr ⟨_, readWithin_carries hover h.first.start rfl, rfl⟩
    | succ i =>
      have hi' : i ≤ n := Nat.le_of_succ_le hi
      obtain ⟨q, hq⟩ := (h.next i hi).start
      have hspares : (Eval.enter (task (i + 1)) q { space := t }).Spares task i := by
        intro e he j hj
        cases List.mem_singleton.mp he
        exact (h.ne (Nat.lt_succ_of_le hj) hi).symm
      obtain ⟨room, hmax⟩ : ∃ r, (t.record (task (i + 1))).maxDepth = r + 1 :=
        ⟨(t.record (task (i + 1))).maxDepth - 1, by omega⟩
      have hread : readWithin (room + 1) (room + 1) (task (i + 1)) (.label .start)
          { space := t } = .ok (.int (times (i + 1))) { space := t } :=
        (h.of_le hi').read_start (fun j hj => hadd j (Nat.le_trans hj hi')) hover (by omega) hq
          List.not_mem_nil hspares
      rw [← hmax] at hread
      exact Eval.run_eq_ok.mpr ⟨_, hread, rfl⟩
  · obtain ⟨j, hj, q, hq⟩ := (h.of_le hi).finish
    have hread : readWithin (t.record (task i)).maxDepth (t.record (task i)).maxDepth (task i)
        (.label .finish) { space := t } = .ok (.int (times (i + 1))) { space := t } :=
      (h.of_le hi).read_finish (fun j hj => hadd j (Nat.le_trans hj hi)) hover nofun (by omega) hq
        hj
    exact Eval.run_eq_ok.mpr ⟨_, hread, rfl⟩

end Rows

end LiveRecords
