import LiveRecords.Proofs.Evaluation.Activations

/-! # What a cycle leaves behind

Only a cycle leaves marks of cells behind. Beside each routine stands one after which a cycle leaves
any marks one likes instead. Both come to the same, so no step of a session looks at marks that a
cycle has left.
-/

namespace LiveRecords

variable {α β : Type}

/-- What the marks are once a call has ended in a cycle. -/
abbrev Remnant := Session → List (RecordId × Key)

/-- Run `m`, and leave the marks as told if it ends in a cycle. -/
def Eval.leaving (remnant : Remnant) (m : Eval α) : Eval α :=
  m.andThen fun outcome σ =>
    match outcome with
    | .error (.cycle _ _) => { σ with flight := remnant σ }
    | _ => σ

section Routines

variable (remnant : Remnant) (limit : Nat)

/-- As `Cell.getWithin`, but each cell that ends in a cycle leaves the marks as told. -/
def Cell.getLeaving : Nat → RecordId → Key → Label → Cell → Eval Value
  | 0, _, _, _, _ => throw (.tooDeep limit)
  | room + 1, id, k, l, c =>
    Eval.leaving remnant (Eval.guarded id k l
      (c.eval (readBy fun id k l c => Eval.settling id (getLeaving room id k l c)) id))

def readLeaving (room : Nat) : Reader :=
  readBy fun id k l c => Eval.settling id (c.getLeaving remnant limit room id k l)

/-- As `Cell.setWithin`, but each cell that ends in a cycle leaves the marks as told. -/
def Cell.setLeaving : Nat → RecordId → Key → Label → Cell → Value → Eval Unit
  | 0, _, _, _, _, _ => throw (.tooDeep limit)
  | room + 1, id, k, l, c, v =>
    Eval.leaving remnant (Eval.guarded id k l
      (c.assign (readLeaving remnant limit room)
        (writeBy (setLeaving room) (readLeaving remnant limit room)) id k v))

def writeLeaving (room : Nat) : Writer :=
  writeBy (Cell.setLeaving remnant limit room) (readLeaving remnant limit room)

/-- As `Routine.run`, but each cell that ends in a cycle leaves the marks as told. -/
def Routine.runLeaving (room : Nat) : (r : Routine) → Eval r.Answer
  | get id p => readLeaving remnant limit room id p
  | set id p v => writeLeaving remnant limit room id p v
  | compute f id => f.eval (readLeaving remnant limit room) id
  | getCell id k l c => c.getLeaving remnant limit room id k l
  | setCell id k l c v => c.setLeaving remnant limit room id k l v

end Routines

section Flight

variable (limit room : Nat)

theorem Eval.leaving_flight (m : Eval α) : Eval.leaving Session.flight m = m := by
  funext σ
  rw [leaving, andThen]
  cases m σ with
  | ok a τ => rfl
  | error e τ => cases e <;> rfl

theorem Cell.getLeaving_flight : Cell.getLeaving Session.flight limit room =
    fun id k l c => c.getWithin limit room id k l := by
  induction room with
  | zero => rfl
  | succ room ih =>
    funext id k l c
    rw [getLeaving, Eval.leaving_flight, ih, ← readWithin_eq]
    rfl

theorem readLeaving_flight : readLeaving Session.flight limit room = readWithin limit room := by
  rw [readLeaving, Cell.getLeaving_flight, readWithin_eq]

theorem Cell.setLeaving_flight : Cell.setLeaving Session.flight limit room =
    fun id k l c v => c.setWithin limit room id k l v := by
  induction room with
  | zero => rfl
  | succ room ih =>
    funext id k l c v
    rw [setLeaving, Eval.leaving_flight, readLeaving_flight, ih, ← writeWithin_eq]
    rfl

/-- With the marks left as they are, these are the routines themselves. -/
theorem Routine.runLeaving_flight (r : Routine) :
    r.runLeaving Session.flight limit room = r.run limit room := by
  have hread := readLeaving_flight limit room
  cases r with
  | get id p => exact congrFun (congrFun hread id) p
  | set id p v =>
    rw [runLeaving, writeLeaving, Cell.setLeaving_flight, hread, ← writeWithin_eq]
    rfl
  | compute f id => exact congrArg (fun read => f.eval read id) hread
  | getCell id k l c => rw [runLeaving, Cell.getLeaving_flight]; rfl
  | setCell id k l c v => rw [runLeaving, Cell.setLeaving_flight]; rfl

end Flight

/-- The same end, but for the marks after a cycle. -/
inductive EndAlike :
    EStateM.Result Fault Session α → EStateM.Result Fault Session α → Prop where
  | same (r) : EndAlike r r
  | cycle {name l σ} (flight : List (RecordId × Key)) :
      EndAlike (.error (.cycle name l) σ) (.error (.cycle name l) { σ with flight })

/-- Whichever session they run in, both programs end alike. -/
def Indifferent (m m' : Eval α) : Prop := ∀ σ, EndAlike (m σ) (m' σ)

section Programs

variable {m m' : Eval α}

theorem Indifferent.refl (m : Eval α) : Indifferent m m := fun _ => .same _

theorem Indifferent.bind {f f' : α → Eval β} (hm : Indifferent m m')
    (hf : ∀ a, Indifferent (f a) (f' a)) : Indifferent (m >>= f) (m' >>= f') := by
  intro σ
  have h := hm σ
  generalize hr : m σ = r at h
  generalize hq : m' σ = q at h
  cases h with
  | same =>
    cases r with
    | ok a τ =>
      rw [bind_of_ok hr, bind_of_ok hq]
      exact hf a τ
    | error e τ =>
      rw [bind_of_error hr, bind_of_error hq]
      exact .same _
  | cycle flight =>
    rw [bind_of_error hr, bind_of_error hq]
    exact .cycle flight

theorem Indifferent.discard (hm : Indifferent m m') : Indifferent (discard m) (discard m') :=
  hm.bind fun _ => .refl _

theorem indifferent_forM {f f' : β → Eval Unit} (l : List β)
    (h : ∀ b, Indifferent (f b) (f' b)) : Indifferent (l.forM f) (l.forM f') := by
  induction l with
  | nil => exact .refl _
  | cons b l ih => exact (h b).bind fun _ => ih

theorem Indifferent.onTarget (hm : Indifferent m m') (id : RecordId) :
    Indifferent (Eval.onTarget id m) (Eval.onTarget id m') := by
  intro σ
  have h := hm { σ with targets := id :: σ.targets }
  rw [Eval.onTarget_run, Eval.onTarget_run, Eval.andThen, Eval.andThen]
  generalize m { σ with targets := id :: σ.targets } = r at h
  generalize m' { σ with targets := id :: σ.targets } = q at h
  cases h with
  | same => exact .same _
  | cycle flight => exact .cycle flight

theorem Indifferent.guarded (hm : Indifferent m m') (id : RecordId) (k : Key) (l : Label) :
    Indifferent (Eval.guarded id k l m) (Eval.guarded id k l m') := by
  intro σ
  by_cases hk : σ.flight.contains (id, k) = true
  · rw [Eval.guarded_of_mem m hk, Eval.guarded_of_mem m' hk]
    exact .same _
  · have h := hm { σ with flight := (id, k) :: σ.flight }
    rw [Eval.guarded_of_not_mem m hk, Eval.guarded_of_not_mem m' hk, Eval.andThen, Eval.andThen]
    generalize m { σ with flight := (id, k) :: σ.flight } = r at h
    generalize m' { σ with flight := (id, k) :: σ.flight } = q at h
    cases h with
    | same => exact .same _
    | cycle flight => exact .cycle flight

/-- Marks are only put in place after a cycle, where they may be any. -/
theorem Indifferent.leaving (hm : Indifferent m m') (remnant : Remnant) :
    Indifferent m (Eval.leaving remnant m') := by
  intro σ
  have h := hm σ
  rw [Eval.leaving, Eval.andThen]
  generalize m σ = r at h
  generalize m' σ = q at h
  cases h with
  | cycle flight => exact .cycle _
  | same =>
    cases r with
    | ok a τ => exact .same _
    | error e τ =>
      cases e with
      | cycle name l => exact .cycle _
      | _ => exact .same _

theorem Indifferent.settling {m m' : Eval Value} (hm : Indifferent m m') (id : RecordId) :
    Indifferent (Eval.settling id m) (Eval.settling id m') := by
  intro σ
  have h := hm (Eval.deepen id σ)
  rw [Eval.settling, Eval.settling]
  generalize m (Eval.deepen id σ) = r at h
  generalize m' (Eval.deepen id σ) = q at h
  cases h with
  | same => exact .same _
  | cycle flight => exact .cycle flight

theorem Indifferent.followedBy {m m' : Eval Unit} (hm : Indifferent m m') (e : Edit Unit) :
    Indifferent (m.followedBy (Eval.edit e)) (m'.followedBy (Eval.edit e)) := by
  intro σ
  have h := hm σ
  rw [Eval.followedBy, Eval.followedBy]
  generalize m σ = r at h
  generalize m' σ = q at h
  cases h with
  | same => exact .same _
  | @cycle name l τ flight =>
    dsimp only [Eval.edit]
    cases e τ.space with
    | ok _ s => exact .cycle flight
    | error f s => exact .cycle flight

end Programs

section Reading

variable {read read' : Reader}

mutual

theorem Formula.eval_indifferent (hr : ∀ id p, Indifferent (read id p) (read' id p)) (f : Formula)
    (id : RecordId) : Indifferent (f.eval read id) (f.eval read' id) := by
  cases f with
  | mk name apply operands =>
    refine Indifferent.onTarget ?_ id
    exact (Operand.evalAll_indifferent hr operands).bind fun vs => .refl _

theorem Operand.eval_indifferent (hr : ∀ id p, Indifferent (read id p) (read' id p))
    (a : Operand) : Indifferent (a.eval read) (a.eval read') := by
  cases a with
  | constant v => exact .refl _
  | here l => exact (Indifferent.refl _).bind fun id => hr id _
  | nested f => exact (Indifferent.refl _).bind fun id => Formula.eval_indifferent hr f id
  | field n => exact (Indifferent.refl _).bind fun id => hr id _

theorem Operand.evalAll_indifferent (hr : ∀ id p, Indifferent (read id p) (read' id p))
    (as : List Operand) : Indifferent (Operand.evalAll read as) (Operand.evalAll read' as) := by
  cases as with
  | nil => exact .refl _
  | cons a as =>
    refine (Operand.eval_indifferent hr a).bind fun v => ?_
    exact (Operand.evalAll_indifferent hr as).bind fun vs => .refl _

end

theorem Cell.eval_indifferent (hr : ∀ id p, Indifferent (read id p) (read' id p))
    (owner : RecordId) (c : Cell) : Indifferent (c.eval read owner) (c.eval read' owner) := by
  cases c with
  | derived i =>
    exact (Indifferent.refl _).bind fun s => (s.derivation i).getter.eval_indifferent hr owner
  | reference target l => exact (Indifferent.refl _).bind fun id => hr id _

theorem readBy_indifferent {evaluate evaluate' : RecordId → Key → Label → Cell → Eval Value}
    (he : ∀ id k l c, Indifferent (evaluate id k l c) (evaluate' id k l c)) (id : RecordId)
    (p : Place) : Indifferent (readBy evaluate id p) (readBy evaluate' id p) := by
  refine (Indifferent.refl _).bind fun s => ?_
  split
  · exact .refl _
  · exact he id _ _ _
  · exact .refl _

end Reading

section Writing

variable {read read' : Reader} {write write' : Writer}

theorem Derived.react_indifferent (hr : ∀ id p, Indifferent (read id p) (read' id p))
    (hw : ∀ id p v, Indifferent (write id p v) (write' id p v)) (owner : RecordId) (d : Derived) :
    Indifferent (d.react read write owner) (d.react read' write' owner) :=
  indifferent_forM _ fun r => (r.2.eval_indifferent hr owner).bind fun v =>
    (hw owner _ v).discard

theorem Cell.assign_indifferent (hr : ∀ id p, Indifferent (read id p) (read' id p))
    (hw : ∀ id p v, Indifferent (write id p v) (write' id p v)) (owner : RecordId) (k : Key)
    (v : Value) (c : Cell) :
    Indifferent (c.assign read write owner k v) (c.assign read' write' owner k v) := by
  cases c with
  | derived i =>
    refine (Indifferent.refl _).bind fun s => (Indifferent.refl _).bind fun _ => ?_
    exact ((s.derivation i).react_indifferent hr hw owner).followedBy _
  | reference target l => exact (Indifferent.refl _).bind fun id => (hw id _ v).discard

theorem writeBy_indifferent {assign assign' : RecordId → Key → Label → Cell → Value → Eval Unit}
    (ha : ∀ id k l c v, Indifferent (assign id k l c v) (assign' id k l c v))
    (hr : ∀ id p, Indifferent (read id p) (read' id p)) (id : RecordId) (p : Place) (v : Value) :
    Indifferent (writeBy assign read id p v) (writeBy assign' read' id p v) := by
  refine (Indifferent.refl _).bind fun s => ?_
  split
  · exact (ha id _ _ _ v).bind fun _ => (hr id _).bind fun w => .refl _
  · exact .refl _

end Writing

section Remnants

variable (remnant : Remnant) (limit room : Nat)

theorem Cell.getWithin_indifferent (id : RecordId) (k : Key) (l : Label) (c : Cell) :
    Indifferent (c.getWithin limit room id k l) (c.getLeaving remnant limit room id k l) := by
  induction room generalizing id k l c with
  | zero => exact .refl _
  | succ room ih =>
    have hread : ∀ id p,
        Indifferent (readWithin limit room id p) (readLeaving remnant limit room id p) := by
      rw [readWithin_eq]
      exact readBy_indifferent fun id k l c => (ih id k l c).settling id
    exact ((c.eval_indifferent hread id).guarded id k l).leaving remnant

theorem readWithin_indifferent (id : RecordId) (p : Place) :
    Indifferent (readWithin limit room id p) (readLeaving remnant limit room id p) := by
  rw [readWithin_eq]
  refine readBy_indifferent (fun id k l c => ?_) id p
  exact (c.getWithin_indifferent remnant limit room id k l).settling id

theorem Cell.setWithin_indifferent (id : RecordId) (k : Key) (l : Label) (c : Cell) (v : Value) :
    Indifferent (c.setWithin limit room id k l v) (c.setLeaving remnant limit room id k l v) := by
  induction room generalizing id k l c v with
  | zero => exact .refl _
  | succ room ih =>
    have hread := readWithin_indifferent remnant limit room
    have hwrite : ∀ id p v,
        Indifferent (writeWithin limit room id p v) (writeLeaving remnant limit room id p v) := by
      rw [writeWithin_eq]
      exact writeBy_indifferent ih hread
    exact ((c.assign_indifferent hread hwrite id k v).guarded id k l).leaving remnant

theorem Routine.run_indifferent (r : Routine) :
    Indifferent (r.run limit room) (r.runLeaving remnant limit room) := by
  have hread := readWithin_indifferent remnant limit room
  cases r with
  | get id p => exact hread id p
  | set id p v =>
    change Indifferent (writeWithin limit room id p v) _
    rw [writeWithin_eq]
    have hcell := Cell.setWithin_indifferent remnant limit room
    exact writeBy_indifferent hcell hread id p v
  | compute f id => exact f.eval_indifferent hread id
  | getCell id k l c => exact c.getWithin_indifferent remnant limit room id k l
  | setCell id k l c v => exact c.setWithin_indifferent remnant limit room id k l v

end Remnants

/-- Whatever a call comes to, the targets are those of before, and so are the marks unless it ends
in a cycle. Then all calls under way end in the same cycle, and so does what is asked from outside;
the marks that it leaves could be any others, those that it does leave among them. At each call the
marks and the targets are those of the calls under way, and no call faults for want of a target. -/
theorem Activation.Stack.context_balanced {limit : Nat} {A B : Activation} {stack : List Activation}
    (h : A.Stack limit (B :: stack)) :
    (B.left limit).targets = B.session.targets ∧
      ((∀ name l, B.fault? limit ≠ some (.cycle name l)) →
        (B.left limit).flight = B.session.flight) ∧
      (∀ name l, B.fault? limit = some (.cycle name l) →
        ∀ C ∈ stack, C.fault? limit = some (.cycle name l)) ∧
      (∀ remnant, EndAlike (B.routine.run limit B.room B.session)
        (B.routine.runLeaving remnant limit B.room B.session)) ∧
      B.routine.runLeaving Session.flight limit B.room = B.routine.run limit B.room ∧
      B.session.flight = stack.flatMap (·.routine.marks) ++ A.session.flight ∧
      B.session.targets = stack.flatMap (·.routine.targets) ++ A.session.targets ∧
      B.fault? limit ≠ some (.refused .outsideRecord) ∧
      ∀ (s : Space) (id : RecordId),
        (∀ p, fault (id.read p) s =
          (Activation.outermost s id (.get id p)).fault? (s.record id).maxDepth) ∧
        (∀ p v, fault (id.write p v) s =
          (Activation.outermost s id (.set id p v)).fault? (s.record id).maxDepth) ∧
        ∀ f, fault (id.evaluate f) s =
          (Activation.outermost s id (.compute f id)).fault? (s.record id).maxDepth := by
  have hrun := B.routine.run_restores limit B.room
  obtain ⟨hflight, htargets⟩ := h.context
  refine ⟨hrun.final_targets B.session, hrun.final_flight, fun name l => h.fault? fun _ => nofun,
    fun remnant => B.routine.run_indifferent remnant limit B.room B.session,
    B.routine.runLeaving_flight limit B.room, hflight, htargets,
    fun hg => B.routine.run_hosted limit B.room B.session _ hg rfl, fun s id => ?_⟩
  exact ⟨Activation.fault_read s id, Activation.fault_write s id, Activation.fault_evaluate s id⟩

/-- The field `a` is computed from `b`, which stands for `a`. -/
def roundabout : List Operation :=
  [.newRecord (some "one") 4,
    .newDerived { getter := .mk "first" Function.first [.here (.name "b")] },
    .record ⟨1⟩ (.add (.name "a") (.cell (.derived ⟨1⟩))),
    .record ⟨1⟩ (.add (.name "b") (.cell (.reference ⟨1⟩ (.name "a"))))]

/-- Reading `a` from outside. -/
def roundaboutRead : Activation :=
  .outermost (Space.after roundabout) ⟨1⟩ (.get ⟨1⟩ (.label (.name "a")))

/-- Six calls below the first one the cell of `a` is met again. All seven end in a cycle, and the
first one leaves both cells marked. -/
theorem context_balanced_roundabout :
    ∃ B stack, roundaboutRead.Stack 4 (B :: stack) ∧
      B.fault? 4 = some (.cycle "one" (.name "a")) ∧
      (∀ C ∈ stack, C.fault? 4 = some (.cycle "one" (.name "a"))) ∧
      fault (RecordId.read ⟨1⟩ (.label (.name "a"))) (Space.after roundabout) =
        some (.cycle "one" (.name "a")) ∧
      B.session.flight = [(⟨1⟩, ⟨2⟩), (⟨1⟩, ⟨1⟩)] ∧ B.session.targets = [⟨1⟩] ∧
      (roundaboutRead.left 4).flight = [(⟨1⟩, ⟨2⟩), (⟨1⟩, ⟨1⟩)] := by
  have ha : (Space.after roundabout).slot? ⟨1⟩ (.label (.name "a")) =
      some (⟨1⟩, ⟨.name "a", .cell (.derived ⟨1⟩)⟩) := by decide +kernel
  have hcell : roundaboutRead.Stack 4 _ := .call .first (.getCell ha)
  have hformula := hcell.call (.getter (by decide +kernel))
  have hb := hformula.call
    (.here (l := .name "b") (rfl : Operand.evalAll _ [] _ = .ok [] _) rfl)
  have hreference := hb.call (.getCell (k := ⟨2⟩) (l := .name "b")
    (c := .reference ⟨1⟩ (.name "a")) (by decide +kernel))
  have hagain := hreference.call (.getTarget (by decide +kernel) (by decide +kernel))
  have hstop := hagain.call (.getCell (k := ⟨1⟩) (l := .name "a") (c := .derived ⟨1⟩)
    (by decide +kernel))
  obtain ⟨-, -, hcycle, -, -, hmarks, hrecords, -, hasked⟩ := hstop.context_balanced
  have hall := hcycle "one" (.name "a") (by decide +kernel)
  refine ⟨_, _, hstop, by decide +kernel, hall, ?_, hmarks, hrecords, by decide +kernel⟩
  rw [(hasked _ _).1]
  exact hall roundaboutRead (by simp)

end LiveRecords
