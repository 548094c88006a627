import LiveRecords.Proofs.Evaluation.Guard

/-! # Calls under way

The routines that hand a session on to one another, and which calls of them make which other ones.
Whatever a call comes to, the targets of formulas are those of before, and so are the marks of
cells, unless it ends in a cycle. Hence the marks and the targets at a call are those of the calls
under way, and operands always have a target. Unlike `Calls`, the calls of cells are told apart from
those of the fields that hold them.
-/

namespace LiveRecords

variable {α β : Type}

namespace Cell

/-- Evaluate the cell in the field of `id` at `k`, labelled `l`, which is one of those that there
is room for. -/
def getWithin (limit : Nat) : Nat → RecordId → Key → Label → Cell → Eval Value
  | 0, _, _, _, _ => throw (.tooDeep limit)
  | room + 1, id, k, l, c => Eval.guarded id k l (c.eval (readWithin limit room) id)

/-- Assign through the cell in the field of `id` at `k`, labelled `l`, which is one of those that
there is room for. -/
def setWithin (limit : Nat) : Nat → RecordId → Key → Label → Cell → Value → Eval Unit
  | 0, _, _, _, _, _ => throw (.tooDeep limit)
  | room + 1, id, k, l, c, v =>
    Eval.guarded id k l (c.assign (readWithin limit room) (writeWithin limit room) id k v)

end Cell

theorem readWithin_eq (limit room : Nat) :
    readWithin limit room =
      readBy fun id k l c => Eval.settling id (c.getWithin limit room id k l) := by
  cases room <;> rfl

theorem writeWithin_eq (limit room : Nat) :
    writeWithin limit room =
      writeBy (fun id k l c v => c.setWithin limit room id k l v) (readWithin limit room) := by
  cases room <;> rfl

/-- What takes part in a session: reads and writes of fields, formulas, and cells that are read or
assigned. -/
inductive Routine where
  | get (id : RecordId) (p : Place)
  | set (id : RecordId) (p : Place) (v : Value)
  | compute (f : Formula) (id : RecordId)
  | getCell (id : RecordId) (k : Key) (l : Label) (c : Cell)
  | setCell (id : RecordId) (k : Key) (l : Label) (c : Cell) (v : Value)

namespace Routine

def Answer : Routine → Type
  | get .. => Value
  | set .. => Key
  | compute .. => Value
  | getCell .. => Value
  | setCell .. => Unit

/-- Carry out a routine with room for so many more nested cells. -/
def run (limit room : Nat) : (r : Routine) → Eval r.Answer
  | get id p => readWithin limit room id p
  | set id p v => writeWithin limit room id p v
  | compute f id => f.eval (readWithin limit room) id
  | getCell id k l c => c.getWithin limit room id k l
  | setCell id k l c v => c.setWithin limit room id k l v

/-- The cell that the routine has under evaluation itself. -/
def marks : Routine → List (RecordId × Key)
  | getCell id k _ _ => [(id, k)]
  | setCell id k _ _ _ => [(id, k)]
  | _ => []

/-- The record that the routine evaluates operands for. -/
def targets : Routine → List RecordId
  | compute _ id => [id]
  | _ => []

end Routine

/-- A call of a routine, with the session it is made in and the room that it has. -/
structure Activation where
  room : Nat
  session : Session
  routine : Routine

namespace Activation

/-- The fault that the call ends in, if it ends in one. -/
def fault? (limit : Nat) (A : Activation) : Option Fault :=
  fault (A.routine.run limit A.room) A.session

/-- The session as the call leaves it, with a fault or without. -/
def left (limit : Nat) (A : Activation) : Session := final (A.routine.run limit A.room) A.session

/-- The first call of a session, made from outside to a record. -/
def outermost (s : Space) (id : RecordId) (r : Routine) : Activation :=
  ⟨(s.record id).maxDepth, { space := s }, r⟩

section Outside

variable (s : Space) (id : RecordId)

theorem fault_read (p : Place) :
    fault (id.read p) s = (outermost s id (.get id p)).fault? (s.record id).maxDepth :=
  fault_run (readWithin _ _ id p) s

theorem fault_write (p : Place) (v : Value) :
    fault (id.write p v) s = (outermost s id (.set id p v)).fault? (s.record id).maxDepth :=
  fault_run (writeWithin _ _ id p v) s

theorem fault_evaluate (f : Formula) :
    fault (id.evaluate f) s = (outermost s id (.compute f id)).fault? (s.record id).maxDepth :=
  fault_run (f.eval (readWithin _ _) id) s

end Outside

/-- The first call makes the second one itself. -/
inductive Invokes (limit : Nat) : Activation → Activation → Prop where
  | getCell {room σ id p k l c} : σ.space.slot? id p = some (k, ⟨l, .cell c⟩) →
      Invokes limit ⟨room, σ, .get id p⟩ ⟨room, Eval.deepen id σ, .getCell id k l c⟩
  | getter {room σ id k l i} : (id, k) ∉ σ.flight →
      Invokes limit ⟨room + 1, σ, .getCell id k l (.derived i)⟩
        ⟨room, { σ with flight := (id, k) :: σ.flight }, .compute (σ.space.derivation i).getter id⟩
  | getTarget {room σ id k l target m} : (id, k) ∉ σ.flight → σ.space.alive target = true →
      Invokes limit ⟨room + 1, σ, .getCell id k l (.reference target m)⟩
        ⟨room, { σ with flight := (id, k) :: σ.flight }, .get target (.label m)⟩
  | here {room σ id name apply done l rest vs τ j others} :
      Operand.evalAll (readWithin limit room) done { σ with targets := id :: σ.targets } =
        .ok vs τ → τ.targets = j :: others →
      Invokes limit ⟨room, σ, .compute (.mk name apply (done ++ .here l :: rest)) id⟩
        ⟨room, τ, .get j (.label l)⟩
  | nested {room σ id name apply done f rest vs τ j others} :
      Operand.evalAll (readWithin limit room) done { σ with targets := id :: σ.targets } =
        .ok vs τ → τ.targets = j :: others →
      Invokes limit ⟨room, σ, .compute (.mk name apply (done ++ .nested f :: rest)) id⟩
        ⟨room, τ, .compute f j⟩
  | field {room σ id name apply done rest vs τ} {n : FieldName} :
      Operand.evalAll (readWithin limit room) done { σ with targets := id :: σ.targets } =
        .ok vs τ → τ.space.alive n.record.target = true →
      Invokes limit ⟨room, σ, .compute (.mk name apply (done ++ .field n :: rest)) id⟩
        ⟨room, τ, .get n.record.target (.label n.label)⟩
  | setCell {room σ id p k l c v} : σ.space.slot? id p = some (k, ⟨l, .cell c⟩) →
      v.isCell = false →
      Invokes limit ⟨room, σ, .set id p v⟩ ⟨room, σ, .setCell id k l c v⟩
  | effective {room σ id p k l c v τ} : σ.space.slot? id p = some (k, ⟨l, .cell c⟩) →
      v.isCell = false → c.setWithin limit room id k l v σ = .ok () τ →
      Invokes limit ⟨room, σ, .set id p v⟩ ⟨room, τ, .get id (.key k)⟩
  | setTarget {room σ id k l target m v} : (id, k) ∉ σ.flight → σ.space.alive target = true →
      Invokes limit ⟨room + 1, σ, .setCell id k l (.reference target m) v⟩
        ⟨room, { σ with flight := (id, k) :: σ.flight }, .set target (.label m) v⟩
  | reaction {room σ id k l i v done output f rest ρ} : (id, k) ∉ σ.flight →
      (σ.space.derivation i).reactions = done ++ (output, f) :: rest →
      (Eval.store id k v >>= fun _ =>
        { σ.space.derivation i with reactions := done }.react
          (readWithin limit room) (writeWithin limit room) id)
        { σ with flight := (id, k) :: σ.flight } = .ok () ρ →
      Invokes limit ⟨room + 1, σ, .setCell id k l (.derived i) v⟩ ⟨room, ρ, .compute f id⟩
  | output {room σ id k l i v done output f rest ρ w π} : (id, k) ∉ σ.flight →
      (σ.space.derivation i).reactions = done ++ (output, f) :: rest →
      (Eval.store id k v >>= fun _ =>
        { σ.space.derivation i with reactions := done }.react
          (readWithin limit room) (writeWithin limit room) id)
        { σ with flight := (id, k) :: σ.flight } = .ok () ρ →
      f.eval (readWithin limit room) id ρ = .ok w π →
      Invokes limit ⟨room + 1, σ, .setCell id k l (.derived i) v⟩
        ⟨room, π, .set id (.label output) w⟩

/-- The calls under way from `A` on, the innermost of them first. -/
inductive Stack (limit : Nat) (A : Activation) : List Activation → Prop where
  | first : Stack limit A [A]
  | call {B C stack} : Stack limit A (B :: stack) → Invokes limit B C →
      Stack limit A (C :: B :: stack)

end Activation

section Faults

variable {limit : Nat} {A B : Activation} {f : Fault}

theorem Activation.Invokes.fault? (h : A.Invokes limit B) (hf : ∀ w, f ≠ .failed w)
    (hB : B.fault? limit = some f) : A.fault? limit = some f := by
  cases h with
  | @getCell room σ id p k l c hs =>
    change fault (readWithin limit room id p) σ = some f
    rw [fault, readWithin_eq, readBy_cell hs]
    exact (fault_settling_iff hf).mpr hB
  | getter hk => exact (fault_guarded_of_not_mem _ hk).trans hB
  | @getTarget room σ id k l target m hk ha =>
    refine (fault_guarded_of_not_mem _ hk).trans ?_
    exact (fault_follow_bind (σ := { σ with flight := (id, k) :: σ.flight }) ha).trans hB
  | here hdone ht => exact fault_formula_of_operand hdone ((fault_here ht).trans hB)
  | nested hdone ht => exact fault_formula_of_operand hdone ((fault_nested ht).trans hB)
  | field hdone ha => exact fault_formula_of_operand hdone ((fault_field ha).trans hB)
  | @setCell room σ id p k l c v hs hv =>
    change fault (writeWithin limit room id p v) σ = some f
    rw [fault, writeWithin_eq, writeBy_through hs hv]
    exact fault_bind_of_fault hB
  | @effective room σ id p k l c v τ hs hv hset =>
    change fault (writeWithin limit room id p v) σ = some f
    rw [fault, writeWithin_eq, writeBy_through hs hv, ← fault, fault_bind_of_ok hset,
      fault_noteEffective]
    exact hB
  | @setTarget room σ id k l target m v hk ha =>
    refine (fault_guarded_of_not_mem _ hk).trans ?_
    refine (fault_follow_bind (σ := { σ with flight := (id, k) :: σ.flight }) ha).trans ?_
    exact (fault_discard ..).trans hB
  | reaction hk hd hdone =>
    refine (fault_guarded_of_not_mem _ hk).trans ?_
    exact fault_assign_of_react hd hdone (fault_bind_of_fault hB)
  | output hk hd hdone hw =>
    refine (fault_guarded_of_not_mem _ hk).trans (fault_assign_of_react hd hdone ?_)
    rw [Derived.reactOnce, fault_bind_of_ok hw, fault_discard]
    exact hB

/-- The fault of the innermost call is the fault of all that are under way, failures apart. -/
theorem Activation.Stack.fault? {stack : List Activation} (h : A.Stack limit (B :: stack))
    (hf : ∀ w, f ≠ .failed w) (hB : B.fault? limit = some f) :
    ∀ C ∈ stack, C.fault? limit = some f := by
  induction stack generalizing B with
  | nil => exact nofun
  | cons C stack ih =>
    cases h with
    | call hstack hcall =>
      have hC := hcall.fault? hf hB
      exact List.forall_mem_cons.mpr ⟨hC, ih hstack hC⟩

end Faults

section Contexts

variable {limit : Nat} {A B : Activation}

theorem Routine.run_restores (limit room : Nat) (r : Routine) : Restores (r.run limit room) := by
  have hread := readWithin_restores limit
  have hwrite := writeWithin_restores limit
  cases r with
  | get id p => exact hread room id p
  | set id p v => exact hwrite room id p v
  | compute f id => exact f.eval_restores (hread room) id
  | getCell id k l c =>
    cases room with
    | zero => exact restores_throw _
    | succ room => exact (c.eval_restores (hread room) id).guarded id k l
  | setCell id k l c v =>
    cases room with
    | zero => exact restores_throw _
    | succ room => exact (c.assign_restores (hread room) (hwrite room) id k v).guarded id k l

theorem Activation.Invokes.context (h : A.Invokes limit B) :
    B.session.flight = A.routine.marks ++ A.session.flight ∧
      B.session.targets = A.routine.targets ++ A.session.targets := by
  have hread := readWithin_restores limit
  cases h with
  | getCell => exact ⟨rfl, rfl⟩
  | getter => exact ⟨rfl, rfl⟩
  | getTarget => exact ⟨rfl, rfl⟩
  | here hdone => exact (Operand.evalAll_restores (hread _) _).of_ok hdone
  | nested hdone => exact (Operand.evalAll_restores (hread _) _).of_ok hdone
  | field hdone => exact (Operand.evalAll_restores (hread _) _).of_ok hdone
  | setCell => exact ⟨rfl, rfl⟩
  | @effective room σ id p k l c v τ hs hv hset =>
    exact (Routine.run_restores limit room (.setCell id k l c v)).of_ok hset
  | setTarget => exact ⟨rfl, rfl⟩
  | reaction hk hd hdone => exact (restores_reactions limit _ _ _ _ _).of_ok hdone
  | output hk hd hdone hw =>
    obtain ⟨hflight, htargets⟩ := (restores_reactions limit _ _ _ _ _).of_ok hdone
    obtain ⟨hflight', htargets'⟩ := (Formula.eval_restores (hread _) _ _).of_ok hw
    exact ⟨hflight'.trans hflight, htargets'.trans htargets⟩

/-- At each call the session has the marks and the targets of the calls under way, on top of those
it had at first. -/
theorem Activation.Stack.context {stack : List Activation} (h : A.Stack limit (B :: stack)) :
    B.session.flight = stack.flatMap (·.routine.marks) ++ A.session.flight ∧
      B.session.targets = stack.flatMap (·.routine.targets) ++ A.session.targets := by
  induction stack generalizing B with
  | nil =>
    cases h
    exact ⟨rfl, rfl⟩
  | cons C stack ih =>
    cases h with
    | call hstack hcall =>
      obtain ⟨hflight, htargets⟩ := ih hstack
      obtain ⟨hmarks, haims⟩ := hcall.context
      simp only [List.flatMap_cons, List.append_assoc]
      exact ⟨by rw [hmarks, hflight], by rw [haims, htargets]⟩

end Contexts

section Hosts

/-- Formulas of the program are evaluated for some record. -/
abbrev Hosted (m : Eval α) : Prop := Faulting (fun f => f ≠ .refused .outsideRecord) m

theorem hosted_of_edit {m : Eval α} (h : Faulting (fun f => f.ofEdit = true) m) : Hosted m :=
  h.mono fun _ hf he => by
    subst he
    cases hf

variable {read : Reader} {write : Writer}

mutual

theorem Formula.eval_hosted (hr : ∀ id p, Restores (read id p)) (hh : ∀ id p, Hosted (read id p))
    (f : Formula) (id : RecordId) : Hosted (f.eval read id) := by
  cases f with
  | mk name apply operands =>
    intro σ e he
    rw [Formula.eval, fault_onTarget, fault_bind] at he
    have hall := Operand.evalAll_hosted hr hh operands (σ := { σ with targets := id :: σ.targets })
      rfl
    cases hvs : Operand.evalAll read operands { σ with targets := id :: σ.targets } with
    | error w τ =>
      rw [hvs] at he
      cases he
      rw [fault_of_error hvs] at hall
      exact fun h => hall (congrArg some h)
    | ok vs τ =>
      rw [hvs] at he
      dsimp only at he
      rw [fault_bind_of_ok (Eval.space_run τ)] at he
      cases hv : apply τ.space.plainText vs <;> rw [hv] at he <;> cases he
      exact nofun

theorem Operand.eval_hosted (hr : ∀ id p, Restores (read id p)) (hh : ∀ id p, Hosted (read id p))
    (a : Operand) {σ : Session} {id : RecordId} {others : List RecordId}
    (ht : σ.targets = id :: others) : fault (a.eval read) σ ≠ some (.refused .outsideRecord) := by
  cases a with
  | constant v => exact nofun
  | here l =>
    rw [fault_here ht]
    exact fun h => hh id _ σ _ h rfl
  | nested f =>
    rw [fault_nested ht]
    exact fun h => Formula.eval_hosted hr hh f id σ _ h rfl
  | field n =>
    have hname : Hosted (Eval.edit (Edit.resolve n.record)) :=
      hosted_of_edit (faulting_resolve n.record).edit
    exact fun h => hname.bind (fun j => hh j (.label n.label)) σ _ h rfl

theorem Operand.evalAll_hosted (hr : ∀ id p, Restores (read id p))
    (hh : ∀ id p, Hosted (read id p)) (as : List Operand) {σ : Session} {id : RecordId}
    {others : List RecordId} (ht : σ.targets = id :: others) :
    fault (Operand.evalAll read as) σ ≠ some (.refused .outsideRecord) := by
  cases as with
  | nil => exact nofun
  | cons a as =>
    rw [Operand.evalAll, fault_bind]
    have ha := Operand.eval_hosted hr hh a ht
    cases hv : a.eval read σ with
    | error w τ => rwa [fault_of_error hv] at ha
    | ok v τ =>
      have hτ := ((Operand.eval_restores hr a).of_ok hv).2.trans ht
      have has := Operand.evalAll_hosted hr hh as hτ
      dsimp only
      rw [fault_bind]
      cases hvs : Operand.evalAll read as τ with
      | error w υ => rwa [fault_of_error hvs] at has
      | ok vs υ => exact nofun

end

theorem Cell.eval_hosted (hr : ∀ id p, Restores (read id p)) (hh : ∀ id p, Hosted (read id p))
    (owner : RecordId) (c : Cell) : Hosted (c.eval read owner) := by
  cases c with
  | derived i =>
    exact faulting_space.bind fun s => (s.derivation i).getter.eval_hosted hr hh owner
  | reference target l =>
    exact (hosted_of_edit (faulting_follow target l).edit).bind fun id => hh id _

theorem readBy_hosted {evaluate : RecordId → Key → Label → Cell → Eval Value}
    (he : ∀ id k l c, Hosted (evaluate id k l c)) (id : RecordId) (p : Place) :
    Hosted (readBy evaluate id p) := by
  refine faulting_space.bind fun s => ?_
  split
  · refine faulting_ofExcept fun w hw => ?_
    obtain ⟨sought, rfl⟩ := Space.notFound_of_value hw
    exact nofun
  · exact he id _ _ _
  · exact faulting_pure _

variable {limit room : Nat}

theorem Cell.getWithin_hosted (hh : ∀ id p, Hosted (readWithin limit room id p)) (id : RecordId)
    (k : Key) (l : Label) (c : Cell) : Hosted (c.getWithin limit (room + 1) id k l) :=
  (c.eval_hosted (readWithin_restores limit room) hh id).guarded (fun _ _ => nofun) id k l

variable (limit room) in
theorem readWithin_hosted (id : RecordId) (p : Place) : Hosted (readWithin limit room id p) := by
  induction room generalizing id p with
  | zero =>
    refine readBy_hosted (fun id _ _ _ => ?_) id p
    exact (faulting_throw nofun).settling (fun _ => nofun) id
  | succ room ih =>
    refine readBy_hosted (fun id k l c => ?_) id p
    exact (c.getWithin_hosted ih id k l).settling (fun _ => nofun) id

theorem Cell.assign_hosted (hr : ∀ id p, Restores (read id p)) (hh : ∀ id p, Hosted (read id p))
    (hw : ∀ id p v, Hosted (write id p v)) (owner : RecordId) (k : Key) (v : Value) (c : Cell) :
    Hosted (c.assign read write owner k v) := by
  cases c with
  | derived i =>
    refine faulting_space.bind fun s => ?_
    refine (hosted_of_edit (faulting_store owner k v)).bind fun _ => ?_
    refine Faulting.followedBy (faulting_forM _ fun r _ => ?_)
      (hosted_of_edit (faulting_store owner k _))
    exact (r.2.eval_hosted hr hh owner).bind fun w => (hw owner _ w).discard
  | reference target l =>
    exact (hosted_of_edit (faulting_follow target l).edit).bind fun id => (hw id _ v).discard

theorem writeBy_hosted {assign : RecordId → Key → Label → Cell → Value → Eval Unit}
    (ha : ∀ id k l c v, Hosted (assign id k l c v)) (hh : ∀ id p, Hosted (read id p))
    (id : RecordId) (p : Place) (v : Value) : Hosted (writeBy assign read id p v) := by
  intro σ f hf
  rcases through_or_plain σ.space id p v with ⟨k, l, c, hs, hv⟩ | hv
  · rw [fault, writeBy_through hs hv] at hf
    have heffective : Hosted (Eval.noteEffective read id k l) := by
      intro τ e he
      rw [fault_noteEffective] at he
      exact hh id _ τ e he
    exact (ha id k l c v).bind (fun _ => heffective) σ f hf
  · rw [fault, writeBy_plain hv] at hf
    exact hosted_of_edit (faulting_writePlain id p v) σ f hf

theorem Cell.setWithin_hosted (hw : ∀ id p v, Hosted (writeWithin limit room id p v))
    (id : RecordId) (k : Key) (l : Label) (c : Cell) (v : Value) :
    Hosted (c.setWithin limit (room + 1) id k l v) := by
  have hcell := c.assign_hosted (readWithin_restores limit room) (readWithin_hosted limit room) hw
  exact (hcell id k v).guarded (fun _ _ => nofun) id k l

variable (limit room)

theorem writeWithin_hosted (id : RecordId) (p : Place) (v : Value) :
    Hosted (writeWithin limit room id p v) := by
  induction room generalizing id p v with
  | zero =>
    have hdeep : Hosted (throw (.tooDeep limit) : Eval Unit) := faulting_throw nofun
    exact writeBy_hosted (fun _ _ _ _ _ => hdeep) (readWithin_hosted limit 0) id p v
  | succ room ih =>
    have hcell := Cell.setWithin_hosted ih
    exact writeBy_hosted hcell (readWithin_hosted limit (room + 1)) id p v

/-- A routine never finds itself without a target. -/
theorem Routine.run_hosted (r : Routine) : Hosted (r.run limit room) := by
  have hread := readWithin_hosted limit
  have hwrite := writeWithin_hosted limit
  cases r with
  | get id p => exact hread room id p
  | set id p v => exact hwrite room id p v
  | compute f id => exact f.eval_hosted (readWithin_restores limit room) (hread room) id
  | getCell id k l c =>
    cases room with
    | zero => exact faulting_throw nofun
    | succ room => exact c.getWithin_hosted (hread room) id k l
  | setCell id k l c v =>
    cases room with
    | zero => exact faulting_throw nofun
    | succ room => exact c.setWithin_hosted (hwrite room) id k l v

end Hosts

end LiveRecords
