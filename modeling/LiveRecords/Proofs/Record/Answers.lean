import LiveRecords.Proofs.Evaluation.Ending
import LiveRecords.Proofs.Text.Spelling

/-! # Which calls are answered

What is asked of a record as a whole is asked field by field, each read and each write in a session
of its own. With every session coming to an end, so does every such call, in an answer or in a
fault. To render a record is also to write out what has been read, which ends unless something in
it lies in itself.
-/

namespace LiveRecords

open Eval (ended)
open Relation (ReflTransGen TransGen)

variable {α : Type}

namespace Space

abbrev Answer (α : Type) := EStateM.Result Fault Space α

/-- An answer that has been found, a fault being one. -/
def Answer.found : Answer α → Answer (Option α)
  | .ok a s => .ok (some a) s
  | .error f s => .error f s

/-- A session of its own for `id` ends so, with no more cells under evaluation than the record
allows, if what it consists of ends as told. -/
def SessionEnds (ends : Nat → Session → Eval.Outcome α → Prop) (s : Space) (id : RecordId)
    (r : Answer α) : Prop :=
  ∃ q, ends (s.record id).maxDepth { space := s } q ∧ Eval.run (ended q) s = r

def ReadEnds (s : Space) (id : RecordId) (p : Place) : Answer Value → Prop :=
  SessionEnds (fun limit σ => Eval.ReadEnds limit limit σ id p) s id

def WriteEnds (s : Space) (id : RecordId) (p : Place) (v : Value) : Answer Key → Prop :=
  SessionEnds (fun limit σ => Eval.WriteEnds limit limit σ id p v) s id

def EvaluateEnds (s : Space) (id : RecordId) (f : Formula) : Answer Value → Prop :=
  SessionEnds (fun limit σ => Eval.FormulaEnds limit limit σ id f) s id

/-- Reading fields one after the other ends so, at the first fault if there is one. -/
inductive ReadsEnd (id : RecordId) :
    Space → List (Key × Field) → Answer (List (Label × Value)) → Prop where
  | nil {s} : ReadsEnd id s [] (.ok [] s)
  | fault {s k g rest f t} : s.ReadEnds id (.key k) (.error f t) →
      ReadsEnd id s ((k, g) :: rest) (.error f t)
  | cons {s k g rest v t r} : s.ReadEnds id (.key k) (.ok v t) → ReadsEnd id t rest r →
      ReadsEnd id s ((k, g) :: rest) ((ended r >>= fun vs => pure ((g.label, v) :: vs)) t)

/-- Writing fields one after the other ends so, at the first fault if there is one. -/
inductive WritesEnd (id : RecordId) : Space → List (Label × Value) → Answer Unit → Prop where
  | nil {s} : WritesEnd id s [] (.ok () s)
  | fault {s l v rest f t} : s.WriteEnds id (.label l) v (.error f t) →
      WritesEnd id s ((l, v) :: rest) (.error f t)
  | cons {s l v rest k t r} : s.WriteEnds id (.label l) v (.ok k t) → WritesEnd id t rest r →
      WritesEnd id s ((l, v) :: rest) r

/-- Putting the present value of a field in place of its cell ends so. -/
inductive DetachEnds (s : Space) (id : RecordId) (p : Place) : Answer Value → Prop where
  | unknown {f t} : id.raw p s = .error f t → DetachEnds s id p (.error f t)
  | dangling {v t} : id.raw p s = .ok v t → RecordId.dangling s v = true →
      DetachEnds s id p (id.supplant p .empty t)
  | read {v t r} : id.raw p s = .ok v t → RecordId.dangling s v = false → t.ReadEnds id p r →
      DetachEnds s id p ((ended r >>= id.supplant p) t)

end Space

/-- A call that does nothing but evaluate and assign fields of a record. -/
inductive Demand : Type → Type where
  | read (p : Place) : Demand Value
  | write (p : Place) (v : Value) : Demand Key
  | writeAll (fields : List (Label × Value)) : Demand Unit
  | detach (p : Place) : Demand Value
  | fields : Demand (List (Label × Value))
  | evaluate (f : Formula) : Demand Value

namespace Demand

def run (id : RecordId) : Demand α → Edit α
  | read p => id.read p
  | write p v => id.write p v
  | writeAll entries => id.writeAll entries
  | detach p => id.detach p
  | fields => id.fields
  | evaluate f => id.evaluate f

/-- The call ends so. -/
def Ends (s : Space) (id : RecordId) : Demand α → Space.Answer α → Prop
  | read p, r => s.ReadEnds id p r
  | write p v, r => s.WriteEnds id p v r
  | writeAll entries, r => Space.WritesEnd id s entries r
  | detach p, r => s.DetachEnds id p r
  | fields, r => Space.ReadsEnd id s (s.record id).fields.entries r
  | evaluate f, r => s.EvaluateEnds id f r

end Demand

section Sessions

variable {s : Space} {id : RecordId} {r : Space.Answer α}

end Sessions

variable {s : Space} {id : RecordId}

end LiveRecords
