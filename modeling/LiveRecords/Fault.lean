import LiveRecords.Label

/-! # Faults

What can go wrong, by cause. A `Failure` comes from the function of a formula; every other
fault comes from the store itself. `Fault.message` words them all.
-/

namespace LiveRecords

/-- Why a function of a formula gave no value. -/
inductive Reason where
  | overflow
  | operandTypes (symbol left right : String)
  | argumentCount (expected got : Nat)
  | other (text : String)
deriving DecidableEq, Inhabited

def Reason.text : Reason → String
  | overflow => "integer overflow"
  | operandTypes symbol left right =>
    s!"unsupported operand types for {symbol}: {left} and {right}"
  | argumentCount expected got => s!"expected {expected} arguments, got {got}"
  | other text => text

/-- A failure names the function it arose in, or leaves the name empty for the caller to fill. -/
structure Failure where
  function : String := ""
  reason : Reason
deriving DecidableEq, Inhabited

namespace Failure

def within (f : Failure) (name : String) : Failure :=
  if f.function.isEmpty then { f with function := name } else f

def text (f : Failure) : String :=
  if f.function.isEmpty then f.reason.text else s!"{f.function}: {f.reason.text}"

end Failure

/-- What was sought and not found. -/
inductive Sought where
  | label (l : Label)
  | key (k : Key)
  | record (name : String)
  | referenced (l : Label)
  | place (p : Place)
  | other (text : String)
deriving DecidableEq, Inhabited

def Sought.text : Sought → String
  | label l => s!"no {l.text} label"
  | key k => s!"no {k.text} key"
  | record name => s!"object {name}"
  | referenced l => s!"referenced object for {l.text}"
  | place p => p.text
  | other text => text

/-- Why a request was turned down. -/
inductive Refusal where
  | labelInUse (l : Label)
  | selfNesting
  | outsideRecord
  | unnamed
  | nameTaken (name : String)
  | other (text : String)
deriving DecidableEq, Inhabited

def Refusal.text : Refusal → String
  | labelInUse l => s!"label {l.text} is already in use"
  | selfNesting => "a container cannot contain itself"
  | outsideRecord => "local argument used outside an object"
  | unnamed => "only named objects can be added to a packet"
  | nameTaken name => s!"an object named {name} is already registered"
  | other text => text

inductive Fault where
  | notFound (sought : Sought)
  | cycle (record : String) (label : Label)
  | refused (why : Refusal)
  | failed (failure : Failure)
  | tooDeep (limit : Nat)
deriving DecidableEq, Inhabited

namespace Fault

def isNotFound : Fault → Bool
  | notFound _ => true
  | _ => false

def isCycle : Fault → Bool
  | cycle _ _ => true
  | _ => false

def message : Fault → String
  | notFound sought => s!"Not found: {sought.text}"
  | cycle record label => s!"Cycle detected: {record}.{label.plain}"
  | refused why => s!"Invalid argument: {why.text}"
  | failed failure => s!"Computation failed: {failure.text}"
  | tooDeep limit => s!"Evaluation nested deeper than {limit} cells"

end Fault

end LiveRecords
