/-! # Doubles

A double is held by its sixty-four bits, so that equality, order and the sign of a zero or of
a NaN are facts about the bits. Arithmetic goes through the machine's doubles.
-/

namespace LiveRecords

structure Double where
  bits : UInt64
deriving DecidableEq, Inhabited

namespace Double

def negative (x : Double) : Bool := x.bits >>> 63 == 1

/-- All bits but the sign. -/
def magnitude (x : Double) : Nat := (x.bits &&& 0x7fffffffffffffff).toNat

def isNaN (x : Double) : Bool := x.magnitude > 0x7ff0000000000000

def isInfinite (x : Double) : Bool := x.magnitude == 0x7ff0000000000000

/-- The position of a double in the total order of bit patterns: negative NaNs, the numbers
with `-0.0` before `0.0`, positive NaNs. -/
def rank (x : Double) : Int :=
  if x.negative then -(x.magnitude : Int) - 1 else x.magnitude

instance : Ord Double := ⟨fun x y => compare x.rank y.rank⟩

/-- The bits in sixteen hexadecimal digits. -/
def hex (x : Double) : String :=
  let ds := Nat.toDigits 16 x.bits.toNat
  String.ofList (List.replicate (16 - ds.length) '0' ++ ds)

def hexDigit (c : Char) : Nat :=
  if c.isDigit then c.toNat - '0'.toNat else c.toLower.toNat - 'a'.toNat + 10

def ofHex (s : String) : Double := ⟨.ofNat (s.toList.foldl (fun n c => 16 * n + hexDigit c) 0)⟩

/-- A NaN without a sign. -/
def nan : Double := ⟨0x7ff8000000000000⟩

/-- The NaN that arithmetic makes out of numbers. -/
def invalid : Double := ⟨0xfff8000000000000⟩

def quiet (x : Double) : Double := ⟨x.bits ||| 0x0008000000000000⟩

/-- Apply an operation on machine doubles. A NaN operand is passed on, the left one first. -/
def lift (op : Float → Float → Float) (x y : Double) : Double :=
  if x.isNaN then x.quiet
  else if y.isNaN then y.quiet
  else
    let r := op (Float.ofBits x.bits) (Float.ofBits y.bits)
    if r.isNaN then invalid else ⟨r.toBits⟩

instance : Add Double := ⟨lift (· + ·)⟩
instance : Sub Double := ⟨lift (· - ·)⟩
instance : Mul Double := ⟨lift (· * ·)⟩

/-- The double nearest to an integer. -/
def ofInt64 (n : Int64) : Double := ⟨n.toFloat.toBits⟩

end Double

end LiveRecords
