import LiveRecords.Number.Double

/-! # Shortest decimals

A finite double stands for every real that rounds to it. Among the decimals in that interval
one with the fewest digits is chosen, and of those with equally few the nearest. The search
walks the decimal grids from coarse to fine in exact arithmetic: if any point of a grid lies
in the interval, so does one of the two grid points next to the double itself.
-/

namespace LiveRecords

/-- The number `digits * 10 ^ exponent`. -/
structure Decimal where
  digits : Nat
  exponent : Int
deriving DecidableEq, Repr, Inhabited

/-- The reals that round to a double, as fractions of one common denominator. The ends belong
to the interval if `closed` holds. -/
structure Rounding where
  low : Nat
  value : Nat
  high : Nat
  unit : Nat
  closed : Bool
deriving Repr, Inhabited

namespace Rounding

/-- The interval of a finite positive double. Below a power of two the neighbour is only half
as far away. -/
def ofDouble (x : Double) : Rounding :=
  let field := x.magnitude / Nat.pow 2 52
  let fraction := x.magnitude % Nat.pow 2 52
  let m := if field = 0 then fraction else Nat.pow 2 52 + fraction
  let shift := (if field = 0 then 1 else field) + 1
  let up := Nat.pow 2 shift
  let below := if fraction = 0 && field > 1 then 1 else 2
  { low := (4 * m - below) * up, value := 4 * m * up, high := (4 * m + 2) * up,
    unit := Nat.pow 2 1078, closed := m % 2 = 0 }

def countDigits (n : Nat) : Nat := (Nat.toDigits 10 n).length

/-- The `k` with `10 ^ (k - 1) ≤ value < 10 ^ k`. -/
def scale (r : Rounding) : Int :=
  if r.unit ≤ r.value then countDigits (r.value / r.unit)
  else
    let n : Nat := countDigits (r.unit / r.value)
    if r.unit ≤ r.value * Nat.pow 10 (n - 1) then 2 - (n : Int) else 1 - (n : Int)

/-- Whether `d * 10 ^ e` rounds to the double. -/
def admits (r : Rounding) (d : Nat) (e : Int) : Bool :=
  let point := d * Nat.pow 10 e.toNat * r.unit
  let low := r.low * Nat.pow 10 (-e).toNat
  let high := r.high * Nat.pow 10 (-e).toNat
  if r.closed then low ≤ point && point ≤ high else low < point && point < high

/-- The nearer of the two neighbours on the grid of multiples of `10 ^ e` that rounds to the
double. Of two equally near the upper is taken. -/
def onGrid (r : Rounding) (e : Int) : Option Decimal :=
  let step := Nat.pow 10 e.toNat * r.unit
  let value := r.value * Nat.pow 10 (-e).toNat
  let d := value / step
  let downFits := r.admits d e
  let upFits := r.admits (d + 1) e
  if upFits && (!downFits || step ≤ 2 * (value % step)) then some ⟨d + 1, e⟩
  else if downFits then some ⟨d, e⟩
  else none

/-- Try `left` further grids, from the one with `n` digits on. -/
def search (r : Rounding) (k : Int) : Nat → Nat → Decimal
  | 0, n => ⟨r.value * Nat.pow 10 (n - k).toNat / (Nat.pow 10 (k - n).toNat * r.unit), k - n⟩
  | left + 1, n => (r.onGrid (k - n)).getD (search r k left (n + 1))

/-- Seventeen digits tell every two doubles apart. -/
def shortest (r : Rounding) : Decimal := r.search r.scale 17 1

end Rounding

/-- The shortest decimal that reads back as a finite nonzero double, by its magnitude. -/
def Double.shortest (x : Double) : Decimal := (Rounding.ofDouble x).shortest

end LiveRecords
