import LiveRecords.Number.Shortest

/-! # Doubles in writing

A double is written with its shortest digits, in positions where its leading digit stands
within a given range of powers of ten, else with an exponent. A value written in positions
always keeps a digit after the point.
-/

namespace LiveRecords

/-- How a decimal is laid out: which powers of ten its leading digit may stand for to be
written in positions, and the mark of an exponent. -/
structure NumberStyle where
  lowest : Int
  highest : Int
  exponentMark : String

/-- Positions from `0.0001` up to below ten to the sixteenth. -/
def NumberStyle.plain : NumberStyle := ⟨-4, 15, "e"⟩

namespace Decimal

/-- The digits without trailing zeros. -/
def significant (d : Decimal) : List Char :=
  ((Nat.toDigits 10 d.digits).reverse.dropWhile (· == '0')).reverse

/-- The power of ten that the leading digit stands for. -/
def leading (d : Decimal) : Int := d.exponent + (Nat.toDigits 10 d.digits).length - 1

def zeros (n : Nat) : List Char := List.replicate n '0'

def positional (ds : List Char) (lead : Int) : String :=
  if lead < 0 then
    String.ofList (['0', '.'] ++ zeros (-lead - 1).toNat ++ ds)
  else
    let n := lead.toNat + 1
    let whole := ds.take n ++ zeros (n - ds.length)
    let part := ds.drop n
    String.ofList (whole ++ ['.'] ++ if part.isEmpty then ['0'] else part)

def exponential (mark : String) (ds : List Char) (lead : Int) : String :=
  let part := ds.drop 1
  String.ofList (ds.take 1 ++ if part.isEmpty then [] else '.' :: part) ++ mark ++ toString lead

def written (style : NumberStyle) (d : Decimal) : String :=
  let ds := d.significant
  if style.lowest ≤ d.leading && d.leading ≤ style.highest then positional ds d.leading
  else exponential style.exponentMark ds d.leading

end Decimal

def Double.text (x : Double) : String :=
  if x.isNaN then "NaN"
  else
    let sign := if x.negative then "-" else ""
    if x.isInfinite then sign ++ "inf"
    else if x.magnitude = 0 then sign ++ "0.0"
    else sign ++ x.shortest.written .plain

end LiveRecords
