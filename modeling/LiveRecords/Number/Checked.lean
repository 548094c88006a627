/-! # Checked integers

Sixty-four bit arithmetic that answers `none` where the exact result does not fit.
-/

namespace LiveRecords.Checked

def fits (z : Int) : Bool := Int64.minValue.toInt ≤ z && z ≤ Int64.maxValue.toInt

def ofInt? (z : Int) : Option Int64 := if fits z then some (.ofInt z) else none

def add? (a b : Int64) : Option Int64 := ofInt? (a.toInt + b.toInt)

def sub? (a b : Int64) : Option Int64 := ofInt? (a.toInt - b.toInt)

def mul? (a b : Int64) : Option Int64 := ofInt? (a.toInt * b.toInt)

theorem toInt_of_ofInt? {z : Int} {n : Int64} (h : ofInt? z = some n) : n.toInt = z := by
  unfold ofInt? at h
  split at h
  · next hz =>
    simp only [fits, Bool.and_eq_true, decide_eq_true_eq] at hz
    obtain ⟨hlo, hhi⟩ := hz
    injection h with h
    subst h
    apply Int64.toInt_ofInt_of_le
    · simpa using hlo
    · have : Int64.maxValue.toInt = 2 ^ 63 - 1 := by decide
      omega
  · contradiction

end LiveRecords.Checked
