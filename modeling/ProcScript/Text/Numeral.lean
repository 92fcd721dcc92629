/-!
# ProcScript — Text — Numeral

Decimal numerals for 32-bit signed integers: an optional sign, then ASCII digits, at least one,
whose value lies between -2³¹ and 2³¹ - 1.  Leading zeros are allowed.
-/

namespace ProcScript.Text

/-- The value of a digit. -/
def digitValue (c : Char) : Nat := c.toNat - '0'.toNat

/-- The number that digits write, most significant first. -/
def digitsValue (cs : List Char) : Nat :=
  cs.foldl (fun n c => 10 * n + digitValue c) 0

/-- The number that unsigned digits write; there must be one at least. -/
def natural? (cs : List Char) : Option Nat :=
  if cs ≠ [] ∧ cs.all Char.isDigit then some (digitsValue cs) else none

/-- The integer that a numeral writes, its sign read. -/
def integer? : List Char → Option Int
  | '-' :: cs => (natural? cs).map fun n => -(n : Int)
  | '+' :: cs => (natural? cs).map fun n => (n : Int)
  | cs        => (natural? cs).map fun n => (n : Int)

/-- The 32-bit integer that `s` writes, if it is a numeral and in range. -/
def int32? (s : String) : Option Int32 :=
  match integer? s.toList with
  | some i =>
      if Int32.minValue.toInt ≤ i ∧ i ≤ Int32.maxValue.toInt then some (Int32.ofInt i) else none
  | none   => none

end ProcScript.Text
