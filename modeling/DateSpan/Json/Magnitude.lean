/-!
# The size of decimal numbers

A JSON number is read as a binary floating-point number of 53 significant bits. One
that is too large for that format is no number. `overflows` decides this for
`significand * 10 ^ exponent`, where the significand has at most 64 bits.
-/

namespace DateSpan.Json

/-- The nearest number with 53 significant bits; of two equally near ones, the even
one. -/
def roundToBinary (n : Nat) : Nat :=
  let step := Nat.pow 2 (n.log2 - 52)
  let below := n / step
  let rest := n % step
  if step < 2 * rest ∨ (step = 2 * rest ∧ below % 2 = 1) then (below + 1) * step
  else below * step

/-- The least number that is rounded up past the largest finite one. -/
def overflowThreshold : Nat := Nat.pow 2 1024 - Nat.pow 2 970

/-- `significand * 10 ^ exponent` is past the largest finite number, when the
significand and the power are each rounded before they are multiplied. -/
def overflows (significand : Nat) (exponent : Int) : Bool :=
  if exponent < 0 then false
  else if 308 < exponent then significand ≠ 0
  else overflowThreshold ≤ roundToBinary significand * roundToBinary (Nat.pow 10 exponent.toNat)

def maxSignificand : Nat := 0xFFFFFFFFFFFFFFFF

/-- Appends digits to a significand as long as it stays in bounds: the significand,
and the number of digits that were left over. -/
def appendDigits (significand : Nat) : List Char → Nat × Nat
  | [] => (significand, 0)
  | d :: ds =>
    let next := 10 * significand + (d.toNat - '0'.toNat)
    if next ≤ maxSignificand then appendDigits next ds else (significand, ds.length + 1)

end DateSpan.Json
