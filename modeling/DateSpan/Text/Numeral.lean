/-!
# Decimal numerals

Numbers are written with the ASCII digits, most significant first. Two readings
matter here: `value`, which takes any list of digits, leading zeros included, and
`read`, which takes a field of a fixed width off the front of a text.

`value_padded` says that `value` undoes `padded`.
-/

namespace DateSpan.Numeral

def digits (n : Nat) : List Char := Nat.toDigits 10 n

/-- The digits of a number, with zeros in front up to the given width. -/
def padded (width n : Nat) : List Char :=
  List.replicate (width - (digits n).length) '0' ++ digits n

/-- The digits of an integer, after a `-` if it is negative. -/
def signed (n : Int) : List Char :=
  if n < 0 then '-' :: digits n.natAbs else digits n.natAbs

/-- The digits of an integer with zeros in front up to the given width, which counts the
`-` of a negative one as well. -/
def signedPadded (width : Nat) (n : Int) : List Char :=
  if n < 0 then '-' :: padded (width - 1) n.natAbs else padded width n.natAbs

/-- The number that a list of digits denotes. -/
def value (ds : List Char) : Nat := Nat.ofDigitChars 10 ds 0

/-- Reads a field of exactly `width` digits: its value, and what comes after it. -/
def read (width : Nat) (cs : List Char) : Option (Nat × List Char) :=
  if (cs.take width).length = width ∧ (cs.take width).all Char.isDigit then
    some (value (cs.take width), cs.drop width)
  else none

theorem isDigit_of_mem_digits {n : Nat} {c : Char} (h : c ∈ digits n) : c.isDigit :=
  Nat.isDigit_of_mem_toDigits (by decide) (by decide) h

theorem isDigit_of_mem_padded {width n : Nat} {c : Char} (h : c ∈ padded width n) : c.isDigit := by
  rcases List.mem_append.1 h with h | h
  · rw [(List.mem_replicate.1 h).2]; rfl
  · exact isDigit_of_mem_digits h

@[simp] theorem value_digits (n : Nat) : value (digits n) = n := Nat.ofDigitChars_ten_toDigits

@[simp] theorem value_padded (width n : Nat) : value (padded width n) = n := by
  rw [value, padded, Nat.ofDigitChars_append, Nat.ofDigitChars_replicate_zero, Nat.mul_zero]
  exact value_digits n

theorem le_length_padded (width n : Nat) : width ≤ (padded width n).length := by
  simp [padded]; omega

theorem length_padded {width n : Nat} (h : (digits n).length ≤ width) :
    (padded width n).length = width := by
  simp [padded]; omega

/-- A number that is not below the power has more digits than the power has zeros. -/
theorem lt_length_digits {k n : Nat} (hk : 0 < k) (h : Nat.pow 10 k ≤ n) :
    k < (digits n).length := by
  have hlen := mt (Nat.length_toDigits_le_iff (by decide) hk).1 (Nat.not_lt.2 h)
  exact Nat.not_le.1 hlen

end DateSpan.Numeral
