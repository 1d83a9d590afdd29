import DateSpan.Text.Numeral

/-!
# Years in writing

A year has at least four digits. Years before `0` have a minus sign, years with more
than four digits a plus sign. Reading takes a sign with any year, and any number of
leading zeros, so long as the number has no more than 32 bits.
-/

namespace DateSpan.Year

/-- A year in at least four digits, with a sign if it is negative or has more. -/
def iso (year : Int) : List Char :=
  if year < 0 then '-' :: Numeral.padded 4 year.natAbs
  else if year ≤ 9999 then Numeral.padded 4 year.natAbs
  else '+' :: Numeral.digits year.natAbs

/-- Five characters are four digits and a minus sign. -/
theorem signedPadded_of_neg {year : Int} (h : year < 0) :
    Numeral.signedPadded 5 year = iso year := by
  rw [Numeral.signedPadded, iso, if_pos h, if_pos h]

/-- The sign of a year, as a factor, and what comes after it. -/
def takeSign : List Char → Int × List Char
  | '-' :: cs => (-1, cs)
  | '+' :: cs => (1, cs)
  | cs => (1, cs)

theorem takeSign_of_isDigit {c : Char} (h : c.isDigit) (cs : List Char) :
    takeSign (c :: cs) = (1, c :: cs) := by
  unfold takeSign
  split
  · next he => cases he; cases h
  · next he => cases he; cases h
  · rfl

/-- The number of some digits, unless it overflows 32 bits, one of which is the sign. -/
def number? (digits : List Char) : Option Nat :=
  if Numeral.value digits < 0x80000000 then some (Numeral.value digits) else none

/-- Reads a year with all the digits that follow its sign, at least four. What number
the digits are is for the conversion to say. -/
def readWith (convert : List Char → Option Nat) (cs : List Char) : Option (Int × List Char) :=
  let (sign, body) := takeSign cs
  let digits := body.takeWhile Char.isDigit
  if 4 ≤ digits.length then
    (convert digits).map fun (n : Nat) => (sign * n, body.dropWhile Char.isDigit)
  else none

def read (cs : List Char) : Option (Int × List Char) := readWith number? cs

theorem span_digits {ds rest : List Char} (hd : ∀ c ∈ ds, c.isDigit)
    (hr : ∀ c ∈ rest.head?, ¬ c.isDigit) :
    (ds ++ rest).takeWhile Char.isDigit = ds ∧ (ds ++ rest).dropWhile Char.isDigit = rest := by
  induction ds with
  | nil =>
    cases rest with
    | nil => simp
    | cons c rest =>
      have : ¬ c.isDigit := hr c (by simp)
      simp [this]
  | cons d ds ih =>
    have hd' : d.isDigit := hd d (by simp)
    simpa [hd'] using ih fun c hc => hd c (by simp [hc])

end DateSpan.Year
