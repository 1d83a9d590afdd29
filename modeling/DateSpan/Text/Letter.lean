/-!
# Comparing names without regard to case

Case is that of the ASCII letters alone: other characters are equal only to
themselves.
-/

namespace DateSpan.Letter

/-- Equality up to the case of ASCII letters. -/
def sameName (s t : String) : Bool := s.toList.map Char.toLower == t.toList.map Char.toLower

theorem sameName_iff {s t : String} :
    sameName s t ↔ s.toList.map Char.toLower = t.toList.map Char.toLower := beq_iff_eq

/-- Only a letter and its capital have that letter for a lower case. -/
theorem eq_or_eq_of_toLower_eq {c letter capital : Char}
    (hc : capital.val + ('a'.val - 'A'.val) = letter.val) (h : c.toLower = letter) :
    c = letter ∨ c = capital := by
  delta Char.toLower at h
  split at h
  · have hval : c.val + ('a'.val - 'A'.val) = letter.val := congrArg Char.val h
    exact .inr (Char.ext ((UInt32.add_left_inj _).1 (hval.trans hc.symm)))
  · exact .inl h

end DateSpan.Letter
