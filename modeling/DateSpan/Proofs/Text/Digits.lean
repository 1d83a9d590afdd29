import DateSpan.Text.Numeral

/-!
# Digits and the number they spell

Many lists of digits spell one number, but leading zeros are all they differ in. So a number is
spelled in one way only once that is settled, either by the length of the list
(`value_injective`) or by forbidding a leading zero (`value_injective_of_head`). The digits that
are written are of the first kind where they are padded, and of the second kind where they are
not: `padded_value` and `digits_value` find them again. Integers have one spelling each, with a sign
if they are negative (`signed_injective`).
-/

namespace DateSpan.Numeral

/-! ## The value, digit by digit -/

/-- What a digit adds to the value at the last place. -/
def digitValue (c : Char) : Nat := c.toNat - '0'.toNat

theorem toNat_of_isDigit {c : Char} (h : c.isDigit) :
    c.toNat = 48 + digitValue c ∧ digitValue c < 10 := by
  have hzero : '0'.toNat = 48 := rfl
  have hnine : '9'.toNat = 57 := rfl
  have hrange := Char.isDigit_iff_toNat.1 h
  rw [hzero, hnine] at hrange
  rw [digitValue, hzero]
  omega

theorem value_cons (c : Char) (ds : List Char) :
    value (c :: ds) = Nat.pow 10 ds.length * digitValue c + value ds := by
  rw [value, Nat.ofDigitChars_cons, Nat.ofDigitChars_eq_ofDigitChars_zero, Nat.mul_zero,
    Nat.zero_add]
  rfl

theorem value_replicate_zero_append (n : Nat) (ds : List Char) :
    value (List.replicate n '0' ++ ds) = value ds := by
  rw [value, Nat.ofDigitChars_append, Nat.ofDigitChars_replicate_zero, Nat.mul_zero]
  rfl

theorem exists_eq_replicate_zero_append (ds : List Char) :
    ∃ n es, ds = List.replicate n '0' ++ es ∧ es.head? ≠ some '0' := by
  induction ds with
  | nil => exact ⟨0, [], rfl, by simp⟩
  | cons c ds ih =>
    by_cases hc : c = '0'
    · obtain ⟨n, es, hds, hhead⟩ := ih
      exact ⟨n + 1, es, by rw [hc, hds]; rfl, hhead⟩
    · exact ⟨0, c :: ds, rfl, by simpa using hc⟩

/-! ## Bounds -/

theorem value_lt {ds : List Char} (h : ∀ c ∈ ds, c.isDigit) :
    value ds < Nat.pow 10 ds.length := by
  induction ds with
  | nil => decide
  | cons c ds ih =>
    have hc := (toNat_of_isDigit (h c List.mem_cons_self)).2
    have hds := ih fun d hd => h d (List.mem_cons_of_mem c hd)
    have hpow : Nat.pow 10 (ds.length + 1) = Nat.pow 10 ds.length * 10 := rfl
    have hmul := Nat.mul_le_mul_left (Nat.pow 10 ds.length) (Nat.le_of_lt_succ hc)
    rw [value_cons, List.length_cons, hpow]
    omega

/-- A number that reaches a power of ten has more digits than that. -/
theorem lt_length_of_le_value {ds : List Char} {n : Nat} (hd : ∀ c ∈ ds, c.isDigit)
    (h : Nat.pow 10 n ≤ value ds) : n < ds.length := by
  have hlt : Nat.pow 10 n < Nat.pow 10 ds.length := Nat.lt_of_le_of_lt h (value_lt hd)
  exact (Nat.pow_lt_pow_iff_right (by decide)).1 hlt

/-- Without a leading zero the first digit counts in full. -/
theorem le_value {c : Char} {ds : List Char} (hc : c.isDigit) (hne : c ≠ '0') :
    Nat.pow 10 ds.length ≤ value (c :: ds) := by
  have hpos : 0 < digitValue c := by
    apply Nat.pos_of_ne_zero
    intro hzero
    have hval := (toNat_of_isDigit hc).1
    rw [hzero] at hval
    exact hne (Char.toNat_inj.1 hval)
  rw [value_cons]
  exact Nat.le_add_right_of_le (Nat.le_mul_of_pos_right _ hpos)

/-! ## One spelling -/

/-- Digits of one length spell different numbers, unless they are the same. -/
theorem value_injective {ds es : List Char} (hd : ∀ c ∈ ds, c.isDigit)
    (he : ∀ c ∈ es, c.isDigit) (hlen : ds.length = es.length) (h : value ds = value es) :
    ds = es := by
  induction ds generalizing es with
  | nil => exact (List.length_eq_zero_iff.1 hlen.symm).symm
  | cons c ds ih =>
    rcases es with _ | ⟨e, es⟩
    · cases hlen
    · have hds := fun d hmem => hd d (List.mem_cons_of_mem c hmem)
      have hes := fun d hmem => he d (List.mem_cons_of_mem e hmem)
      have hlen' : ds.length = es.length := Nat.succ.inj hlen
      -- The digits after the first are the remainder by a power of ten.
      have hrest := value_lt hds
      have hrest' := value_lt hes
      rw [value_cons, value_cons, hlen'] at h
      rw [hlen'] at hrest
      have hmod := congrArg (· % Nat.pow 10 es.length) h
      simp only [Nat.mul_add_mod, Nat.mod_eq_of_lt hrest, Nat.mod_eq_of_lt hrest'] at hmod
      rw [hmod] at h
      have hpos : 0 < Nat.pow 10 es.length := Nat.lt_of_le_of_lt (Nat.zero_le _) hrest'
      have hfirst := Nat.eq_of_mul_eq_mul_left hpos (Nat.add_right_cancel h)
      have hval := (toNat_of_isDigit (hd c List.mem_cons_self)).1
      rw [hfirst, ← (toNat_of_isDigit (he e List.mem_cons_self)).1] at hval
      rw [Char.toNat_inj.1 hval, ih hds hes hlen' hmod]

/-- Without leading zeros the number tells how many digits there are. -/
theorem length_le_of_value_eq {ds es : List Char} (hd : ∀ c ∈ ds, c.isDigit)
    (he : ∀ c ∈ es, c.isDigit) (hhead : ds.head? ≠ some '0') (h : value ds = value es) :
    ds.length ≤ es.length := by
  rcases ds with _ | ⟨c, ds⟩
  · exact Nat.zero_le _
  · have hne : c ≠ '0' := fun hzero => hhead (by rw [hzero]; rfl)
    have hle : Nat.pow 10 ds.length ≤ value (c :: ds) := le_value (hd c List.mem_cons_self) hne
    rw [h] at hle
    exact lt_length_of_le_value he hle

/-- Digits without leading zeros spell different numbers, unless they are the same. -/
theorem value_injective_of_head {ds es : List Char} (hd : ∀ c ∈ ds, c.isDigit)
    (he : ∀ c ∈ es, c.isDigit) (hd' : ds.head? ≠ some '0') (he' : es.head? ≠ some '0')
    (h : value ds = value es) : ds = es := by
  have hle := length_le_of_value_eq hd he hd' h
  have hge := length_le_of_value_eq he hd he' h.symm
  exact value_injective hd he (Nat.le_antisymm hle hge) h

/-! ## The digits that are written -/

theorem length_digits_value_le {ds : List Char} (h : ∀ c ∈ ds, c.isDigit) (hpos : 0 < ds.length) :
    (digits (value ds)).length ≤ ds.length :=
  (Nat.length_toDigits_le_iff (by decide) hpos).2 (value_lt h)

/-- Digits are found again from their value if their number is known. -/
theorem padded_value {ds : List Char} (h : ∀ c ∈ ds, c.isDigit) (hpos : 0 < ds.length) :
    padded ds.length (value ds) = ds := by
  apply value_injective (fun _ => isDigit_of_mem_padded) h
  · exact length_padded (length_digits_value_le h hpos)
  · exact value_padded _ _

theorem head?_digits_ne {n : Nat} (hn : 0 < n) : (digits n).head? ≠ some '0' := by
  intro hhead
  obtain ⟨cs, hcs⟩ := List.head?_eq_some_iff.1 hhead
  have hdigit : ∀ c ∈ cs, c.isDigit := fun c hc =>
    isDigit_of_mem_digits (n := n) (by rw [hcs]; exact List.mem_cons_of_mem _ hc)
  -- The zero does not count, so the digits after it spell the number, and are fewer.
  have hval : value cs = n := by
    rw [← value_digits n, hcs]
    exact (value_replicate_zero_append 1 cs).symm
  rcases cs with _ | ⟨c, cs⟩
  · exact absurd hval (Nat.ne_of_lt hn)
  · have hlen := length_digits_value_le hdigit (Nat.succ_pos _)
    rw [hval, hcs] at hlen
    exact Nat.not_succ_le_self _ hlen

/-- Digits without a leading zero are found again from their value. -/
theorem digits_value {ds : List Char} (h : ∀ c ∈ ds, c.isDigit) (hhead : ds.head? ≠ some '0')
    (hpos : 0 < value ds) : digits (value ds) = ds := by
  apply value_injective_of_head (fun _ => isDigit_of_mem_digits) h (head?_digits_ne hpos) hhead
  exact value_digits _

/-! ## Integers -/

theorem digits_injective {m n : Nat} (h : digits m = digits n) : m = n := by
  rw [← value_digits m, h, value_digits]

/-- A sign is no digit, so it is not mistaken for the first one. -/
theorem minus_cons_ne_digits (cs : List Char) (n : Nat) : '-' :: cs ≠ digits n := by
  intro h
  have hmem : '-' ∈ digits n := by simp [← h]
  exact absurd (isDigit_of_mem_digits hmem) (by decide)

/-- The characters that integers are written with. -/
def isNumeral (c : Char) : Bool := c == '-' || c.isDigit

theorem isNumeral_of_mem_signed {n : Int} {c : Char} (h : c ∈ signed n) : isNumeral c := by
  rw [isNumeral, Bool.or_eq_true, beq_iff_eq]
  rw [signed] at h
  split at h
  · rcases List.mem_cons.1 h with rfl | h
    · exact .inl rfl
    · exact .inr (isDigit_of_mem_digits h)
  · exact .inr (isDigit_of_mem_digits h)

theorem signed_injective {m n : Int} (h : signed m = signed n) : m = n := by
  rw [signed, signed] at h
  split at h <;> split at h
  · have habs := digits_injective (List.cons.inj h).2
    omega
  · exact absurd h (minus_cons_ne_digits _ _)
  · exact absurd h.symm (minus_cons_ne_digits _ _)
  · have habs := digits_injective h
    omega

end DateSpan.Numeral
