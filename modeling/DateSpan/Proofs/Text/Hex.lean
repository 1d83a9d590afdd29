import DateSpan.Text.Hex

/-!
# What hexadecimal digits spell

Digits spell some bytes if the bytes are written with them, up to the case of letters:

    decode_eq_some_iff : decode cs = some bytes ↔ cs.map Char.toLower = encode bytes

So what was read is written as it stood, but in lower case. Digits in pairs always spell some bytes,
and nothing else does (`exists_decode_eq_some_iff`).
-/

namespace DateSpan.Hex

/-! ## One digit -/

/-- The digits, in letters of either case. -/
def digits : List Char := "0123456789abcdefABCDEF".toList

theorem toNat_digit {n : Nat} (h : n < 16) :
    (digit n).toNat = if n < 10 then 48 + n else 87 + n := by
  have hall : ∀ m : Fin 16, (digit m).toNat = if m.val < 10 then 48 + m.val else 87 + m.val := by
    decide
  exact hall ⟨n, h⟩

theorem toNat_toLower (c : Char) :
    c.toLower.toNat = if 65 ≤ c.toNat ∧ c.toNat ≤ 90 then c.toNat + 32 else c.toNat := by
  have hupper : (c.val ≥ 'A'.val ∧ c.val ≤ 'Z'.val) ↔ 65 ≤ c.toNat ∧ c.toNat ≤ 90 := by
    simp only [ge_iff_le, UInt32.le_iff_toNat_le]
    rfl
  delta Char.toLower
  split
  case isTrue h =>
    have hrange := hupper.1 h
    have hsum : (c.val + ('a'.val - 'A'.val)).toNat = c.toNat + 32 := by
      rw [UInt32.toNat_add]
      exact Nat.mod_eq_of_lt (show c.toNat + 32 < 4294967296 by omega)
    rw [if_pos hrange]
    exact hsum
  case isFalse h => rw [if_neg (mt hupper.2 h)]

theorem digitValue?_eq (c : Char) : digitValue? c =
    if 48 ≤ c.toNat ∧ c.toNat ≤ 57 then some (c.toNat - 48)
    else if 97 ≤ c.toNat ∧ c.toNat ≤ 102 then some (c.toNat - 97 + 10)
    else if 65 ≤ c.toNat ∧ c.toNat ≤ 70 then some (c.toNat - 65 + 10)
    else none := by
  simp only [digitValue?, Char.le_def, UInt32.le_iff_toNat_le]
  rfl

/-- A digit counts as much as the same digit in lower case. -/
theorem digitValue?_eq_some_iff {c : Char} {n : Nat} :
    digitValue? c = some n ↔ n < 16 ∧ c.toLower = digit n := by
  have hlower (h : n < 16) : c.toLower = digit n ↔ c.toLower.toNat = (digit n).toNat :=
    Char.toNat_inj.symm
  rw [and_congr_right hlower, toNat_toLower, digitValue?_eq]
  constructor
  · intro h
    have hn : n < 16 := by grind
    rw [toNat_digit hn]
    grind
  · rintro ⟨hn, h⟩
    rw [toNat_digit hn] at h
    grind

theorem exists_digitValue?_eq_some_iff {c : Char} :
    (∃ n, digitValue? c = some n) ↔ c ∈ digits := by
  constructor
  · rintro ⟨n, h⟩
    have hall : ∀ k : Fin 128, digitValue? (Char.ofNat k) ≠ none → Char.ofNat k ∈ digits := by
      decide
    have hlt : c.toNat < 128 := by
      rw [digitValue?_eq] at h
      grind
    have hc : Char.ofNat c.toNat = c := Char.ofNat_toNat c
    have hmem := hall ⟨c.toNat, hlt⟩
    rw [hc, h] at hmem
    exact hmem (Option.some_ne_none n)
  · intro h
    have hall : ∀ d ∈ digits, (digitValue? d).isSome := List.all_eq_true.1 rfl
    exact Option.isSome_iff_exists.1 (hall c h)

/-! ## Pairs of digits -/

theorem encode_cons (b : UInt8) (bytes : List UInt8) :
    encode (b :: bytes) = digit (b.toNat / 16) :: digit (b.toNat % 16) :: encode bytes := rfl

theorem encode_ofNat_cons {high low : Nat} (hhigh : high < 16) (hlow : low < 16)
    (bytes : List UInt8) :
    encode (UInt8.ofNat (16 * high + low) :: bytes) = digit high :: digit low :: encode bytes := by
  have hbyte : (UInt8.ofNat (16 * high + low)).toNat = 16 * high + low := by
    rw [UInt8.toNat_ofNat']
    exact Nat.mod_eq_of_lt (by omega)
  have hdiv : (16 * high + low) / 16 = high := by omega
  have hmod : (16 * high + low) % 16 = low := by omega
  rw [encode_cons, hbyte, hdiv, hmod]

theorem decode_cons_cons_eq_some_iff {high low : Char} {rest : List Char} {bytes : List UInt8} :
    decode (high :: low :: rest) = some bytes ↔ ∃ h l tail, digitValue? high = some h ∧
      digitValue? low = some l ∧ decode rest = some tail ∧
      bytes = UInt8.ofNat (16 * h + l) :: tail := by
  rw [decode]
  cases digitValue? high <;> cases digitValue? low <;> cases decode rest <;> simp [eq_comm]

/-- **Digits spell the bytes that are written with them**, up to the case of letters. -/
theorem decode_eq_some_iff : {cs : List Char} → {bytes : List UInt8} →
    (decode cs = some bytes ↔ cs.map Char.toLower = encode bytes)
  | [], bytes => by cases bytes <;> simp [decode, encode]
  | [_], bytes => by cases bytes <;> simp [decode, encode]
  | high :: low :: rest, bytes => by
    rw [decode_cons_cons_eq_some_iff, List.map_cons, List.map_cons]
    constructor
    · rintro ⟨h, l, tail, hh, hl, htail, rfl⟩
      obtain ⟨hhigh, hh⟩ := digitValue?_eq_some_iff.1 hh
      obtain ⟨hlow, hl⟩ := digitValue?_eq_some_iff.1 hl
      rw [encode_ofNat_cons hhigh hlow, hh, hl, decode_eq_some_iff.1 htail]
    · intro h
      rcases bytes with _ | ⟨b, bytes⟩
      · cases h
      · have hb := b.toNat_lt
        rw [encode_cons, List.cons.injEq, List.cons.injEq] at h
        obtain ⟨hh, hl, htail⟩ := h
        refine ⟨b.toNat / 16, b.toNat % 16, bytes, ?_, ?_, decode_eq_some_iff.2 htail, ?_⟩
        · exact digitValue?_eq_some_iff.2 ⟨by omega, hh⟩
        · exact digitValue?_eq_some_iff.2 ⟨by omega, hl⟩
        · rw [Nat.div_add_mod, UInt8.ofNat_toNat]

/-- Digits in pairs spell bytes, and nothing else does. -/
theorem exists_decode_eq_some_iff : {cs : List Char} →
    ((∃ bytes, decode cs = some bytes) ↔ cs.length % 2 = 0 ∧ ∀ c ∈ cs, c ∈ digits)
  | [] => by simp [decode]
  | [_] => by simp [decode]
  | high :: low :: rest => by
    have hrest := @exists_decode_eq_some_iff rest
    have hlength : (high :: low :: rest).length % 2 = rest.length % 2 := by
      simp only [List.length_cons]
      omega
    simp only [decode_cons_cons_eq_some_iff, hlength, List.forall_mem_cons]
    constructor
    · rintro ⟨_, h, l, tail, hh, hl, htail, -⟩
      obtain ⟨heven, hdigits⟩ := hrest.1 ⟨tail, htail⟩
      exact ⟨heven, exists_digitValue?_eq_some_iff.1 ⟨h, hh⟩,
        exists_digitValue?_eq_some_iff.1 ⟨l, hl⟩, hdigits⟩
    · rintro ⟨heven, hhigh, hlow, hdigits⟩
      obtain ⟨h, hh⟩ := exists_digitValue?_eq_some_iff.2 hhigh
      obtain ⟨l, hl⟩ := exists_digitValue?_eq_some_iff.2 hlow
      obtain ⟨tail, htail⟩ := hrest.2 ⟨heven, hdigits⟩
      exact ⟨_, h, l, tail, hh, hl, htail, rfl⟩

end DateSpan.Hex
