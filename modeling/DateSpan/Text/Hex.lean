/-!
# Bytes as hexadecimal digits

Each byte is written as two digits, the high half first, in lower case. Reading
takes digits of either case, and takes them only in pairs.

`decode_encode` says that reading undoes writing.
-/

namespace DateSpan.Hex

def digit (n : Nat) : Char := Nat.digitChar n

def digitValue? (c : Char) : Option Nat :=
  if '0' ≤ c ∧ c ≤ '9' then some (c.toNat - '0'.toNat)
  else if 'a' ≤ c ∧ c ≤ 'f' then some (c.toNat - 'a'.toNat + 10)
  else if 'A' ≤ c ∧ c ≤ 'F' then some (c.toNat - 'A'.toNat + 10)
  else none

/-- Writes each byte as two digits. -/
def encode (bytes : List UInt8) : List Char :=
  bytes.flatMap fun b => [digit (b.toNat / 16), digit (b.toNat % 16)]

/-- Reads digits in pairs; a digit left over, or a character that is no digit,
makes the text malformed. -/
def decode : List Char → Option (List UInt8)
  | [] => some []
  | [_] => none
  | high :: low :: rest =>
    match digitValue? high, digitValue? low, decode rest with
    | some h, some l, some bytes => some (UInt8.ofNat (16 * h + l) :: bytes)
    | _, _, _ => none

/-- What holds of the sixteen digits holds of every character that bytes are written with. -/
theorem forall_mem_encode {P : Char → Prop} (h : ∀ m : Fin 16, P (digit m)) {bytes : List UInt8} :
    ∀ c ∈ encode bytes, P c := by
  intro c hc
  obtain ⟨b, -, hc⟩ := List.mem_flatMap.1 hc
  have hb := b.toNat_lt
  rcases List.mem_cons.1 hc with rfl | hc
  · exact h ⟨b.toNat / 16, by omega⟩
  · rw [List.mem_singleton.1 hc]
    exact h ⟨b.toNat % 16, by omega⟩

theorem digitValue?_digit {n : Nat} (h : n < 16) : digitValue? (digit n) = some n := by
  have : ∀ m : Fin 16, digitValue? (digit m) = some m.val := by decide
  exact this ⟨n, h⟩

theorem decode_encode (bytes : List UInt8) : decode (encode bytes) = some bytes := by
  induction bytes with
  | nil => rfl
  | cons b bs ih =>
    have hb := b.toNat_lt
    have hv : UInt8.ofNat (16 * (b.toNat / 16) + b.toNat % 16) = b := by
      rw [Nat.div_add_mod]; exact UInt8.ofNat_toNat
    have ih' : decode (bs.flatMap fun b => [digit (b.toNat / 16), digit (b.toNat % 16)]) =
        some bs := ih
    simp [encode, decode, digitValue?_digit (show b.toNat / 16 < 16 by omega),
      digitValue?_digit (show b.toNat % 16 < 16 by omega), ih', hv]

end DateSpan.Hex
