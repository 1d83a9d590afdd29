/-!
# Integers as bytes

Natural numbers as a fixed count of bytes, most significant first, and signed
integers of 64 bits in two's complement.

`ofBytes_toBytes` says that reading undoes writing for every number that fits.
-/

namespace DateSpan.Wire

/-- The low `n` bytes of a number, most significant first. -/
def bigEndian : Nat → Nat → List UInt8
  | 0, _ => []
  | n + 1, v => bigEndian n (v / 256) ++ [UInt8.ofNat (v % 256)]

/-- The number that bytes spell, most significant first. -/
def bigEndianValue (bytes : List UInt8) : Nat := bytes.foldl (fun v b => 256 * v + b.toNat) 0

@[simp] theorem length_bigEndian (n v : Nat) : (bigEndian n v).length = n := by
  induction n generalizing v with
  | zero => rfl
  | succ n ih => simp [bigEndian, ih]

theorem bigEndianValue_bigEndian (n v : Nat) :
    bigEndianValue (bigEndian n v) = v % Nat.pow 256 n := by
  induction n generalizing v with
  | zero => exact (Nat.mod_one v).symm
  | succ n ih =>
    have hb : (UInt8.ofNat (v % 256)).toNat = v % 256 := by simp
    have hs : bigEndianValue (bigEndian n (v / 256) ++ [UInt8.ofNat (v % 256)]) =
        256 * bigEndianValue (bigEndian n (v / 256)) + v % 256 := by
      simp only [bigEndianValue, List.foldl_append, List.foldl_cons, List.foldl_nil, hb]
    have hp : Nat.pow 256 (n + 1) = 256 * Nat.pow 256 n := Nat.mul_comm _ _
    rw [bigEndian, hs, ih, hp, Nat.mod_mul]
    omega

namespace Int64

/-- The number of integers of 64 bits. -/
def count : Nat := 0x10000000000000000

/-- An integer as eight bytes of two's complement. -/
def toBytes (n : Int) : List UInt8 := bigEndian 8 (n % count).toNat

/-- The integer that eight bytes of two's complement stand for. -/
def ofBytes (bytes : List UInt8) : Int := Int.bmod (bigEndianValue bytes) count

@[simp] theorem length_toBytes (n : Int) : (toBytes n).length = 8 := length_bigEndian 8 _

theorem ofBytes_toBytes {n : Int} (h : -0x8000000000000000 ≤ n) (h' : n < 0x8000000000000000) :
    ofBytes (toBytes n) = n := by
  have hc : Nat.pow 256 8 = count := by decide
  have hv : (bigEndianValue (toBytes n) : Int) = n % count := by
    have hpos : (0 : Int) ≤ n % count := Int.emod_nonneg n (by decide)
    have hlt : n % count < count := Int.emod_lt_of_pos n (by decide)
    rw [toBytes, bigEndianValue_bigEndian, hc, Nat.mod_eq_of_lt (by omega),
      Int.toNat_of_nonneg hpos]
  rw [ofBytes, hv, Int.emod_bmod]
  exact Int.bmod_eq_of_le (by unfold count; omega) (by unfold count; omega)

end Int64

end DateSpan.Wire
