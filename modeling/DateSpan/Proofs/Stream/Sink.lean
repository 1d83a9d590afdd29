import DateSpan.Stream.Sink

/-!
# What a sink holds

`Sink.given` is the sink that some bytes were given to, all in all: it holds as many of them as
it has room for. Putting more leads from one such sink to the next (`put_given`,
`putLine_given`), whether or not there was a fault, so a sink holds the first bytes of all that
it was ever given.
-/

namespace DateSpan.Stream

/-- As many of the bytes as there is room for. -/
def clip (capacity : Option Nat) (bytes : List UInt8) : List UInt8 :=
  match capacity with
  | none => bytes
  | some n => bytes.take n

/-- There is no room for so many bytes. -/
def Exceeds : Option Nat → Nat → Prop
  | none, _ => False
  | some n, count => n < count

instance : (capacity : Option Nat) → (count : Nat) → Decidable (Exceeds capacity count)
  | none, _ => inferInstanceAs (Decidable False)
  | some n, count => inferInstanceAs (Decidable (n < count))

variable {capacity : Option Nat}

theorem Exceeds.mono {m n : Nat} (h : Exceeds capacity m) (hle : m ≤ n) : Exceeds capacity n := by
  cases capacity with
  | none => exact h
  | some k => exact Nat.lt_of_lt_of_le h hle

theorem not_exceeds_zero : ¬ Exceeds capacity 0 := by
  cases capacity with
  | none => exact id
  | some k => exact Nat.not_lt_zero k

/-- Once there was no room, more bytes make no difference. -/
theorem clip_append_of_exceeds {bytes : List UInt8} (h : Exceeds capacity bytes.length)
    (more : List UInt8) : clip capacity (bytes ++ more) = clip capacity bytes := by
  cases capacity with
  | none => cases h
  | some n => exact List.take_append_of_le_length (Nat.le_of_lt h)

namespace Sink

/-- The sink that the bytes were given to. -/
def given (capacity : Option Nat) (flushFails : Bool) (bytes : List UInt8) : Sink :=
  ⟨capacity, flushFails, (clip capacity bytes).toArray⟩

variable {flushFails : Bool} {bytes : List UInt8}

theorem given_nil : given capacity flushFails [] = empty capacity flushFails := by
  cases capacity <;> simp [given, empty, clip]

theorem take_room_given (flushFails : Bool) (more : List UInt8) :
    clip capacity bytes ++ more.take ((given capacity flushFails bytes).room more.length) =
      clip capacity (bytes ++ more) := by
  cases capacity with
  | none => simp [given, clip, room]
  | some n =>
    have hroom : (given (some n) flushFails bytes).room more.length =
        min more.length (n - bytes.length) := by
      simp only [given, clip, room, List.size_toArray, List.length_take]
      omega
    have htake : more.take (min more.length (n - bytes.length)) = more.take (n - bytes.length) := by
      rw [Nat.min_comm, ← List.take_take, List.take_length]
    rw [hroom, htake, clip, clip, List.take_append]

theorem room_given_lt_iff (more : List UInt8) :
    (given capacity flushFails bytes).room more.length < more.length ↔
      more ≠ [] ∧ Exceeds capacity (bytes ++ more).length := by
  rw [← List.length_pos_iff, List.length_append]
  cases capacity with
  | none => simp [given, room, Exceeds]
  | some n =>
    simp only [given, clip, room, Exceeds, List.size_toArray, List.length_take]
    omega

/-- There is a fault exactly if what is put does not fit any more. -/
theorem put_given (more : List UInt8) :
    (given capacity flushFails bytes).put more =
      (if more ≠ [] ∧ Exceeds capacity (bytes ++ more).length then some .sinkFull else none,
        given capacity flushFails (bytes ++ more)) := by
  have hheld : (given capacity flushFails bytes).held ++
      more.take ((given capacity flushFails bytes).room more.length) =
        (clip capacity (bytes ++ more)).toArray := by
    rw [← take_room_given flushFails, ← List.append_toArray]
    simp [given]
  rw [put, hheld]
  simp only [room_given_lt_iff]
  rfl

/-- A line is put in two parts, and one after the other amounts to both at once. -/
theorem putLine_given (more : List UInt8) :
    (given capacity flushFails bytes).putLine more =
      (if Exceeds capacity (bytes ++ (more ++ [lineFeed])).length then some .sinkFull else none,
        given capacity flushFails (bytes ++ (more ++ [lineFeed]))) := by
  have hlen : (bytes ++ more).length ≤ (bytes ++ (more ++ [lineFeed])).length := by simp
  rw [putLine, put_given]
  by_cases h : more ≠ [] ∧ Exceeds capacity (bytes ++ more).length
  · have hclip := clip_append_of_exceeds h.2 [lineFeed]
    rw [List.append_assoc] at hclip
    rw [if_pos h, if_pos (h.2.mono hlen), given, given, hclip]
  · rw [if_neg h]
    dsimp only
    rw [put_given, List.append_assoc]
    simp

end Sink

end DateSpan.Stream
