/-!
# UTF-8

Bytes are cut into `Piece`s: well-formed characters, and the longest stretches
that begin like a character and then go wrong. From the pieces come both readings:
`decode`, which stops at the first fault and says where it is, and `decodeLossy`,
which puts a replacement character for each fault.

Overlong forms, surrogates and code points past U+10FFFF are faults already at the
byte that rules out any character, which is why some lead bytes narrow the
interval of the byte after them.
-/

namespace DateSpan.Utf8

abbrev Interval := Nat × Nat

/-- The bytes that continue a character in general. -/
def continuation : Interval := (0x80, 0xBF)

/-- The intervals of the bytes that must follow a lead byte; none if no character
starts with it. -/
def follow? (lead : Nat) : Option (List Interval) :=
  if lead < 0x80 then some []
  else if lead < 0xC2 then none
  else if lead < 0xE0 then some [continuation]
  else if lead = 0xE0 then some [(0xA0, 0xBF), continuation]
  else if lead = 0xED then some [(0x80, 0x9F), continuation]
  else if lead < 0xF0 then some [continuation, continuation]
  else if lead = 0xF0 then some [(0x90, 0xBF), continuation, continuation]
  else if lead < 0xF4 then some [continuation, continuation, continuation]
  else if lead = 0xF4 then some [(0x80, 0x8F), continuation, continuation]
  else none

/-- How many bytes in a row lie in their intervals. -/
def matching : List Interval → List UInt8 → Nat
  | (first, last) :: more, b :: bytes =>
    if first ≤ b.toNat ∧ b.toNat ≤ last then matching more bytes + 1 else 0
  | _, _ => 0

/-- The bits of a lead byte that belong to the code point, when `n` bytes follow it. -/
def leadBits (lead n : Nat) : Nat :=
  match n with
  | 0 => lead
  | 1 => lead - 0xC0
  | 2 => lead - 0xE0
  | _ => lead - 0xF0

/-- The character of a lead byte and the bytes that follow it. -/
def assemble (lead : UInt8) (tail : List UInt8) : Char :=
  Char.ofNat (tail.foldl (fun n b => 64 * n + (b.toNat - 0x80)) (leadBits lead.toNat tail.length))

/-- What a stretch of bytes amounts to. -/
inductive Piece where
  /-- A character, and the number of its bytes. -/
  | char (c : Char) (size : Nat)
  /-- Bytes that no character can begin with, the next one included or absent. -/
  | invalid (size : Nat)
  /-- The input ends inside a character. -/
  | incomplete
deriving DecidableEq, Repr

/-- The piece that a lead byte and the bytes after it start with. -/
def Piece.first (lead : UInt8) (bytes : List UInt8) : Piece :=
  match follow? lead.toNat with
  | none => .invalid 1
  | some tail =>
    if matching tail bytes = tail.length then
      .char (assemble lead (bytes.take tail.length)) (tail.length + 1)
    else if bytes.length ≤ matching tail bytes then .incomplete
    else .invalid (matching tail bytes + 1)

def pieces : List UInt8 → List Piece
  | [] => []
  | lead :: bytes =>
    match Piece.first lead bytes with
    | .char c size => .char c size :: pieces (bytes.drop (size - 1))
    | .invalid size => .invalid size :: pieces (bytes.drop (size - 1))
    | .incomplete => [.incomplete]
termination_by bytes => bytes.length
decreasing_by all_goals simp only [List.length_drop, List.length_cons]; omega

/-- Why bytes are not UTF-8, and how many bytes before the fault are. -/
inductive Fault where
  | invalid (size index : Nat)
  | incomplete (index : Nat)
deriving DecidableEq, Repr

def Fault.message : Fault → String
  | .invalid size index => s!"invalid utf-8 sequence of {size} bytes from index {index}"
  | .incomplete index => s!"incomplete utf-8 byte sequence from index {index}"

/-- The characters of pieces that start at a given index, or their first fault. -/
def ofPieces (index : Nat) : List Piece → Except Fault (List Char)
  | [] => .ok []
  | .char c size :: more => (ofPieces (index + size) more).map (c :: ·)
  | .invalid size :: _ => .error (.invalid size index)
  | .incomplete :: _ => .error (.incomplete index)

def decode (bytes : List UInt8) : Except Fault (List Char) := ofPieces 0 (pieces bytes)

/-- Stands for a fault where a text must be had. -/
def replacement : Char := '\uFFFD'

/-- Reads bytes as text, with a replacement character for each fault. -/
def decodeLossy (bytes : List UInt8) : List Char :=
  (pieces bytes).map fun
    | .char c _ => c
    | _ => replacement

def encode (cs : List Char) : List UInt8 := cs.flatMap String.utf8EncodeChar

/-- The number of bytes a text takes. -/
def size (cs : List Char) : Nat := cs.foldr (fun c n => c.utf8Size + n) 0

theorem length_encode (cs : List Char) : (encode cs).length = size cs := by
  induction cs with
  | nil => rfl
  | cons c cs ih =>
    simp only [encode, size, List.flatMap_cons, List.length_append, List.foldr_cons,
      String.length_utf8EncodeChar] at *
    omega

end DateSpan.Utf8
