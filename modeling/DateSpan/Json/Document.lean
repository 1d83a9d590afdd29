import DateSpan.Json.Magnitude
import DateSpan.Text.Hex
import DateSpan.Text.Numeral
import DateSpan.Text.Utf8

/-!
# Reading a JSON document that is to be a string

A document is one string literal, with white space around it. `Json.readText` reads
the string that a document begins with, and `Json.isEnd` tells whether no more than
white space follows it; a reader of documents has its say about the string in between.

A document that begins with no string is refused as one of three: it ends too soon,
it is malformed, or it begins with a value of another type. The last, too, is decided
before anything that follows the value.

A character outside the basic plane may be spelled as two escapes, a high and a low
surrogate; a surrogate that stands alone is malformed.
-/

namespace DateSpan.Json

inductive Fault where
  /-- The document begins with a value that is no string. -/
  | wrongType
  /-- The document ends inside a value, or before one. -/
  | ended
  | malformed
deriving DecidableEq, Repr

def Fault.name : Fault → String
  | .wrongType => "Data"
  | .ended => "Eof"
  | .malformed => "Syntax"

def isBlank (c : Char) : Bool := c == ' ' || c == '\t' || c == '\n' || c == '\r'

def skipBlank (cs : List Char) : List Char := cs.dropWhile isBlank

/-! ## Strings -/

def hexValue? (a b c d : Char) : Option Nat :=
  match Hex.digitValue? a, Hex.digitValue? b, Hex.digitValue? c, Hex.digitValue? d with
  | some a, some b, some c, some d => some (((16 * a + b) * 16 + c) * 16 + d)
  | _, _, _, _ => none

/-- Reads the four digits of an escaped code unit. -/
def readUnit (cs : List Char) : Except Fault (Nat × List Char) :=
  if Utf8.size cs < 4 then .error .ended
  else
    match cs with
    | a :: b :: c :: d :: rest =>
      match hexValue? a b c d with
      | some n => .ok (n, rest)
      | none => .error .malformed
    | _ => .error .malformed

def isHighSurrogate (n : Nat) : Bool := 0xD800 ≤ n && n ≤ 0xDBFF

def isLowSurrogate (n : Nat) : Bool := 0xDC00 ≤ n && n ≤ 0xDFFF

def pairChar (high low : Nat) : Char :=
  Char.ofNat (0x10000 + (high - 0xD800) * 0x400 + (low - 0xDC00))

def readLow (high : Nat) : List Char → Except Fault (Char × List Char)
  | '\\' :: 'u' :: rest => do
    let (low, rest) ← readUnit rest
    if isLowSurrogate low then .ok (pairChar high low, rest) else .error .malformed
  | [] | ['\\'] => .error .ended
  | _ => .error .malformed

/-- The character that a letter after a backslash stands for. -/
def escaped? : Char → Option Char
  | '"' => some '"'
  | '\\' => some '\\'
  | '/' => some '/'
  | 'b' => some '\x08'
  | 'f' => some '\x0c'
  | 'n' => some '\n'
  | 'r' => some '\r'
  | 't' => some '\t'
  | _ => none

/-- Reads an escaped code unit, or a pair of them, from its digits on. -/
def readUnicode (cs : List Char) : Except Fault (Char × List Char) := do
  let (n, rest) ← readUnit cs
  if isLowSurrogate n then .error .malformed
  else if isHighSurrogate n then readLow n rest
  else .ok (Char.ofNat n, rest)

def readEscape : List Char → Except Fault (Char × List Char)
  | [] => .error .ended
  | c :: rest =>
    if c = 'u' then readUnicode rest
    else
      match escaped? c with
      | some d => .ok (d, rest)
      | none => .error .malformed

theorem length_of_readUnit {cs rest : List Char} {n : Nat} (h : readUnit cs = .ok (n, rest)) :
    rest.length < cs.length := by
  unfold readUnit at h
  split at h
  · cases h
  · split at h
    · split at h <;> cases h
      simp only [List.length_cons]; omega
    · cases h

theorem length_of_readLow {cs rest : List Char} {n : Nat} {c : Char}
    (h : readLow n cs = .ok (c, rest)) : rest.length < cs.length := by
  unfold readLow at h
  split at h
  · next cs =>
    cases hu : readUnit cs with
    | error => simp [hu, bind, Except.bind] at h
    | ok found =>
      have := length_of_readUnit hu
      simp only [hu, bind, Except.bind] at h
      split at h
      · simp only [Except.ok.injEq, Prod.mk.injEq] at h
        obtain ⟨-, rfl⟩ := h
        simp only [List.length_cons]; omega
      · cases h
  all_goals cases h

theorem length_of_readUnicode {cs rest : List Char} {c : Char}
    (h : readUnicode cs = .ok (c, rest)) : rest.length < cs.length := by
  cases hu : readUnit cs with
  | error => simp [readUnicode, hu, bind, Except.bind] at h
  | ok found =>
    have := length_of_readUnit hu
    simp only [readUnicode, hu, bind, Except.bind] at h
    split at h
    · cases h
    · split at h
      · have := length_of_readLow h; omega
      · cases h; omega

theorem length_of_readEscape {cs rest : List Char} {c : Char}
    (h : readEscape cs = .ok (c, rest)) : rest.length < cs.length := by
  cases cs with
  | nil => cases h
  | cons d cs =>
    simp only [readEscape] at h
    split at h
    · have := length_of_readUnicode h
      simp only [List.length_cons]; omega
    · split at h <;> cases h
      simp

/-- Reads a string after its opening quote: its characters, and what comes after the
closing quote. -/
def readString (cs : List Char) : Except Fault (List Char × List Char) :=
  match cs with
  | [] => .error .ended
  | '"' :: rest => .ok ([], rest)
  | '\\' :: rest =>
    match h : readEscape rest with
    | .error fault => .error fault
    | .ok (c, rest') =>
      have := length_of_readEscape h
      (readString rest').map fun (chars, after) => (c :: chars, after)
  | c :: rest =>
    if c.toNat < 0x20 then .error .malformed
    else (readString rest).map fun (chars, after) => (c :: chars, after)
termination_by cs.length
decreasing_by all_goals simp only [List.length_cons]; omega

/-! ## Values of other types -/

/-- What is wrong with a document that should go on with the given word. -/
def wordFault : List Char → List Char → Fault
  | [], _ => .wrongType
  | _ :: _, [] => .ended
  | w :: word, c :: cs => if w = c then wordFault word cs else .malformed

/-- A number that is well-formed is of the wrong type, unless it is too large. -/
def sizeFault (significand : Nat) (exponent : Int) : Fault :=
  if overflows significand exponent then .malformed else .wrongType

def digitFault : List Char → Fault
  | [] => .ended
  | _ :: _ => .malformed

/-- What is wrong with the rest of a number, from where an exponent may stand. -/
def exponentFault (significand : Nat) (exponent : Int) (cs : List Char) : Fault :=
  match cs with
  | 'e' :: cs | 'E' :: cs =>
    let (sign, body) : Int × List Char :=
      match cs with
      | '+' :: cs => (1, cs)
      | '-' :: cs => (-1, cs)
      | cs => (1, cs)
    let digits := body.takeWhile Char.isDigit
    if digits = [] then digitFault body
    else sizeFault significand (exponent + sign * Numeral.value digits)
  | _ => sizeFault significand exponent

/-- What is wrong with a number, from its first digit on. -/
def numberFault (cs : List Char) : Fault :=
  let whole := cs.takeWhile Char.isDigit
  if whole = [] then digitFault cs
  else if whole.head? = some '0' ∧ whole ≠ ['0'] then .malformed
  else
    let (significand, leftOver) := appendDigits 0 whole
    match cs.dropWhile Char.isDigit with
    | '.' :: rest =>
      let decimals := rest.takeWhile Char.isDigit
      if decimals = [] then digitFault rest
      else
        let (significand, unread) := appendDigits significand decimals
        exponentFault significand ((leftOver : Int) - (decimals.length - unread : Nat))
          (rest.dropWhile Char.isDigit)
    | rest => exponentFault significand leftOver rest

/-- What is wrong with a document that begins with something else than a string. -/
def valueFault : List Char → Fault
  | [] => .ended
  | 'n' :: cs => wordFault ['u', 'l', 'l'] cs
  | 't' :: cs => wordFault ['r', 'u', 'e'] cs
  | 'f' :: cs => wordFault ['a', 'l', 's', 'e'] cs
  | '-' :: cs => numberFault cs
  | '[' :: _ => .wrongType
  | '\x7b' :: _ => .wrongType
  | c :: cs => if c.isDigit then numberFault (c :: cs) else .malformed

/-! ## Documents -/

/-- Reads the string that a document begins with: its characters, and what comes after
it. -/
def readText (document : String) : Except Fault (List Char × List Char) :=
  match skipBlank document.toList with
  | '"' :: cs => readString cs
  | cs => .error (valueFault cs)

/-- What comes after the value of a document is white space. -/
def isEnd (cs : List Char) : Bool := (skipBlank cs).isEmpty

end DateSpan.Json
