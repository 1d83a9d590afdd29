import DateSpan.Error
import DateSpan.Text.Cut

/-!
# Readers

A reader takes something off the front of a `Span`, which is a part of a text and knows
how many bytes of the text are in front of it. It returns what is left, and what it has
taken; or it stops, and tells at which span.

There are three ways to stop. After a `mismatch` the text might still be read in another
way, a `failure` is final, and `incomplete` says that more of the text is to come. The
readers here never ask for more, since the text is all there.
-/

namespace DateSpan

/-- A part of a text, and the number of bytes in front of it. -/
structure Span where
  offset : Nat
  chars : List Char
deriving DecidableEq, Repr

namespace Span

/-- The whole of a text. -/
def ofText (text : String) : Span := ⟨0, text.toList⟩

def take (count : Nat) (s : Span) : Span := ⟨s.offset, s.chars.take count⟩

def drop (count : Nat) (s : Span) : Span :=
  ⟨s.offset + Utf8.size (s.chars.take count), s.chars.drop count⟩

theorem take_append (offset : Nat) (before after : List Char) :
    take before.length ⟨offset, before ++ after⟩ = ⟨offset, before⟩ := by
  rw [take, List.take_left]

theorem drop_append (offset : Nat) (before after : List Char) :
    drop before.length ⟨offset, before ++ after⟩ = ⟨offset + Utf8.size before, after⟩ := by
  rw [drop, List.take_left, List.drop_left]

end Span

/-- What a reader has to say when it stops. -/
inductive Complaint where
  /-- Something is wrong with the text, at this place. -/
  | fault (place : Span) (fault : GrammarFault)
  /-- The text is in order, but what it says is not. -/
  | rejected (e : Error)
deriving DecidableEq, Repr

def Complaint.toError (source : String) : Complaint → Error
  | fault place f => .grammar source place.offset f
  | rejected e => e

inductive Stop where
  | mismatch (complaint : Complaint)
  | failure (complaint : Complaint)
  | incomplete
deriving DecidableEq, Repr

def Stop.toError (source : String) : Stop → Error
  | mismatch complaint | failure complaint => complaint.toError source
  | incomplete => .grammar source 0 .endOfInput

abbrev Reader (α : Type) := Span → Except Stop (Span × α)

namespace Reader

variable {α : Type}

/-- Stops where something is missing. -/
def lack (s : Span) (wanted : Wanted) : Except Stop (Span × α) :=
  .error (.mismatch (.fault s (.missing wanted)))

/-- Takes one character. -/
def char (c : Char) : Reader Char := fun s =>
  if s.chars.head? = some c then .ok (s.drop 1, c) else lack s (.character c)

/-- Takes so many characters. -/
def take (count : Nat) : Reader Span := fun s =>
  if count ≤ s.chars.length then .ok (s.drop count, s.take count) else lack s .extent

/-- Takes a text. -/
def tag (text : List Char) : Reader Span := fun s =>
  if text.isPrefixOf s.chars then .ok (s.drop text.length, s.take text.length) else lack s .tag

/-- Takes what comes before the first occurrence of a text. -/
def takeUntil (text : List Char) : Reader Span := fun s =>
  match Text.cut? text s.chars with
  | some (before, _) => .ok (s.drop before.length, s.take before.length)
  | none => lack s .upTo

/-- Takes everything. -/
def rest : Reader Span := fun s => .ok (s.drop s.chars.length, s)

/-- Stops unless the reader leaves nothing. -/
def allConsuming (r : Reader α) : Reader α := fun s => do
  let (left, a) ← r s
  if left.chars = [] then .ok (left, a) else lack left .extent

/-- What has been read of a text. What is left of it is not looked at. -/
def outcome (text : String) : Except Stop (Span × α) → Except Error α
  | .ok (_, a) => .ok a
  | .error stop => .error (stop.toError text)

/-- Reads a text from its beginning. -/
def run (r : Reader α) (text : String) : Except Error α := outcome text (r (.ofText text))

/-! ## What the readers take -/

theorem char_cons (offset : Nat) (c : Char) (cs : List Char) :
    char c ⟨offset, c :: cs⟩ = .ok (⟨offset + Utf8.size [c], cs⟩, c) :=
  if_pos rfl

theorem take_append (offset : Nat) (before after : List Char) :
    take before.length ⟨offset, before ++ after⟩ =
      .ok (⟨offset + Utf8.size before, after⟩, ⟨offset, before⟩) := by
  rw [take, if_pos, Span.take_append, Span.drop_append]
  exact List.length_append ▸ Nat.le_add_right _ _

theorem tag_append (offset : Nat) (text after : List Char) :
    tag text ⟨offset, text ++ after⟩ =
      .ok (⟨offset + Utf8.size text, after⟩, ⟨offset, text⟩) := by
  rw [tag, if_pos, Span.take_append, Span.drop_append]
  exact List.isPrefixOf_iff_prefix.2 (List.prefix_append text after)

theorem takeUntil_of_cut? {text cs before after : List Char}
    (h : Text.cut? text cs = some (before, after)) (offset : Nat) :
    takeUntil text ⟨offset, cs⟩ =
      .ok (⟨offset + Utf8.size before, text ++ after⟩, ⟨offset, before⟩) := by
  have hcs : cs = before ++ (text ++ after) := by rw [Text.eq_of_cut? h, List.append_assoc]
  simp only [takeUntil, h]
  rw [hcs, Span.take_append, Span.drop_append]

theorem takeUntil_of_cut?_eq_none {text cs : List Char} (h : Text.cut? text cs = none)
    (offset : Nat) : takeUntil text ⟨offset, cs⟩ = lack ⟨offset, cs⟩ .upTo := by
  simp only [takeUntil, h]

theorem allConsuming_tag (offset : Nat) (text : List Char) :
    allConsuming (tag text) ⟨offset, text⟩ =
      .ok (⟨offset + Utf8.size text, []⟩, ⟨offset, text⟩) := by
  have htag := tag_append offset text []
  rw [List.append_nil] at htag
  rw [allConsuming, htag, ok_bind]
  exact if_pos rfl

theorem allConsuming_tag_of_ne {text cs : List Char} (h : cs ≠ text) (offset : Nat) :
    ∃ stop, allConsuming (tag text) ⟨offset, cs⟩ = .error stop := by
  by_cases hprefix : text <+: cs
  · obtain ⟨after, rfl⟩ := hprefix
    have hleft : after ≠ [] := by
      rintro rfl
      exact h (List.append_nil text)
    rw [allConsuming, tag_append, ok_bind]
    exact ⟨_, if_neg hleft⟩
  · have hno : ¬ text.isPrefixOf cs := mt List.isPrefixOf_iff_prefix.1 hprefix
    rw [allConsuming, tag, if_neg hno]
    exact ⟨_, rfl⟩

end Reader

end DateSpan
