import DateSpan.Proofs.Entry
import DateSpan.Proofs.Json.Writing
import DateSpan.Proofs.RoundTrip.Bytes
import DateSpan.Proofs.Text.Utf8.Canonical

/-!
# An entry in JSON holds its cell twice

The object of an entry has the bytes of its cell, in hexadecimal digits, and the bounds of its
range. The cell is had again from either, by `Cell.ofBytes` and by `Cell.ofBounds`, with instants to
the millisecond that the text of the range does not show.

Nothing in an entry has to be escaped (`backslash_not_mem_text`).
-/

namespace DateSpan

/-! ## Members -/

namespace Json

def membersOf : Json → List (List Char × Json)
  | object members => members
  | _ => []

/-- The value of the member with the given name. -/
def get? (j : Json) (key : String) : Option Json :=
  (j.membersOf.find? fun m => m.1 == key.toList).map Prod.snd

end Json

/-! ## Reading an entry back -/

namespace Cell

/-- The cell whose bytes an entry has. -/
def ofBytes (j : Json) : Option Cell :=
  match j.get? "bytes" with
  | some .null => some none
  | some (.string ds) => (Hex.decode ds).bind fun bytes => (deserialize (some bytes)).toOption
  | _ => none

end Cell

namespace Bound

/-- The bound that an object has the parts of. -/
def ofJson (j : Json) : Option Bound :=
  match j.get? "unbounded", j.get? "timestamp", j.get? "precision" with
  | some (.boolean true), none, none => some unbounded
  | none, some (.number i), some (.string name) =>
    (Precision.ofName (String.ofList name)).toOption.bind fun p => (exact i p).toOption
  | _, _, _ => none

end Bound

namespace Cell

/-- The cell whose bounds an entry has. -/
def ofBounds (j : Json) : Option Cell :=
  match j.get? "lower", j.get? "upper" with
  | none, none => some none
  | none, some _ => none
  | some lower, none => (Bound.ofJson lower).map fun b => some (.single b)
  | some lower, some upper =>
    (Bound.ofJson lower).bind fun l => (Bound.ofJson upper).bind fun u =>
      (Range.ofBounds l u).toOption.map some

end Cell

namespace Bound

/-- The object says of the bound that it is open, or else its instant and its precision. -/
def ShownBy (j : Json) : Bound → Prop
  | unbounded => j.get? "unbounded" = some (.boolean true) ∧ j.get? "timestamp" = none ∧
      j.get? "precision" = none
  | bounded m => j.get? "unbounded" = none ∧ j.get? "timestamp" = some (.number m.instant) ∧
      j.get? "precision" = some (.string m.precision.name.toList)

theorem shownBy_boundJson (b : Bound) : ShownBy (Entry.boundJson b) b := by
  rcases b with _ | m
  · exact ⟨rfl, rfl, rfl⟩
  · exact ⟨rfl, rfl, rfl⟩

theorem ShownBy.ofJson_eq {j : Json} {b : Bound} (h : ShownBy j b) : ofJson j = some b := by
  rcases b with _ | m
  · obtain ⟨hopen, htimestamp, hprecision⟩ := h
    rw [ofJson, hopen, htimestamp, hprecision]
  · obtain ⟨hopen, htimestamp, hprecision⟩ := h
    rw [ofJson, hopen, htimestamp, hprecision]
    dsimp only
    rw [String.ofList_toList, Precision.ofName_name]
    show (exact m.instant m.precision).toOption = _
    rw [Wire.exact_instant]
    rfl

end Bound

/-! ## The object of an entry -/

namespace Entry

theorem get?_line (verbose : Bool) (e : Entry) :
    (json verbose e).get? "line" = if verbose then some (.number e.lineNumber) else none := by
  rcases e with ⟨n, _ | _ | _⟩ <;> cases verbose <;> rfl

theorem get?_range (verbose : Bool) (e : Entry) :
    (json verbose e).get? "range" =
      some (e.cell.elim .null fun r => .string (toString r).toList) := by
  rcases e with ⟨n, _ | r⟩
  · cases verbose <;> rfl
  · have htext : (toString r).toList = r.text := String.toList_ofList
    simp only [Option.elim_some, htext]
    cases verbose <;> rfl

theorem get?_bytes (verbose : Bool) (e : Entry) :
    (json verbose e).get? "bytes" = some ((hex? e.cell).elim .null .string) := by
  cases verbose <;> rfl

theorem get?_lower (verbose : Bool) (e : Entry) :
    (json verbose e).get? "lower" = e.cell.map fun r => boundJson r.lower := by
  rcases e with ⟨n, _ | r⟩ <;> cases verbose <;> rfl

theorem get?_upper (verbose : Bool) (e : Entry) :
    (json verbose e).get? "upper" = e.cell.bind fun r => r.upper?.map boundJson := by
  rcases e with ⟨n, _ | _ | _⟩ <;> cases verbose <;> rfl

/-- The names of the members, in their order. -/
def keys : List (List Char) := ["line", "range", "bytes", "lower", "upper"].map String.toList

theorem keys_sublist (verbose : Bool) (e : Entry) :
    ((members verbose e).map Prod.fst).Sublist keys := by
  rw [members, List.map_append, List.map_append]
  show List.Sublist _
    (["line", "range", "bytes"].map String.toList ++ ["lower", "upper"].map String.toList)
  apply List.Sublist.append
  · cases verbose
    · exact (List.Sublist.refl _).cons _
    · exact List.Sublist.refl _
  · rcases e.cell with _ | _ | _
    · exact List.nil_sublist _
    · exact (List.nil_sublist _).cons_cons _
    · exact List.Sublist.refl _

theorem nodup_keys (verbose : Bool) (e : Entry) : ((members verbose e).map Prod.fst).Nodup :=
  (keys_sublist verbose e).nodup (by decide)

/-- What the object of an entry says. -/
structure ShownBy (verbose : Bool) (e : Entry) (j : Json) : Prop where
  object : ∃ members, j = .object members ∧ (members.map Prod.fst).Nodup
  line : j.get? "line" = if verbose then some (.number e.lineNumber) else none
  range : j.get? "range" = some (e.cell.elim .null fun r => .string (toString r).toList)
  bytes : Cell.ofBytes j = some e.cell
  bytes_null : j.get? "bytes" = some .null ↔ e.cell = none
  bounds : Cell.ofBounds j = some e.cell
  lower : ∀ r, e.cell = some r → ∃ lower, j.get? "lower" = some lower ∧ r.lower.ShownBy lower
  lower_absent : j.get? "lower" = none ↔ e.cell = none
  upper : ∀ r b, e.cell = some r → r.upper? = some b →
    ∃ upper, j.get? "upper" = some upper ∧ b.ShownBy upper
  upper_absent : j.get? "upper" = none ↔ ∀ r, e.cell = some r → r.isSingle

theorem ofBytes_json (verbose : Bool) (e : Entry) :
    Cell.ofBytes (json verbose e) = some e.cell := by
  rw [Cell.ofBytes, get?_bytes]
  rcases e with ⟨n, _ | r⟩
  · rfl
  · have hbytes : Cell.deserialize (some (Wire.encode r)) = .ok (some r) :=
      Cell.deserialize_some_eq_ok_some_iff.2 rfl
    show (Hex.decode (Hex.encode (Wire.encode r))).bind _ = _
    rw [Hex.decode_encode, Option.bind_some, hbytes]
    rfl

theorem ofBounds_json (verbose : Bool) (e : Entry) :
    Cell.ofBounds (json verbose e) = some e.cell := by
  rw [Cell.ofBounds, get?_lower, get?_upper]
  rcases e with ⟨n, _ | b | ⟨l, u, h⟩⟩
  · rfl
  · show (Bound.ofJson (boundJson b)).map _ = _
    rw [(Bound.shownBy_boundJson b).ofJson_eq]
    rfl
  · show (Bound.ofJson (boundJson l)).bind _ = _
    rw [(Bound.shownBy_boundJson l).ofJson_eq, Option.bind_some,
      (Bound.shownBy_boundJson u).ofJson_eq, Option.bind_some,
      Range.ofBounds_eq_ok_iff.2 ⟨h, rfl⟩]
    rfl

theorem shownBy_json (verbose : Bool) (e : Entry) : ShownBy verbose e (json verbose e) where
  object := ⟨_, rfl, nodup_keys verbose e⟩
  line := get?_line verbose e
  range := get?_range verbose e
  bytes := ofBytes_json verbose e
  bytes_null := by
    rw [get?_bytes]
    rcases e with ⟨n, _ | r⟩ <;> simp [hex?, Cell.serialize]
  bounds := ofBounds_json verbose e
  lower := by
    intro r hr
    rw [get?_lower, hr]
    exact ⟨_, rfl, Bound.shownBy_boundJson r.lower⟩
  lower_absent := by
    rw [get?_lower, Option.map_eq_none_iff]
  upper := by
    intro r b hr hb
    rw [get?_upper, hr, Option.bind_some, hb]
    exact ⟨_, rfl, Bound.shownBy_boundJson b⟩
  upper_absent := by
    rw [get?_upper]
    rcases e with ⟨n, _ | _ | _⟩ <;> simp [Range.upper?, Range.isSingle]

end Entry

/-! ## Nothing is escaped -/

namespace Json

/-- The character stands for itself in a string. -/
def isBare (c : Char) : Bool := isPlain c && c != '"' && c != '\\'

theorem escape_of_isBare {c : Char} (h : isBare c) : escape c = [c] := by
  have hne {d : Char} (hd : isBare d = false) : c ≠ d := by
    rintro rfl
    rw [hd] at h
    cases h
  simp only [isBare, Bool.and_eq_true] at h
  have hplain : ¬ c.toNat < 0x20 := Nat.not_lt.2 (of_decide_eq_true h.1.1)
  rw [escape, if_neg (hne rfl), if_neg (hne rfl), if_neg (hne rfl), if_neg (hne rfl),
    if_neg (hne rfl), if_neg (hne rfl), if_neg (hne rfl), if_neg hplain]

theorem backslash_not_mem_quote {s : List Char} (h : ∀ c ∈ s, isBare c) : '\\' ∉ quote s := by
  intro hmem
  rw [quote, List.cons_append, List.mem_cons, List.mem_append, List.mem_singleton] at hmem
  rcases hmem with hmem | hmem | hmem
  · cases hmem
  · obtain ⟨c, hc, hescape⟩ := List.mem_flatMap.1 hmem
    rw [escape_of_isBare (h c hc), List.mem_singleton] at hescape
    exact absurd (h c hc) (by rw [← hescape]; decide)
  · cases hmem

/-- Neither the name nor the value of the member has anything escaped in it. -/
def IsBareMember (m : List Char × Json) : Prop := (∀ c ∈ m.1, isBare c) ∧ '\\' ∉ m.2.write

theorem backslash_not_mem_writeMembers {members : List (List Char × Json)}
    (h : ∀ m ∈ members, IsBareMember m) : '\\' ∉ writeMembers members := by
  induction members with
  | nil => exact List.not_mem_nil
  | cons m more ih =>
    obtain ⟨hkey, hvalue⟩ := h m List.mem_cons_self
    have hmore := ih fun m' hm' => h m' (List.mem_cons_of_mem m hm')
    have hnext : '\\' ∉ writeMore more := by
      rcases more with _ | ⟨next, more⟩
      · exact List.not_mem_nil
      · simpa [writeMore] using hmore
    rw [writeMembers_cons]
    simp [backslash_not_mem_quote hkey, hvalue, hnext]

theorem backslash_not_mem_object {members : List (List Char × Json)}
    (h : ∀ m ∈ members, IsBareMember m) : '\\' ∉ (object members).write := by
  simp [write, backslash_not_mem_writeMembers h]

theorem backslash_not_mem_number (n : Int) : '\\' ∉ (number n).write :=
  fun h => absurd (Numeral.isNumeral_of_mem_signed h) (by decide)

end Json

theorem Grammar.isBare_of_isRangeChar {c : Char} (h : isRangeChar c) : Json.isBare c := by
  have hquote : c ≠ '"' := by
    rintro rfl
    cases h
  have hbackslash : c ≠ '\\' := by
    rintro rfl
    cases h
  simp [Json.isBare, isPlain_of_isRangeChar h, hquote, hbackslash]

theorem Precision.isBare_of_mem_name (p : Precision) : ∀ c ∈ p.name.toList, Json.isBare c := by
  cases p <;> exact List.all_eq_true.1 rfl

namespace Entry

theorem backslash_not_mem_boundJson (b : Bound) : '\\' ∉ (boundJson b).write := by
  rcases b with _ | m
  · apply Json.backslash_not_mem_object
    refine List.forall_mem_cons.2 ⟨⟨List.all_eq_true.1 rfl, ?_⟩, List.forall_mem_nil _⟩
    decide
  · apply Json.backslash_not_mem_object
    refine List.forall_mem_cons.2 ⟨⟨List.all_eq_true.1 rfl, ?_⟩, List.forall_mem_cons.2
      ⟨⟨List.all_eq_true.1 rfl, ?_⟩, List.forall_mem_nil _⟩⟩
    · exact Json.backslash_not_mem_number m.instant
    · exact Json.backslash_not_mem_quote m.precision.isBare_of_mem_name

theorem isBareMember_of_mem {verbose : Bool} {e : Entry} {m : List Char × Json}
    (h : m ∈ members verbose e) : Json.IsBareMember m := by
  rw [members, List.mem_append, List.mem_append, List.mem_cons, List.mem_singleton] at h
  rcases h with (h | rfl | rfl) | h
  · split at h
    · obtain rfl := List.mem_singleton.1 h
      exact ⟨List.all_eq_true.1 rfl, Json.backslash_not_mem_number e.lineNumber⟩
    · cases h
  · refine ⟨List.all_eq_true.1 rfl, ?_⟩
    rcases e.cell with _ | r
    · decide
    · exact Json.backslash_not_mem_quote fun c hc =>
        Grammar.isBare_of_isRangeChar (Range.isRangeChar_of_mem_text hc)
  · refine ⟨List.all_eq_true.1 rfl, ?_⟩
    rcases e.cell with _ | r
    · decide
    · exact Json.backslash_not_mem_quote
        (Hex.forall_mem_encode (P := fun c => Json.isBare c) (by decide))
  · rcases e with ⟨n, _ | r⟩
    · cases h
    · rcases List.mem_cons.1 h with rfl | h
      · exact ⟨List.all_eq_true.1 rfl, backslash_not_mem_boundJson r.lower⟩
      · obtain ⟨b, -, rfl⟩ := Option.map_eq_some_iff.1 (Option.mem_toList.1 h)
        exact ⟨List.all_eq_true.1 rfl, backslash_not_mem_boundJson b⟩

/-- **Nothing in an entry has to be escaped.** -/
theorem backslash_not_mem_text {verbose : Bool} {e : Entry} : '\\' ∉ e.text .json verbose :=
  Json.backslash_not_mem_object fun _ => isBareMember_of_mem

/-- **An entry in JSON loses nothing and is one line.** It is the text of one value and of no other,
and this is an object whose members have different names. The cell is had again from the bytes and
from the bounds. The bytes are null if the cell is. There is a lower bound unless the cell is null,
and an upper bound unless the cell is null or has one bound; each is shown as open, or with its
instant and its precision. The range is there as its text. No character is escaped, and none is a
control character. So entries of different cells are different. -/
theorem json_lossless :
    (∀ (verbose : Bool) (e : Entry), ∃ j, ShownBy verbose e j ∧
      ∀ k : Json, Utf8.encode k.write = Utf8.encode (e.text .json verbose) ↔ k = j) ∧
    (∀ (verbose : Bool) (e : Entry), ∀ c ∈ e.text .json verbose, 0x20 ≤ c.toNat ∧ c ≠ '\\') ∧
    (∀ (verbose verbose' : Bool) (e e' : Entry), e.cell ≠ e'.cell →
      Utf8.encode (e.text .json verbose) ≠ Utf8.encode (e'.text .json verbose')) := by
  refine ⟨?_, ?_, ?_⟩
  · intro verbose e
    refine ⟨json verbose e, shownBy_json verbose e, ?_⟩
    intro k
    constructor
    · intro h
      exact Json.write_injective (Utf8.encode_injective h)
    · rintro rfl
      rfl
  · intro verbose e c hc
    refine ⟨?_, ?_⟩
    · exact of_decide_eq_true (Json.isPlain_of_mem_write _ hc)
    · rintro rfl
      exact backslash_not_mem_text hc
  · intro verbose verbose' e e' hne h
    have hjson := Json.write_injective (Utf8.encode_injective h)
    have hbytes := ofBytes_json verbose e
    rw [hjson, ofBytes_json] at hbytes
    exact hne (Option.some.inj hbytes).symm

/-- The first two milliseconds of 1970, both meant to the year, are written alike. -/
theorem json_lossless_sameYear :
    Cell.text (some (.single (.bounded ⟨0, .year, by decide⟩))) =
        Cell.text (some (.single (.bounded ⟨1, .year, by decide⟩))) ∧
      Utf8.encode (text .json false ⟨1, some (.single (.bounded ⟨0, .year, by decide⟩))⟩) ≠
        Utf8.encode (text .json false ⟨1, some (.single (.bounded ⟨1, .year, by decide⟩))⟩) :=
  ⟨rfl, json_lossless.2.2 _ _ _ _ (by decide)⟩

end Entry

end DateSpan
