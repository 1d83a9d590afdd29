import Mathlib.Logic.ExistsUnique
import DateSpan.Column

/-!
# Encoding and decoding

The decoder takes the encodings and nothing else:

    decode_eq_ok_iff : decode bytes = .ok r ↔ bytes = encode r

From right to left, what the decoder tests once more (the layout, the precision, the calendar,
the order of the bounds) holds of every range. From left to right, each step of the decoder
can be undone: eight bytes are the integer they stand for, a tag belongs to one layout or one
precision, and a body of the length that the layout fixes leaves nothing over.
-/

namespace DateSpan

namespace Wire

/-! ## Words -/

theorem bigEndianValue_concat (bytes : List UInt8) (b : UInt8) :
    bigEndianValue (bytes ++ [b]) = 256 * bigEndianValue bytes + b.toNat := by
  simp only [bigEndianValue, List.foldl_append, List.foldl_cons, List.foldl_nil]

/-- Bytes are put back together from the number they spell. -/
theorem bigEndian_bigEndianValue {n : Nat} {bytes : List UInt8} (h : bytes.length = n) :
    bigEndian n (bigEndianValue bytes) = bytes := by
  induction n generalizing bytes with
  | zero => rw [List.length_eq_zero_iff.1 h, bigEndian]
  | succ n ih =>
    obtain ⟨init, b, rfl⟩ : ∃ init b, bytes = init ++ [b] :=
      ⟨_, _, (List.dropLast_concat_getLast (List.ne_nil_of_length_eq_add_one h)).symm⟩
    -- The last byte is the remainder by 256, the bytes before it spell the quotient.
    have hb : b.toNat < 256 := b.toNat_lt
    have hinit : init.length = n := by simpa using h
    have hdiv : (256 * bigEndianValue init + b.toNat) / 256 = bigEndianValue init := by omega
    have hmod : (256 * bigEndianValue init + b.toNat) % 256 = b.toNat := by omega
    rw [bigEndian, bigEndianValue_concat, hdiv, hmod, ih hinit, UInt8.ofNat_toNat]

theorem bigEndianValue_lt (bytes : List UInt8) :
    bigEndianValue bytes < Nat.pow 256 bytes.length := by
  have h := bigEndianValue_bigEndian bytes.length (bigEndianValue bytes)
  rw [bigEndian_bigEndianValue rfl] at h
  rw [h]
  exact Nat.mod_lt _ (Nat.pow_pos (by decide))

/-- Eight bytes are the integer that they stand for. -/
theorem Int64.toBytes_ofBytes {bytes : List UInt8} (h : bytes.length = 8) :
    toBytes (ofBytes bytes) = bytes := by
  have hlt := bigEndianValue_lt bytes
  rw [h, show Nat.pow 256 8 = count by decide] at hlt
  have hmod : (bigEndianValue bytes : Int) % count = bigEndianValue bytes :=
    Int.emod_eq_of_lt (by omega) (by omega)
  rw [toBytes, ofBytes, Int.bmod_emod, hmod, Int.toNat_natCast, bigEndian_bigEndianValue h]

end Wire

/-! ## Tags -/

theorem Layout.ofTag_eq_ok_iff {tag : UInt8} {l : Layout} : ofTag tag = .ok l ↔ tag = l.tag := by
  constructor
  · intro h
    unfold ofTag at h
    split at h
    · next k hk =>
      cases h
      have hfound := List.find?_some hk
      exact (beq_iff_eq.1 hfound).symm
    · cases h
  · rintro rfl
    exact ofTag_tag l

theorem Layout.momentCount_of (r : Range) : (Layout.of r).momentCount = r.moments.length := by
  rcases r with (_ | _) | ⟨_ | _, _ | _, _⟩ <;> rfl

namespace Wire

/-! ## Moments -/

/-- A moment is read exactly from its own encoding. -/
theorem takeBound_eq_ok_iff {bytes rest : List UInt8} {b : Bound} :
    takeBound bytes = .ok (b, rest) ↔
      ∃ m, b = .bounded m ∧ bytes = encodeBound (.bounded m) ++ rest := by
  constructor
  · intro h
    rw [takeBound] at h
    split at h
    · cases h
    · next tag rest' hdrop =>
      obtain ⟨p, hp, h⟩ := bind_eq_ok_iff.1 h
      obtain ⟨b', hb, h⟩ := bind_eq_ok_iff.1 h
      cases h
      obtain ⟨hin, rfl⟩ := Bound.exact_eq_ok_iff.1 hb
      -- There is a ninth byte, so the first eight are there in full.
      have hlen : (bytes.take 8).length = 8 := by
        have := congrArg List.length hdrop
        simp at this ⊢
        omega
      refine ⟨_, rfl, ?_⟩
      rw [encodeBound, Int64.toBytes_ofBytes hlen, Precision.tag_eq_of_ofTag hp,
        List.append_assoc, List.singleton_append, ← hdrop, List.take_append_drop]
  · intro h
    obtain ⟨m, rfl, rfl⟩ := h
    exact takeBound_encodeBound m rest

/-! ## Bodies and whole encodings -/

theorem takeBound_encodeBound_self (m : Moment) :
    takeBound (encodeBound (.bounded m)) = .ok (.bounded m, []) := by
  have h := takeBound_encodeBound m []
  rwa [List.append_nil] at h

/-- The layout tells on which side the moments are. -/
theorem decodeBounds_encodeBounds (r : Range) :
    decodeBounds (Layout.of r) (encodeBounds r) = .ok r := by
  rcases r with (_ | m) | ⟨_ | m, _ | n, h⟩
  · rfl
  · rw [Layout.of, encodeBounds, decodeBounds, takeBound_encodeBound_self]
    rfl
  · exact Range.ofBounds_eq_ok_iff.2 ⟨h, rfl⟩
  · rw [Layout.of, encodeBounds, decodeBounds, encodeBound, List.nil_append,
      takeBound_encodeBound_self]
    exact Range.ofBounds_eq_ok_iff.2 ⟨h, rfl⟩
  · rw [Layout.of, encodeBounds, decodeBounds, takeBound_encodeBound]
    exact Range.ofBounds_eq_ok_iff.2 ⟨h, rfl⟩
  · rw [Layout.of, encodeBounds, decodeBounds, takeBound_encodeBound, ok_bind]
    dsimp only
    rw [takeBound_encodeBound_self]
    exact Range.ofBounds_eq_ok_iff.2 ⟨h, rfl⟩

/-- What is read under a layout is a range of that layout, read from its own bounds. -/
theorem eq_encodeBounds_of_decodeBounds {l : Layout} {bytes : List UInt8} {r : Range}
    (h : decodeBounds l bytes = .ok r) :
    Layout.of r = l ∧ ∃ rest, bytes = encodeBounds r ++ rest := by
  cases l with
  | singleBounded =>
    obtain ⟨⟨b, rest⟩, hb, hr⟩ := bind_eq_ok_iff.1 h
    obtain ⟨m, rfl, rfl⟩ := takeBound_eq_ok_iff.1 hb
    cases hr
    exact ⟨rfl, rest, rfl⟩
  | closed =>
    obtain ⟨⟨l, rest⟩, hl, hr⟩ := bind_eq_ok_iff.1 h
    obtain ⟨⟨u, rest'⟩, hu, hr'⟩ := bind_eq_ok_iff.1 hr
    obtain ⟨m, rfl, rfl⟩ := takeBound_eq_ok_iff.1 hl
    obtain ⟨n, rfl, rfl⟩ := takeBound_eq_ok_iff.1 hu
    obtain ⟨_, rfl⟩ := Range.ofBounds_eq_ok_iff.1 hr'
    refine ⟨rfl, rest', ?_⟩
    rw [encodeBounds, List.append_assoc]
  | openHigh =>
    obtain ⟨⟨l, rest⟩, hl, hr⟩ := bind_eq_ok_iff.1 h
    obtain ⟨m, rfl, rfl⟩ := takeBound_eq_ok_iff.1 hl
    obtain ⟨_, rfl⟩ := Range.ofBounds_eq_ok_iff.1 hr
    refine ⟨rfl, rest, ?_⟩
    rw [encodeBounds, List.append_assoc, encodeBound, List.nil_append]
  | openLow =>
    obtain ⟨⟨u, rest⟩, hu, hr⟩ := bind_eq_ok_iff.1 h
    obtain ⟨m, rfl, rfl⟩ := takeBound_eq_ok_iff.1 hu
    obtain ⟨_, rfl⟩ := Range.ofBounds_eq_ok_iff.1 hr
    exact ⟨rfl, rest, rfl⟩
  | bothOpen =>
    obtain ⟨_, rfl⟩ := Range.ofBounds_eq_ok_iff.1 h
    exact ⟨rfl, bytes, rfl⟩
  | singleUnbounded =>
    cases h
    exact ⟨rfl, bytes, rfl⟩

theorem decode_encode (r : Range) : decode (encode r) = .ok r := by
  have hlen := length_encode r
  have hbody := decodeBounds_encodeBounds r
  rw [encode] at hlen ⊢
  rw [decode, Layout.ofTag_tag, ok_bind, hlen, if_neg (Nat.lt_irrefl _),
    if_neg (Nat.lt_irrefl _), hbody]

/-- **The decoder accepts exactly the encodings.** -/
theorem decode_eq_ok_iff {bytes : List UInt8} {r : Range} :
    decode bytes = .ok r ↔ bytes = encode r := by
  constructor
  · intro h
    rcases bytes with _ | ⟨tag, body⟩
    · cases h
    · obtain ⟨l, hl, h⟩ := bind_eq_ok_iff.1 h
      obtain rfl := Layout.ofTag_eq_ok_iff.1 hl
      split at h
      · cases h
      · split at h
        · cases h
        · next hshort hlong =>
          obtain ⟨rfl, rest, rfl⟩ := eq_encodeBounds_of_decodeBounds h
          -- The length that the layout fixes is that of the encoding, so nothing is left over.
          have hlen := length_encode r
          simp only [encode, List.length_cons, List.length_append] at hlen hshort hlong
          obtain rfl := List.length_eq_zero_iff.1 (show rest.length = 0 by omega)
          rw [List.append_nil, encode]
  · rintro rfl
    exact decode_encode r

theorem encode_ne_nil (r : Range) : encode r ≠ [] := List.cons_ne_nil _ _

end Wire

namespace Cell

/-- Bytes that are there at all are read as a cell that holds a range, or not at all. -/
theorem deserialize_some_eq_ok_some_iff {bytes : List UInt8} {r : Range} :
    Cell.deserialize (some bytes) = .ok (some r) ↔ bytes = Wire.encode r := by
  rw [← Wire.decode_eq_ok_iff]
  rcases bytes with _ | ⟨tag, body⟩
  · simp [Cell.deserialize, Wire.decode]
  · rw [Cell.deserialize]
    · cases h : Wire.decode (tag :: body) <;> simp [Except.map]
    · simp

/-- **A cell comes back from its bytes as it was, and only its own bytes are read as that
cell.** Reading undoes writing for every cell; a range takes one byte and nine more for each
concrete bound; bytes that are read as a range are those that the range is written as, so that
each range has one accepted encoding; and equal bytes are those of equal cells. -/
theorem deserialize_serialize :
    (∀ v : Cell, Cell.deserialize (Cell.serialize v) = .ok v) ∧
    (∀ r : Range, ∃ bytes, Cell.serialize (some r) = some bytes ∧ bytes ≠ [] ∧
      bytes.length = 1 + 9 * r.moments.length) ∧
    (∀ (bytes : List UInt8) (r : Range), bytes ≠ [] →
      Cell.deserialize (some bytes) = .ok (some r) → Cell.serialize (some r) = some bytes) ∧
    (∀ r : Range, ∃! bytes, Cell.deserialize (some bytes) = .ok (some r)) ∧
    (∀ r r' : Range, Cell.serialize (some r) = Cell.serialize (some r') ↔ r = r') := by
  refine ⟨?_, ?_, ?_, ?_, ?_⟩
  · intro h
    rcases h with _ | r
    · rfl
    · exact deserialize_some_eq_ok_some_iff.2 rfl
  · intro r
    refine ⟨Wire.encode r, rfl, Wire.encode_ne_nil r, ?_⟩
    rw [Wire.length_encode, Layout.length, Layout.momentCount_of, Layout.momentLength]
  · intro bytes r _ h
    rw [deserialize_some_eq_ok_some_iff.1 h, serialize]
  · intro r
    refine ⟨Wire.encode r, deserialize_some_eq_ok_some_iff.2 rfl, ?_⟩
    intro bytes h
    exact deserialize_some_eq_ok_some_iff.1 h
  · intro r r'
    constructor
    · intro h
      have hdecode := Wire.decode_encode r
      rw [Option.some.inj h, Wire.decode_encode] at hdecode
      cases hdecode
      rfl
    · rintro rfl
      rfl

/-- The last millisecond before the epoch, meant to the minute: all eight bytes are full. -/
theorem serialize_before_epoch :
    Cell.serialize (some (.between (.bounded ⟨-1, .minute, by decide⟩) .unbounded trivial)) =
      some [2, 255, 255, 255, 255, 255, 255, 255, 255, 4] :=
  deserialize_serialize.2.2.1 _ _ (by decide) (deserialize_some_eq_ok_some_iff.2 (by decide))

end Cell

end DateSpan
