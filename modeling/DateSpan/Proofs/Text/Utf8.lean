import DateSpan.Text.Utf8

/-!
# Texts come back from their bytes

A text is read back from its UTF-8 bytes, by both readings: `decode_encode` and
`decodeLossy_encode`. All there is to see is that the bytes of one character are taken for that
character, whatever comes after them (`spells_encodeChar`). A lead byte tells how many bytes
follow, and in which intervals they are.

A byte below 0x80 stands for a character of its own wherever it is (`mem_encode_of_lt`), so bytes
may be cut at such a byte.
-/

namespace DateSpan.Utf8

/-! ## One character -/

/-- The bytes are read as the character, whatever comes after them. -/
def Spells (bytes : List UInt8) (c : Char) : Prop :=
  ∃ lead tail, bytes = lead :: tail ∧
    ∀ rest, Piece.first lead (tail ++ rest) = .char c (tail.length + 1)

/-- A byte within an interval, as a number. -/
theorem toNat_ofNat_of_lt {n : Nat} (h : n < 256) : (UInt8.ofNat n).toNat = n := by
  rw [UInt8.toNat_ofNat']
  exact Nat.mod_eq_of_lt h

theorem toNat_ofNat {v : Nat} (h : v.isValidChar) : (Char.ofNat v).toNat = v := by
  rw [Char.ofNat, dif_pos h]
  rfl

theorem matching_nil (bytes : List UInt8) : matching [] bytes = 0 := by
  cases bytes <;> rfl

theorem matching_cons {interval : Interval} {more : List Interval} {b : UInt8}
    {bytes : List UInt8} (h : interval.1 ≤ b.toNat ∧ b.toNat ≤ interval.2) :
    matching (interval :: more) (b :: bytes) = matching more bytes + 1 := if_pos h

/-- Bytes that are all in the intervals of the lead byte are a character. -/
theorem spells_of_matching (intervals : List Interval) {lead : UInt8} {tail : List UInt8}
    {c : Char} (hfollow : follow? lead.toNat = some intervals)
    (hlen : intervals.length = tail.length)
    (hmatching : ∀ rest, matching intervals (tail ++ rest) = tail.length)
    (hc : assemble lead tail = c) : Spells (lead :: tail) c := by
  refine ⟨lead, tail, rfl, ?_⟩
  intro rest
  rw [Piece.first, hfollow]
  simp only [hlen, hmatching, List.take_left, if_true, hc]

theorem spells_one {c : Char} {v : Nat} (hc : Char.ofNat v = c) (h : v ≤ 0x7f) :
    Spells [UInt8.ofNat v] c := by
  have hlead := toNat_ofNat_of_lt (show v < 256 by omega)
  have hfollow : follow? v = some [] := if_pos (by omega)
  refine spells_of_matching [] ?_ rfl matching_nil ?_
  · rw [hlead, hfollow]
  · rw [assemble, hlead]
    exact hc

theorem spells_two {c : Char} {v : Nat} (hc : Char.ofNat v = c) (hl : 0x7f < v) (hu : v ≤ 0x7ff) :
    Spells [UInt8.ofNat (v / 64 % 0x20 + 0xc0), UInt8.ofNat (v % 0x40 + 0x80)] c := by
  have hlead := toNat_ofNat_of_lt (show v / 64 % 0x20 + 0xc0 < 256 by omega)
  have hnext := toNat_ofNat_of_lt (show v % 0x40 + 0x80 < 256 by omega)
  have hfollow : follow? (v / 64 % 0x20 + 0xc0) = some [continuation] := by
    rw [follow?, if_neg (by omega), if_neg (by omega), if_pos (by omega)]
  refine spells_of_matching [continuation] ?_ rfl ?_ ?_
  · rw [hlead, hfollow]
  · intro rest
    rw [List.cons_append, matching_cons (by simp only [hnext, continuation]; omega), matching_nil]
    rfl
  · have hsum : 64 * (v / 64 % 0x20 + 0xc0 - 0xC0) + (v % 0x40 + 0x80 - 0x80) = v := by omega
    rw [assemble, hlead, List.foldl_cons, List.foldl_nil, hnext]
    exact (congrArg Char.ofNat hsum).trans hc

theorem spells_three {c : Char} {v : Nat} (hc : Char.ofNat v = c) (hl : 0x7ff < v)
    (hu : v ≤ 0xffff) (hv : v < 0xD800 ∨ 0xDFFF < v) :
    Spells [UInt8.ofNat (v / 4096 % 0x10 + 0xe0), UInt8.ofNat (v / 64 % 0x40 + 0x80),
      UInt8.ofNat (v % 0x40 + 0x80)] c := by
  have hlead := toNat_ofNat_of_lt (show v / 4096 % 0x10 + 0xe0 < 256 by omega)
  have hsecond := toNat_ofNat_of_lt (show v / 64 % 0x40 + 0x80 < 256 by omega)
  have hthird := toNat_ofNat_of_lt (show v % 0x40 + 0x80 < 256 by omega)
  -- The interval of the second byte rules out overlong forms and surrogates.
  obtain ⟨interval, hfollow, hin⟩ : ∃ interval : Interval,
      follow? (v / 4096 % 0x10 + 0xe0) = some [interval, continuation] ∧
        interval.1 ≤ v / 64 % 0x40 + 0x80 ∧ v / 64 % 0x40 + 0x80 ≤ interval.2 := by
    rw [follow?, if_neg (by omega), if_neg (by omega), if_neg (by omega)]
    by_cases h0 : v / 4096 % 0x10 + 0xe0 = 0xE0
    · exact ⟨_, if_pos h0, by omega, by omega⟩
    · rw [if_neg h0]
      by_cases hd : v / 4096 % 0x10 + 0xe0 = 0xED
      · exact ⟨_, if_pos hd, by omega, by omega⟩
      · rw [if_neg hd, if_pos (by omega)]
        exact ⟨continuation, rfl, by simp only [continuation]; omega,
          by simp only [continuation]; omega⟩
  refine spells_of_matching [interval, continuation] ?_ rfl ?_ ?_
  · rw [hlead, hfollow]
  · intro rest
    rw [List.cons_append, matching_cons (by rwa [hsecond]), List.cons_append,
      matching_cons (by simp only [hthird, continuation]; omega), matching_nil]
    rfl
  · have hsum : 64 * (64 * (v / 4096 % 0x10 + 0xe0 - 0xE0) + (v / 64 % 0x40 + 0x80 - 0x80)) +
        (v % 0x40 + 0x80 - 0x80) = v := by omega
    rw [assemble, hlead, List.foldl_cons, List.foldl_cons, List.foldl_nil, hsecond, hthird]
    exact (congrArg Char.ofNat hsum).trans hc

theorem spells_four {c : Char} {v : Nat} (hc : Char.ofNat v = c) (hl : 0xffff < v)
    (hu : v < 0x110000) :
    Spells [UInt8.ofNat (v / 262144 % 0x08 + 0xf0), UInt8.ofNat (v / 4096 % 0x40 + 0x80),
      UInt8.ofNat (v / 64 % 0x40 + 0x80), UInt8.ofNat (v % 0x40 + 0x80)] c := by
  have hlead := toNat_ofNat_of_lt (show v / 262144 % 0x08 + 0xf0 < 256 by omega)
  have hsecond := toNat_ofNat_of_lt (show v / 4096 % 0x40 + 0x80 < 256 by omega)
  have hthird := toNat_ofNat_of_lt (show v / 64 % 0x40 + 0x80 < 256 by omega)
  have hfourth := toNat_ofNat_of_lt (show v % 0x40 + 0x80 < 256 by omega)
  -- The interval of the second byte rules out overlong forms and what is past the last character.
  obtain ⟨interval, hfollow, hin⟩ : ∃ interval : Interval,
      follow? (v / 262144 % 0x08 + 0xf0) = some [interval, continuation, continuation] ∧
        interval.1 ≤ v / 4096 % 0x40 + 0x80 ∧ v / 4096 % 0x40 + 0x80 ≤ interval.2 := by
    rw [follow?, if_neg (by omega), if_neg (by omega), if_neg (by omega), if_neg (by omega),
      if_neg (by omega), if_neg (by omega)]
    by_cases h0 : v / 262144 % 0x08 + 0xf0 = 0xF0
    · exact ⟨_, if_pos h0, by omega, by omega⟩
    · rw [if_neg h0]
      by_cases h4 : v / 262144 % 0x08 + 0xf0 < 0xF4
      · exact ⟨_, if_pos h4, by simp only [continuation]; omega,
          by simp only [continuation]; omega⟩
      · rw [if_neg h4]
        exact ⟨_, if_pos (by omega), by omega, by omega⟩
  refine spells_of_matching [interval, continuation, continuation] ?_ rfl ?_ ?_
  · rw [hlead, hfollow]
  · intro rest
    rw [List.cons_append, matching_cons (by rwa [hsecond]), List.cons_append,
      matching_cons (by simp only [hthird, continuation]; omega), List.cons_append,
      matching_cons (by simp only [hfourth, continuation]; omega), matching_nil]
    rfl
  · have hsum : 64 * (64 * (64 * (v / 262144 % 0x08 + 0xf0 - 0xF0) +
        (v / 4096 % 0x40 + 0x80 - 0x80)) + (v / 64 % 0x40 + 0x80 - 0x80)) +
        (v % 0x40 + 0x80 - 0x80) = v := by omega
    rw [assemble, hlead, List.foldl_cons, List.foldl_cons, List.foldl_cons, List.foldl_nil,
      hsecond, hthird, hfourth]
    exact (congrArg Char.ofNat hsum).trans hc

/-- **The bytes of a character are read as that character.** -/
theorem spells_encodeChar (c : Char) : Spells (String.utf8EncodeChar c) c := by
  have hvalid : c.toNat < 0xD800 ∨ (0xDFFF < c.toNat ∧ c.toNat < 0x110000) := c.valid
  have hc : Char.ofNat c.val.toNat = c := Char.ofNat_toNat c
  rw [Char.toNat] at hvalid
  rw [String.utf8EncodeChar]
  split
  · exact spells_one hc ‹_›
  · split
    · exact spells_two hc (by omega) ‹_›
    · split
      · exact spells_three hc (by omega) ‹_› (by omega)
      · exact spells_four hc (by omega) (by omega)

/-! ## Texts -/

theorem encode_cons (c : Char) (cs : List Char) :
    encode (c :: cs) = String.utf8EncodeChar c ++ encode cs := List.flatMap_cons

theorem encode_append (cs ds : List Char) : encode (cs ++ ds) = encode cs ++ encode ds :=
  List.flatMap_append

theorem pieces_encode (cs : List Char) :
    pieces (encode cs) = cs.map fun c => .char c (String.utf8EncodeChar c).length := by
  induction cs with
  | nil => rw [encode, List.flatMap_nil, pieces, List.map_nil]
  | cons c cs ih =>
    obtain ⟨lead, tail, hbytes, hfirst⟩ := spells_encodeChar c
    rw [encode_cons, hbytes, List.cons_append, pieces, hfirst, List.map_cons, hbytes]
    dsimp only
    rw [Nat.add_sub_cancel, List.drop_left, ih, List.length_cons]

theorem ofPieces_map (size : Char → Nat) (index : Nat) (cs : List Char) :
    ofPieces index (cs.map fun c => .char c (size c)) = .ok cs := by
  induction cs generalizing index with
  | nil => rfl
  | cons c cs ih =>
    rw [List.map_cons, ofPieces, ih]
    rfl

theorem decode_encode (cs : List Char) : decode (encode cs) = .ok cs := by
  rw [decode, pieces_encode, ofPieces_map]

theorem decodeLossy_encode (cs : List Char) : decodeLossy (encode cs) = cs := by
  rw [decodeLossy, pieces_encode, List.map_map]
  exact List.map_id' cs

/-- What a function on texts makes of the text that bytes are. -/
def onText (f : List Char → List Char) (bytes : List UInt8) : List UInt8 :=
  encode (f (decodeLossy bytes))

theorem onText_encode (f : List Char → List Char) (cs : List Char) :
    onText f (encode cs) = encode (f cs) := by
  rw [onText, decodeLossy_encode]

/-- A byte below 0x80 is a character, never a part of one. -/
theorem mem_encode_of_lt {b : UInt8} {cs : List Char} (hb : b.toNat < 0x80) (h : b ∈ encode cs) :
    Char.ofNat b.toNat ∈ cs := by
  obtain ⟨c, hc, hmem⟩ := List.mem_flatMap.1 h
  have hval : Char.ofNat c.val.toNat = c := Char.ofNat_toNat c
  -- All the bytes of a longer character are 0x80 or more.
  suffices hone : b = UInt8.ofNat c.val.toNat ∧ c.val.toNat ≤ 0x7f by
    rwa [hone.1, toNat_ofNat_of_lt (by omega), hval]
  have hsmall {n : Nat} (hn : 0x80 ≤ n) (hlt : n < 256) : b ≠ UInt8.ofNat n := by
    rintro rfl
    rw [toNat_ofNat_of_lt hlt] at hb
    omega
  rw [String.utf8EncodeChar] at hmem
  split at hmem
  · exact ⟨List.mem_singleton.1 hmem, ‹_›⟩
  · exfalso
    split at hmem
    · simp only [List.mem_cons, List.not_mem_nil, or_false] at hmem
      rcases hmem with h | h <;> exact hsmall (by omega) (by omega) h
    · split at hmem
      · simp only [List.mem_cons, List.not_mem_nil, or_false] at hmem
        rcases hmem with h | h | h <;> exact hsmall (by omega) (by omega) h
      · simp only [List.mem_cons, List.not_mem_nil, or_false] at hmem
        rcases hmem with h | h | h | h <;> exact hsmall (by omega) (by omega) h

end DateSpan.Utf8
