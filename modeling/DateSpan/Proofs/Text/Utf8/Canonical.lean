import Mathlib.Data.List.Forall2
import DateSpan.Error
import DateSpan.Proofs.Text.Utf8

/-!
# Bytes that are a text

No bytes are read as a text but those that the text is written with:

    decode_eq_ok_iff : decode bytes = .ok cs ↔ bytes = encode cs

The intervals that a lead byte leaves to the bytes after it are just those in which the character
put together from them is written with the same bytes again (`encodeChar_assemble`).

Characters can be told from what comes after them, and from what comes before them. So if whole
characters are added to bytes at either end, the outcome is a text only if the bytes were one
(`exists_encode_eq_append_iff`).
-/

namespace DateSpan.Utf8

/-! ## One character -/

/-- The byte lies in the interval. -/
def Within (interval : Interval) (b : UInt8) : Prop :=
  interval.1 ≤ b.toNat ∧ b.toNat ≤ interval.2

/-- What may follow a lead byte. The byte after it may be confined further than the others. -/
theorem follow?_cases {lead : Nat} {intervals : List Interval} (h : follow? lead = some intervals) :
    (lead < 0x80 ∧ intervals = []) ∨
    (0xC2 ≤ lead ∧ lead < 0xE0 ∧ intervals = [continuation]) ∨
    (0xE0 ≤ lead ∧ lead < 0xF0 ∧ ∃ first last, intervals = [(first, last), continuation] ∧
      0x80 ≤ first ∧ last ≤ 0xBF ∧ (lead = 0xE0 → 0xA0 ≤ first) ∧ (lead = 0xED → last ≤ 0x9F)) ∨
    (0xF0 ≤ lead ∧ lead ≤ 0xF4 ∧
      ∃ first last, intervals = [(first, last), continuation, continuation] ∧
      0x80 ≤ first ∧ last ≤ 0xBF ∧ (lead = 0xF0 → 0x90 ≤ first) ∧ (lead = 0xF4 → last ≤ 0x8F)) := by
  unfold follow? at h
  split at h
  · cases h
    exact .inl ⟨by omega, rfl⟩
  split at h
  · cases h
  split at h
  · cases h
    exact .inr (.inl ⟨by omega, by omega, rfl⟩)
  -- From here on three bytes make a character, up to 0xF0.
  split at h
  · cases h
    exact .inr (.inr (.inl ⟨by omega, by omega, 0xA0, 0xBF, rfl, by omega, by omega, by omega,
      by omega⟩))
  split at h
  · cases h
    exact .inr (.inr (.inl ⟨by omega, by omega, 0x80, 0x9F, rfl, by omega, by omega, by omega,
      by omega⟩))
  split at h
  · cases h
    exact .inr (.inr (.inl ⟨by omega, by omega, 0x80, 0xBF, rfl, by omega, by omega, by omega,
      by omega⟩))
  split at h
  · cases h
    exact .inr (.inr (.inr ⟨by omega, by omega, 0x90, 0xBF, rfl, by omega, by omega, by omega,
      by omega⟩))
  split at h
  · cases h
    exact .inr (.inr (.inr ⟨by omega, by omega, 0x80, 0xBF, rfl, by omega, by omega, by omega,
      by omega⟩))
  split at h
  · cases h
    exact .inr (.inr (.inr ⟨by omega, by omega, 0x80, 0x8F, rfl, by omega, by omega, by omega,
      by omega⟩))
  · cases h

/-- As many bytes as there are intervals lie in them. -/
theorem exists_of_matching {intervals : List Interval} {bytes : List UInt8}
    (h : matching intervals bytes = intervals.length) :
    ∃ tail rest, bytes = tail ++ rest ∧ List.Forall₂ Within intervals tail := by
  induction intervals generalizing bytes with
  | nil => exact ⟨[], bytes, rfl, .nil⟩
  | cons interval more ih =>
    rcases bytes with _ | ⟨b, bytes⟩
    · cases h
    · rw [matching] at h
      split at h
      · next hb =>
        obtain ⟨tail, rest, rfl, htail⟩ := ih (Nat.succ.inj h)
        exact ⟨b :: tail, rest, rfl, .cons hb htail⟩
      · cases h

theorem ofNat_eq {n : Nat} {b : UInt8} (h : n = b.toNat) : UInt8.ofNat n = b := by
  rw [h, UInt8.ofNat_toNat]

/-- **The character put together from bytes is written with these bytes.** -/
theorem encodeChar_assemble {lead : UInt8} {tail : List UInt8} {intervals : List Interval}
    (hfollow : follow? lead.toNat = some intervals) (htail : List.Forall₂ Within intervals tail) :
    String.utf8EncodeChar (assemble lead tail) = lead :: tail := by
  rcases follow?_cases hfollow with ⟨hlead, rfl⟩ | ⟨hl, hu, rfl⟩ |
    ⟨hl, hu, first, last, rfl, hf, hlast, hlow, hhigh⟩ |
    ⟨hl, hu, first, last, rfl, hf, hlast, hlow, hhigh⟩
  · rcases htail with _ | _
    have hvalid : lead.toNat.isValidChar := Or.inl (by omega)
    have hc : (assemble lead []).val.toNat = lead.toNat := toNat_ofNat hvalid
    rw [String.utf8EncodeChar, hc, if_pos (by omega), UInt8.ofNat_toNat]
  · rcases htail with _ | ⟨hx, _ | _⟩
    rename_i x
    simp only [Within, continuation] at hx
    have hvalid : (64 * (lead.toNat - 0xC0) + (x.toNat - 0x80)).isValidChar := Or.inl (by omega)
    have hc : (assemble lead [x]).val.toNat = 64 * (lead.toNat - 0xC0) + (x.toNat - 0x80) :=
      toNat_ofNat hvalid
    rw [String.utf8EncodeChar, hc, if_neg (by omega), if_pos (by omega),
      ofNat_eq (b := lead) (by omega), ofNat_eq (b := x) (by omega)]
  · rcases htail with _ | ⟨hx, _ | ⟨hy, _ | _⟩⟩
    rename_i x y
    simp only [Within, continuation] at hx hy
    have hvalid : (64 * (64 * (lead.toNat - 0xE0) + (x.toNat - 0x80)) +
        (y.toNat - 0x80)).isValidChar := by
      rw [Nat.isValidChar]
      omega
    have hc : (assemble lead [x, y]).val.toNat =
        64 * (64 * (lead.toNat - 0xE0) + (x.toNat - 0x80)) + (y.toNat - 0x80) :=
      toNat_ofNat hvalid
    rw [String.utf8EncodeChar, hc, if_neg (by omega), if_neg (by omega), if_pos (by omega),
      ofNat_eq (b := lead) (by omega), ofNat_eq (b := x) (by omega),
      ofNat_eq (b := y) (by omega)]
  · rcases htail with _ | ⟨hx, _ | ⟨hy, _ | ⟨hz, _ | _⟩⟩⟩
    rename_i x y z
    simp only [Within, continuation] at hx hy hz
    have hvalid : (64 * (64 * (64 * (lead.toNat - 0xF0) + (x.toNat - 0x80)) + (y.toNat - 0x80)) +
        (z.toNat - 0x80)).isValidChar := by
      rw [Nat.isValidChar]
      omega
    have hc : (assemble lead [x, y, z]).val.toNat =
        64 * (64 * (64 * (lead.toNat - 0xF0) + (x.toNat - 0x80)) + (y.toNat - 0x80)) +
          (z.toNat - 0x80) := toNat_ofNat hvalid
    rw [String.utf8EncodeChar, hc, if_neg (by omega), if_neg (by omega), if_neg (by omega),
      ofNat_eq (b := lead) (by omega), ofNat_eq (b := x) (by omega),
      ofNat_eq (b := y) (by omega), ofNat_eq (b := z) (by omega)]

/-- The piece of a character takes up the bytes that the character is written with. -/
theorem eq_encodeChar_of_first {lead : UInt8} {bytes : List UInt8} {c : Char} {size : Nat}
    (h : Piece.first lead bytes = .char c size) :
    ∃ tail rest, bytes = tail ++ rest ∧ String.utf8EncodeChar c = lead :: tail ∧
      size = tail.length + 1 := by
  rw [Piece.first] at h
  split at h
  · cases h
  · next intervals hfollow =>
    split at h
    · next hmatching =>
      obtain ⟨tail, rest, rfl, htail⟩ := exists_of_matching hmatching
      rw [htail.length_eq, List.take_left] at h
      obtain ⟨rfl, rfl⟩ := Piece.char.inj h
      exact ⟨tail, rest, rfl, encodeChar_assemble hfollow htail, rfl⟩
    · split at h <;> cases h

/-! ## Texts -/

theorem eq_encode_of_ofPieces {bytes : List UInt8} {index : Nat} {cs : List Char}
    (h : ofPieces index (pieces bytes) = .ok cs) : bytes = encode cs := by
  induction bytes using pieces.induct generalizing index cs with
  | case1 =>
    rw [pieces] at h
    cases h
    rfl
  | case2 lead bytes c size hfirst ih =>
    rw [pieces, hfirst] at h
    obtain ⟨ds, hds, rfl⟩ := map_eq_ok_iff.1 h
    obtain ⟨tail, rest, rfl, hchar, rfl⟩ := eq_encodeChar_of_first hfirst
    rw [Nat.add_sub_cancel, List.drop_left] at hds ih
    rw [encode_cons, hchar, List.cons_append, ← ih hds]
  | case3 lead bytes size hfirst ih =>
    rw [pieces, hfirst] at h
    cases h
  | case4 lead bytes hfirst =>
    rw [pieces, hfirst] at h
    cases h

/-- **Bytes are read as a text exactly if they are the bytes of that text.** -/
theorem decode_eq_ok_iff {bytes : List UInt8} {cs : List Char} :
    decode bytes = .ok cs ↔ bytes = encode cs := by
  constructor
  · intro h
    exact eq_encode_of_ofPieces h
  · rintro rfl
    exact decode_encode cs

/-! ## Characters added at the ends -/

/-- A character is told from what comes after it. -/
theorem encodeChar_append_inj {c d : Char} {x y : List UInt8}
    (h : String.utf8EncodeChar c ++ x = String.utf8EncodeChar d ++ y) : c = d ∧ x = y := by
  obtain ⟨lead, tail, hc, hfirst⟩ := spells_encodeChar c
  obtain ⟨lead', tail', hd, hfirst'⟩ := spells_encodeChar d
  rw [hc, hd, List.cons_append, List.cons_append] at h
  obtain ⟨rfl, hrest⟩ := List.cons.inj h
  have hpiece := hfirst x
  rw [hrest, hfirst'] at hpiece
  obtain ⟨rfl, -⟩ := Piece.char.inj hpiece
  obtain rfl := (List.cons.inj (hc.symm.trans hd)).2
  exact ⟨rfl, List.append_cancel_left hrest⟩

theorem encode_append_eq_encode_iff {ds cs : List Char} {bytes : List UInt8} :
    encode ds ++ bytes = encode cs ↔ ∃ es, cs = ds ++ es ∧ bytes = encode es := by
  constructor
  · intro h
    induction ds generalizing cs with
    | nil => exact ⟨cs, rfl, h⟩
    | cons d ds ih =>
      rcases cs with _ | ⟨c, cs⟩
      · obtain ⟨lead, tail, hd, -⟩ := spells_encodeChar d
        rw [encode_cons, hd] at h
        cases h
      · rw [encode_cons, encode_cons, List.append_assoc] at h
        obtain ⟨rfl, hrest⟩ := encodeChar_append_inj h
        obtain ⟨es, rfl, rfl⟩ := ih hrest
        exact ⟨es, rfl, rfl⟩
  · rintro ⟨es, rfl, rfl⟩
    rw [encode_append]

theorem encode_injective {cs ds : List Char} (h : encode cs = encode ds) : cs = ds := by
  have hdecode := decode_encode cs
  rw [h, decode_encode] at hdecode
  exact (Except.ok.inj hdecode).symm

theorem isUTF8FirstByte_of_encode_eq {cs : List Char} {b : UInt8} {bytes : List UInt8}
    (h : encode cs = b :: bytes) : b.IsUTF8FirstByte := by
  rcases cs with _ | ⟨c, cs⟩
  · cases h
  · obtain ⟨lead, tail, hchar, -⟩ := spells_encodeChar c
    rw [encode_cons, hchar] at h
    have hlt : 0 < (String.utf8EncodeChar c).length := by
      rw [hchar]
      exact Nat.succ_pos _
    have hlead : (String.utf8EncodeChar c)[0] = lead := List.getElem_of_eq hchar hlt
    rw [← (List.cons.inj h).1, ← hlead]
    exact UInt8.isUTF8FirstByte_getElem_utf8EncodeChar.2 rfl

/-- No byte within a character begins one. -/
theorem eq_nil_of_isUTF8FirstByte {c : Char} {bytes more : List UInt8} {b : UInt8}
    (h : String.utf8EncodeChar c = bytes ++ b :: more) (hb : b.IsUTF8FirstByte) : bytes = [] := by
  have hlt : bytes.length < (String.utf8EncodeChar c).length := by
    rw [h, List.length_append, List.length_cons]
    omega
  have hget : (String.utf8EncodeChar c)[bytes.length] = b := by
    simp only [h, List.getElem_append_right (Nat.le_refl _), Nat.sub_self, List.getElem_cons_zero]
  rw [← hget, UInt8.isUTF8FirstByte_getElem_utf8EncodeChar] at hb
  exact List.length_eq_zero_iff.1 hb

theorem append_encode_eq_encode_iff {ds cs : List Char} {bytes : List UInt8} :
    bytes ++ encode ds = encode cs ↔ ∃ es, cs = es ++ ds ∧ bytes = encode es := by
  constructor
  · intro h
    suffices hbytes : ∃ es, bytes = encode es by
      obtain ⟨es, rfl⟩ := hbytes
      rw [← encode_append] at h
      exact ⟨es, (encode_injective h).symm, rfl⟩
    induction cs generalizing bytes with
    | nil => exact ⟨[], (List.append_eq_nil_iff.1 h).1⟩
    | cons c cs ih =>
      rw [encode_cons, List.append_eq_append_iff] at h
      rcases h with ⟨tail, hchar, hds⟩ | ⟨tail, rfl, hcs⟩
      · -- The bytes end within the first character, so at one of its ends.
        rcases tail with _ | ⟨b, tail⟩
        · rw [List.append_nil] at hchar
          exact ⟨[c], by rw [encode_cons, hchar]; exact (List.append_nil _).symm⟩
        · exact ⟨[], eq_nil_of_isUTF8FirstByte hchar (isUTF8FirstByte_of_encode_eq hds)⟩
      · obtain ⟨es, rfl⟩ := ih hcs.symm
        exact ⟨c :: es, (encode_cons c es).symm⟩
  · rintro ⟨es, rfl, rfl⟩
    rw [encode_append]

/-- Bytes between characters are those of a text if the whole is. -/
theorem exists_encode_eq_append_iff {before after : List Char} {bytes : List UInt8} :
    (∃ cs, encode before ++ bytes ++ encode after = encode cs) ↔ ∃ ds, bytes = encode ds := by
  constructor
  · rintro ⟨cs, h⟩
    obtain ⟨es, -, h⟩ := append_encode_eq_encode_iff.1 h
    obtain ⟨ds, -, h⟩ := encode_append_eq_encode_iff.1 h
    exact ⟨ds, h⟩
  · rintro ⟨ds, rfl⟩
    exact ⟨before ++ ds ++ after, by rw [encode_append, encode_append]⟩

end DateSpan.Utf8
