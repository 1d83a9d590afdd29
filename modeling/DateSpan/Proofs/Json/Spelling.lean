import DateSpan.Error
import DateSpan.Json
import DateSpan.Json.Document
import DateSpan.Proofs.Text.Hex
import DateSpan.Proofs.Text.Utf8

/-!
# How strings are spelled

A string can be spelled in many ways, since any character may be escaped. `Spells` says which ways
there are, one character at a time, and the reader takes just these:

    readString_eq_ok_iff :
      readString cs = .ok (s, rest) ↔ ∃ spelled, Spells s spelled ∧ cs = spelled ++ '"' :: rest

So a spelling is told from what comes after the closing quote, and spells one string only. The way
strings are written is one of the ways to spell them (`spells_flatMap_escape`).
-/

namespace DateSpan.Json

/-! ## Spellings -/

/-- The letters that stand for a character after a backslash. -/
def letters : List (Char × Char) :=
  [('"', '"'), ('\\', '\\'), ('/', '/'), ('b', '\x08'), ('f', '\x0c'), ('n', '\n'), ('r', '\r'),
    ('t', '\t')]

/-- Four hexadecimal digits in letters of either case, which are a code unit. -/
def SpellsUnit (n : Nat) (ds : List Char) : Prop :=
  n < 0x10000 ∧ ds.map Char.toLower = Hex.encode [UInt8.ofNat (n / 0x100), UInt8.ofNat (n % 0x100)]

/-- The ways to spell a character: by itself, unless it has to be escaped; by a backslash and a
letter; by its code unit; or by two of them, if it is outside the basic plane. -/
inductive SpellsChar : Char → List Char → Prop where
  | raw {c : Char} (hc : 0x20 ≤ c.toNat) (hquote : c ≠ '"') (hbackslash : c ≠ '\\') :
    SpellsChar c [c]
  | letter {c l : Char} (h : (l, c) ∈ letters) : SpellsChar c ['\\', l]
  | unit {c : Char} {ds : List Char} (h : SpellsUnit c.toNat ds) :
    SpellsChar c ('\\' :: 'u' :: ds)
  | pair {c : Char} {high low : List Char} (hc : 0x10000 ≤ c.toNat)
    (hhigh : SpellsUnit (0xD800 + (c.toNat - 0x10000) / 0x400) high)
    (hlow : SpellsUnit (0xDC00 + (c.toNat - 0x10000) % 0x400) low) :
    SpellsChar c ('\\' :: 'u' :: (high ++ '\\' :: 'u' :: low))

/-- The characters of a string are spelled one after the other. -/
inductive Spells : List Char → List Char → Prop where
  | nil : Spells [] []
  | cons {c : Char} {s spelled more : List Char} (hc : SpellsChar c spelled) (hs : Spells s more) :
    Spells (c :: s) (spelled ++ more)

/-! ## Code units -/

theorem ofNat_inj_of_lt {m n : Nat} (hm : m < 0x100) (hn : n < 0x100)
    (h : UInt8.ofNat m = UInt8.ofNat n) : m = n := by
  have hval := congrArg UInt8.toNat h
  rwa [Utf8.toNat_ofNat_of_lt hm, Utf8.toNat_ofNat_of_lt hn] at hval

/-- The value of four digits, place by place. -/
theorem hexValue?_eq_some {a b c d : Char} {n : Nat} :
    hexValue? a b c d = some n ↔ ∃ i j k l, Hex.digitValue? a = some i ∧
      Hex.digitValue? b = some j ∧ Hex.digitValue? c = some k ∧ Hex.digitValue? d = some l ∧
      n = ((16 * i + j) * 16 + k) * 16 + l := by
  rw [hexValue?]
  cases Hex.digitValue? a <;> cases Hex.digitValue? b <;> cases Hex.digitValue? c <;>
    cases Hex.digitValue? d <;> simp [eq_comm]

theorem hexValue?_eq_some_iff {a b c d : Char} {n : Nat} :
    hexValue? a b c d = some n ↔ SpellsUnit n [a, b, c, d] := by
  have hlt {e : Char} {m : Nat} (h : Hex.digitValue? e = some m) : m < 16 :=
    (Hex.digitValue?_eq_some_iff.1 h).1
  rw [hexValue?_eq_some, SpellsUnit, ← Hex.decode_eq_some_iff]
  -- The first two digits are the high byte of the unit, the other two the low one.
  constructor
  · rintro ⟨i, j, k, l, hi, hj, hk, hl, rfl⟩
    have hi' := hlt hi
    have hj' := hlt hj
    have hk' := hlt hk
    have hl' := hlt hl
    have hhigh : (((16 * i + j) * 16 + k) * 16 + l) / 0x100 = 16 * i + j := by omega
    have hlow : (((16 * i + j) * 16 + k) * 16 + l) % 0x100 = 16 * k + l := by omega
    rw [hhigh, hlow]
    refine ⟨by omega, Hex.decode_cons_cons_eq_some_iff.2 ⟨i, j, _, hi, hj, ?_, rfl⟩⟩
    exact Hex.decode_cons_cons_eq_some_iff.2 ⟨k, l, [], hk, hl, rfl, rfl⟩
  · rintro ⟨hn, h⟩
    obtain ⟨i, j, tail, hi, hj, htail, hbytes⟩ := Hex.decode_cons_cons_eq_some_iff.1 h
    obtain ⟨k, l, _, hk, hl, hnil, rfl⟩ := Hex.decode_cons_cons_eq_some_iff.1 htail
    have hi' := hlt hi
    have hj' := hlt hj
    have hk' := hlt hk
    have hl' := hlt hl
    obtain ⟨hfirst, hsecond⟩ := List.cons.inj hbytes
    have hhigh := ofNat_inj_of_lt (by omega) (by omega) hfirst
    have hlow := ofNat_inj_of_lt (by omega) (by omega) (List.cons.inj hsecond).1
    exact ⟨i, j, k, l, hi, hj, hk, hl, by omega⟩

/-- A code unit takes four characters. -/
theorem SpellsUnit.exists_eq {n : Nat} {ds : List Char} (h : SpellsUnit n ds) :
    ∃ a b c d, ds = [a, b, c, d] := by
  have hlen : ds.length = 4 := by
    have hmap := congrArg List.length h.2
    rwa [List.length_map] at hmap
  match ds, hlen with
  | [a, b, c, d], _ => exact ⟨a, b, c, d, rfl⟩

theorem readUnit_append {n : Nat} {ds : List Char} (h : SpellsUnit n ds) (rest : List Char) :
    readUnit (ds ++ rest) = .ok (n, rest) := by
  obtain ⟨a, b, c, d, rfl⟩ := h.exists_eq
  have hsize : ¬ Utf8.size ([a, b, c, d] ++ rest) < 4 := by
    have ha := a.utf8Size_pos
    have hb := b.utf8Size_pos
    have hc := c.utf8Size_pos
    have hd := d.utf8Size_pos
    simp only [Utf8.size, List.cons_append, List.foldr_cons]
    omega
  have hvalue := hexValue?_eq_some_iff.2 h
  unfold readUnit
  rw [if_neg hsize]
  simp only [List.cons_append, List.nil_append, hvalue]

theorem readUnit_eq_ok_iff {cs rest : List Char} {n : Nat} :
    readUnit cs = .ok (n, rest) ↔ ∃ ds, SpellsUnit n ds ∧ cs = ds ++ rest := by
  constructor
  · intro h
    unfold readUnit at h
    split at h
    · cases h
    · split at h
      · split at h
        · next hvalue =>
          cases h
          exact ⟨_, hexValue?_eq_some_iff.1 hvalue, rfl⟩
        · cases h
      · cases h
  · rintro ⟨ds, hds, rfl⟩
    exact readUnit_append hds rest

/-! ## Escapes -/

theorem escaped?_eq_some_iff {l c : Char} : escaped? l = some c ↔ (l, c) ∈ letters := by
  constructor
  · intro h
    unfold escaped? at h
    split at h <;> cases h <;> simp [letters]
  · intro h
    simp only [letters, List.mem_cons, Prod.mk.injEq, List.not_mem_nil, or_false] at h
    rcases h with ⟨rfl, rfl⟩ | ⟨rfl, rfl⟩ | ⟨rfl, rfl⟩ | ⟨rfl, rfl⟩ | ⟨rfl, rfl⟩ | ⟨rfl, rfl⟩ |
      ⟨rfl, rfl⟩ | ⟨rfl, rfl⟩ <;> rfl

theorem isLowSurrogate_iff {n : Nat} : isLowSurrogate n ↔ 0xDC00 ≤ n ∧ n ≤ 0xDFFF := by
  simp [isLowSurrogate]

theorem isHighSurrogate_iff {n : Nat} : isHighSurrogate n ↔ 0xD800 ≤ n ∧ n ≤ 0xDBFF := by
  simp [isHighSurrogate]

/-- Two surrogates are the character that they are computed from. -/
theorem pairChar_eq_iff {high low : Nat} {c : Char} (hhigh : isHighSurrogate high)
    (hlow : isLowSurrogate low) :
    pairChar high low = c ↔ 0x10000 ≤ c.toNat ∧ high = 0xD800 + (c.toNat - 0x10000) / 0x400 ∧
      low = 0xDC00 + (c.toNat - 0x10000) % 0x400 := by
  rw [isHighSurrogate_iff] at hhigh
  rw [isLowSurrogate_iff] at hlow
  have hvalid : (0x10000 + (high - 0xD800) * 0x400 + (low - 0xDC00)).isValidChar :=
    Or.inr ⟨by omega, by omega⟩
  rw [← Char.toNat_inj, pairChar, Utf8.toNat_ofNat hvalid]
  constructor
  · intro h
    omega
  · rintro ⟨hc, hhigh, hlow⟩
    omega

theorem readLow_eq_ok_iff {high : Nat} {cs rest : List Char} {c : Char} :
    readLow high cs = .ok (c, rest) ↔ ∃ low ds, SpellsUnit low ds ∧ isLowSurrogate low ∧
      cs = '\\' :: 'u' :: ds ++ rest ∧ pairChar high low = c := by
  constructor
  · intro h
    unfold readLow at h
    split at h
    · obtain ⟨⟨low, after⟩, hunit, hread⟩ := bind_eq_ok_iff.1 h
      obtain ⟨ds, hds, rfl⟩ := readUnit_eq_ok_iff.1 hunit
      dsimp only at hread
      split at hread
      · next hlow =>
        obtain ⟨rfl, rfl⟩ := Prod.mk.inj (Except.ok.inj hread)
        exact ⟨low, ds, hds, hlow, rfl, rfl⟩
      · cases hread
    · cases h
    · cases h
    · cases h
  · rintro ⟨low, ds, hds, hlow, rfl, rfl⟩
    rw [List.cons_append, List.cons_append, readLow, readUnit_append hds, ok_bind]
    exact if_pos hlow

/-- A character is no surrogate. -/
theorem not_surrogate (c : Char) : ¬ isLowSurrogate c.toNat ∧ ¬ isHighSurrogate c.toNat := by
  have hvalid : c.toNat < 0xD800 ∨ (0xDFFF < c.toNat ∧ c.toNat < 0x110000) := c.valid
  rw [isLowSurrogate_iff, isHighSurrogate_iff]
  omega

/-- A character outside the basic plane is a high and a low surrogate. -/
theorem surrogates {c : Char} (hc : 0x10000 ≤ c.toNat) :
    isHighSurrogate (0xD800 + (c.toNat - 0x10000) / 0x400) ∧
      isLowSurrogate (0xDC00 + (c.toNat - 0x10000) % 0x400) ∧
      ¬ isLowSurrogate (0xD800 + (c.toNat - 0x10000) / 0x400) := by
  have hvalid : c.toNat < 0xD800 ∨ (0xDFFF < c.toNat ∧ c.toNat < 0x110000) := c.valid
  rw [isHighSurrogate_iff, isLowSurrogate_iff, isLowSurrogate_iff]
  omega

theorem readUnicode_unit {c : Char} {ds : List Char} (h : SpellsUnit c.toNat ds)
    (rest : List Char) : readUnicode (ds ++ rest) = .ok (c, rest) := by
  obtain ⟨hlow, hhigh⟩ := not_surrogate c
  rw [readUnicode, readUnit_append h, ok_bind]
  dsimp only
  rw [if_neg hlow, if_neg hhigh, Char.ofNat_toNat]

theorem readUnicode_pair {c : Char} {high low : List Char} (hc : 0x10000 ≤ c.toNat)
    (hhigh : SpellsUnit (0xD800 + (c.toNat - 0x10000) / 0x400) high)
    (hlow : SpellsUnit (0xDC00 + (c.toNat - 0x10000) % 0x400) low) (rest : List Char) :
    readUnicode (high ++ '\\' :: 'u' :: low ++ rest) = .ok (c, rest) := by
  obtain ⟨hishigh, hislow, hnotlow⟩ := surrogates hc
  have hpair := (pairChar_eq_iff hishigh hislow).2 ⟨hc, rfl, rfl⟩
  rw [readUnicode, List.append_assoc, readUnit_append hhigh, ok_bind]
  dsimp only
  rw [if_neg hnotlow, if_pos hishigh]
  exact readLow_eq_ok_iff.2 ⟨_, low, hlow, hislow, rfl, hpair⟩

theorem exists_of_readUnicode {cs rest : List Char} {c : Char}
    (h : readUnicode cs = .ok (c, rest)) :
    ∃ spelled, SpellsChar c ('\\' :: 'u' :: spelled) ∧ cs = spelled ++ rest := by
  obtain ⟨⟨n, after⟩, hunit, hread⟩ := bind_eq_ok_iff.1 h
  obtain ⟨ds, hds, rfl⟩ := readUnit_eq_ok_iff.1 hunit
  dsimp only at hread
  split at hread
  · cases hread
  · next hnotlow =>
    split at hread
    · next hhigh =>
      obtain ⟨low, ds', hds', hlow, rfl, hpair⟩ := readLow_eq_ok_iff.1 hread
      obtain ⟨hc, hn, hn'⟩ := (pairChar_eq_iff hhigh hlow).1 hpair
      rw [hn] at hds
      rw [hn'] at hds'
      exact ⟨ds ++ '\\' :: 'u' :: ds', .pair hc hds hds', by simp⟩
    · next hnothigh =>
      obtain ⟨rfl, rfl⟩ := Prod.mk.inj (Except.ok.inj hread)
      rw [isLowSurrogate_iff] at hnotlow
      rw [isHighSurrogate_iff] at hnothigh
      have hn : n < 0x10000 := hds.1
      have hvalid : n.isValidChar := by
        rw [Nat.isValidChar]
        omega
      refine ⟨ds, .unit ?_, rfl⟩
      rwa [Utf8.toNat_ofNat hvalid]

theorem readEscape_append {c : Char} {spelled : List Char} (h : SpellsChar c ('\\' :: spelled))
    (rest : List Char) : readEscape (spelled ++ rest) = .ok (c, rest) := by
  -- Cases on the spelling need it to be a variable.
  generalize hword : '\\' :: spelled = word at h
  cases h with
  | raw hc hquote hbackslash => exact absurd (List.cons.inj hword).1.symm hbackslash
  | letter hl =>
    rename_i l
    obtain rfl := (List.cons.inj hword).2
    have hne : l ≠ 'u' := by
      rintro rfl
      simp [letters] at hl
    rw [List.cons_append, readEscape, if_neg hne, escaped?_eq_some_iff.2 hl]
    rfl
  | unit hds =>
    obtain rfl := (List.cons.inj hword).2
    rw [List.cons_append, readEscape, if_pos rfl, readUnicode_unit hds]
  | pair hc hhigh hlow =>
    obtain rfl := (List.cons.inj hword).2
    rw [List.cons_append, readEscape, if_pos rfl, readUnicode_pair hc hhigh hlow]

theorem exists_of_readEscape {cs rest : List Char} {c : Char}
    (h : readEscape cs = .ok (c, rest)) :
    ∃ spelled, SpellsChar c ('\\' :: spelled) ∧ cs = spelled ++ rest := by
  rcases cs with _ | ⟨l, cs⟩
  · cases h
  · rw [readEscape] at h
    split at h
    · next hl =>
      obtain ⟨spelled, hspelled, rfl⟩ := exists_of_readUnicode h
      exact ⟨l :: spelled, hl ▸ hspelled, rfl⟩
    · split at h
      · next hl =>
        cases h
        exact ⟨[l], .letter (escaped?_eq_some_iff.1 hl), rfl⟩
      · cases h

/-! ## Strings -/

theorem readString_escape {cs rest : List Char} {c : Char} (h : readEscape cs = .ok (c, rest)) :
    readString ('\\' :: cs) = (readString rest).map fun p => (c :: p.1, p.2) := by
  rw [readString]
  split
  · next fault hfault =>
    rw [h] at hfault
    cases hfault
  · next d rest' hread =>
    rw [h] at hread
    obtain ⟨rfl, rfl⟩ := Prod.mk.inj (Except.ok.inj hread)
    rfl

theorem readString_raw {cs : List Char} {c : Char} (hc : 0x20 ≤ c.toNat) (hquote : c ≠ '"')
    (hbackslash : c ≠ '\\') :
    readString (c :: cs) = (readString cs).map fun p => (c :: p.1, p.2) := by
  rw [readString, if_neg (Nat.not_lt.2 hc)]
  · simpa using hquote
  · simpa using hbackslash

theorem SpellsChar.raw_or_escape {c : Char} {spelled : List Char} (h : SpellsChar c spelled) :
    (spelled = [c] ∧ 0x20 ≤ c.toNat ∧ c ≠ '"' ∧ c ≠ '\\') ∨
      ∃ escape, spelled = '\\' :: escape := by
  cases h with
  | raw hc hquote hbackslash => exact .inl ⟨rfl, hc, hquote, hbackslash⟩
  | letter h => exact .inr ⟨_, rfl⟩
  | unit h => exact .inr ⟨_, rfl⟩
  | pair hc hhigh hlow => exact .inr ⟨_, rfl⟩

theorem readString_append {s spelled : List Char} (h : Spells s spelled) (rest : List Char) :
    readString (spelled ++ '"' :: rest) = .ok (s, rest) := by
  induction h with
  | nil => rw [List.nil_append, readString]
  | cons hc hs ih =>
    rcases hc.raw_or_escape with ⟨rfl, hplain, hquote, hbackslash⟩ | ⟨escape, rfl⟩
    · rw [List.append_assoc, List.singleton_append, readString_raw hplain hquote hbackslash, ih]
      rfl
    · rw [List.append_assoc, List.cons_append, readString_escape (readEscape_append hc _), ih]
      rfl

theorem exists_of_readString {cs s rest : List Char} (h : readString cs = .ok (s, rest)) :
    ∃ spelled, Spells s spelled ∧ cs = spelled ++ '"' :: rest := by
  -- The cases are those of the reader: the end of the text, a closing quote, an escape that is
  -- refused or read, a control character, and any other character.
  induction cs using readString.induct generalizing s rest with
  | case1 =>
    rw [readString] at h
    cases h
  | case2 after =>
    rw [readString] at h
    cases h
    exact ⟨[], .nil, rfl⟩
  | case3 cs fault hfault =>
    rw [readString] at h
    split at h
    · cases h
    · next hread =>
      rw [hfault] at hread
      cases hread
  | case4 cs c after hread _ ih =>
    rw [readString_escape hread] at h
    obtain ⟨⟨t, rest'⟩, htail, hst⟩ := map_eq_ok_iff.1 h
    cases hst
    obtain ⟨more, hmore, rfl⟩ := ih htail
    obtain ⟨escape, hescape, rfl⟩ := exists_of_readEscape hread
    exact ⟨'\\' :: escape ++ more, .cons hescape hmore, by simp⟩
  | case5 c cs hquote hbackslash hcontrol =>
    rw [readString, if_pos hcontrol] at h
    · cases h
    · exact hquote
    · exact hbackslash
  | case6 c cs hquote hbackslash hplain ih =>
    rw [readString_raw (Nat.not_lt.1 hplain) hquote hbackslash] at h
    obtain ⟨⟨t, rest'⟩, htail, hst⟩ := map_eq_ok_iff.1 h
    cases hst
    obtain ⟨more, hmore, rfl⟩ := ih htail
    exact ⟨c :: more, .cons (.raw (Nat.not_lt.1 hplain) hquote hbackslash) hmore, rfl⟩

/-- **What is read after an opening quote** is the string that is spelled up to the closing one. -/
theorem readString_eq_ok_iff {cs s rest : List Char} :
    readString cs = .ok (s, rest) ↔ ∃ spelled, Spells s spelled ∧ cs = spelled ++ '"' :: rest := by
  constructor
  · intro h
    exact exists_of_readString h
  · rintro ⟨spelled, hs, rfl⟩
    exact readString_append hs rest

/-- A spelling ends at its closing quote, and spells one string. -/
theorem Spells.unique {s t spelled spelled' rest rest' : List Char} (hs : Spells s spelled)
    (ht : Spells t spelled') (h : spelled ++ '"' :: rest = spelled' ++ '"' :: rest') :
    s = t ∧ rest = rest' := by
  have hread := readString_append hs rest
  rw [h, readString_append ht] at hread
  obtain ⟨rfl, rfl⟩ := Prod.mk.inj (Except.ok.inj hread)
  exact ⟨rfl, rfl⟩

/-! ## Writing -/

theorem spellsUnit_control {n : Nat} (h : n < 0x20) :
    SpellsUnit n ('0' :: '0' :: Hex.encode [UInt8.ofNat n]) := by
  have hhigh : n / 0x100 = 0 := by omega
  have hlow : n % 0x100 = n := by omega
  refine ⟨by omega, ?_⟩
  rw [hhigh, hlow]
  exact Hex.decode_eq_some_iff.1 (Hex.decode_encode [0, UInt8.ofNat n])

theorem spellsChar_escape (c : Char) : SpellsChar c (escape c) := by
  rw [escape]
  -- The seven characters with an escape of their own.
  iterate 7
    split
    · next h => exact .letter (by simp [letters, h])
  split
  · next h => exact .unit (spellsUnit_control h)
  · next hquote hbackslash _ _ _ _ _ h => exact .raw (Nat.not_lt.1 h) hquote hbackslash

theorem spells_flatMap_escape (s : List Char) : Spells s (s.flatMap escape) := by
  induction s with
  | nil => exact .nil
  | cons c s ih => exact .cons (spellsChar_escape c) ih

end DateSpan.Json
