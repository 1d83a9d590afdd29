import Mathlib.Data.List.Forall2
import DateSpan.Proofs.Data

/-!
# What the decoder answers

Bytes that are no encoding may be wrong in several ways at once, and the decoder reports one of
them. `Verdict` says which, for all bytes there are, and without reading them one after another: the
tag comes before the length, the length before what stands in the places of the moments, a lower
bound before an upper one, a precision before its instant, and the order of the bounds comes last.

    decode_eq_iff : decode bytes = x ↔ Verdict bytes x

Bytes of the length that the tag asks for are cut into `Slot`s of nine bytes, which leaves nothing
over and nothing to be missed. So the decoder never runs out of bytes in the middle of a moment.
-/

namespace DateSpan

/-! ## Tags -/

/-- Nothing is found under a byte above all tags that there are. -/
theorem find?_tag_eq_none {α : Type} {tag : α → UInt8} {last byte : UInt8}
    (hle : ∀ a, tag a ≤ last) (h : last < byte) (as : List α) :
    as.find? (fun a => tag a == byte) = none := by
  rw [List.find?_eq_none]
  intro a _ heq
  have hlast := hle a
  rw [beq_iff_eq.1 heq] at hlast
  exact absurd h (UInt8.not_lt.2 hlast)

theorem Layout.tag_le (l : Layout) : l.tag ≤ 5 := by
  cases l <;> decide

theorem Layout.exists_tag_eq {tag : UInt8} (h : tag ≤ 5) : ∃ l : Layout, l.tag = tag := by
  have hcases : tag = 0 ∨ tag = 1 ∨ tag = 2 ∨ tag = 3 ∨ tag = 4 ∨ tag = 5 := by grind
  rcases hcases with rfl | rfl | rfl | rfl | rfl | rfl
  · exact ⟨singleBounded, rfl⟩
  · exact ⟨closed, rfl⟩
  · exact ⟨openHigh, rfl⟩
  · exact ⟨openLow, rfl⟩
  · exact ⟨bothOpen, rfl⟩
  · exact ⟨singleUnbounded, rfl⟩

theorem Layout.ofTag_of_gt {tag : UInt8} (h : 5 < tag) : ofTag tag = .error (.unknownTag tag) := by
  rw [ofTag, find?_tag_eq_none tag_le h]

theorem Precision.tag_le (p : Precision) : p.tag ≤ 6 := by
  cases p <;> decide

theorem Precision.exists_tag_eq {tag : UInt8} (h : tag ≤ 6) : ∃ p : Precision, p.tag = tag := by
  have hcases : tag = 0 ∨ tag = 1 ∨ tag = 2 ∨ tag = 3 ∨ tag = 4 ∨ tag = 5 ∨ tag = 6 := by grind
  rcases hcases with rfl | rfl | rfl | rfl | rfl | rfl | rfl
  · exact ⟨year, rfl⟩
  · exact ⟨month, rfl⟩
  · exact ⟨day, rfl⟩
  · exact ⟨hour, rfl⟩
  · exact ⟨minute, rfl⟩
  · exact ⟨second, rfl⟩
  · exact ⟨millisecond, rfl⟩

theorem Precision.ofTag_of_gt {tag : UInt8} (h : 6 < tag) :
    ofTag tag = .error (.invalidArgument (.unknownPrecisionTag tag)) := by
  rw [ofTag, find?_tag_eq_none tag_le h]

namespace Wire

/-! ## Slots -/

/-- What stands in the place of a moment: an integer of 64 bits and a byte for its precision. -/
structure Slot where
  instant : Int
  tag : UInt8
  isWord : Data.IsWord instant

namespace Slot

def bytes (s : Slot) : List UInt8 := Int64.toBytes s.instant ++ [s.tag]

/-- The slot holds a moment. -/
def Is (s : Slot) (m : Moment) : Prop := s.instant = m.instant ∧ s.tag = m.precision.tag

@[simp] theorem length_bytes (s : Slot) : s.bytes.length = 9 := by simp [bytes]

theorem exists_is_iff {s : Slot} : (∃ m, s.Is m) ↔ s.tag ≤ 6 ∧ InCalendar s.instant := by
  constructor
  · intro h
    obtain ⟨m, hinstant, htag⟩ := h
    rw [hinstant, htag]
    exact ⟨m.precision.tag_le, m.inCalendar⟩
  · intro h
    obtain ⟨p, hp⟩ := Precision.exists_tag_eq h.1
    exact ⟨⟨s.instant, p, h.2⟩, rfl, hp.symm⟩

theorem Is.bytes_eq {s : Slot} {m : Moment} (h : s.Is m) : s.bytes = encodeBound (.bounded m) := by
  rw [bytes, h.1, h.2, encodeBound]

/-- Nine bytes are a slot. -/
theorem exists_bytes_eq {bs : List UInt8} (h : bs.length = 9) : ∃ s : Slot, s.bytes = bs := by
  obtain ⟨init, tag, rfl⟩ : ∃ init tag, bs = init ++ [tag] :=
    ⟨_, _, (List.dropLast_concat_getLast (List.ne_nil_of_length_eq_add_one h)).symm⟩
  have hinit : init.length = 8 := by simpa using h
  have hword : Data.IsWord (Int64.ofBytes init) := by
    have hle := @Int.le_bmod (bigEndianValue init) Int64.count (by decide)
    have hlt := @Int.bmod_lt (bigEndianValue init) Int64.count (by decide)
    unfold Int64.ofBytes Int64.count at *
    constructor <;> omega
  refine ⟨⟨Int64.ofBytes init, tag, hword⟩, ?_⟩
  rw [bytes, Int64.toBytes_ofBytes hinit]

/-- Bytes in multiples of nine are slots, with nothing left over. -/
theorem exists_flatMap_bytes_eq {n : Nat} {bs : List UInt8} (h : bs.length = 9 * n) :
    ∃ slots : List Slot, slots.length = n ∧ slots.flatMap bytes = bs := by
  induction n generalizing bs with
  | zero => exact ⟨[], rfl, (List.length_eq_zero_iff.1 h).symm⟩
  | succ n ih =>
    have htake : (bs.take 9).length = 9 := by rw [List.length_take]; omega
    have hdrop : (bs.drop 9).length = 9 * n := by rw [List.length_drop]; omega
    obtain ⟨s, hs⟩ := exists_bytes_eq htake
    obtain ⟨slots, hlen, hslots⟩ := ih hdrop
    refine ⟨s :: slots, by rw [List.length_cons, hlen], ?_⟩
    rw [List.flatMap_cons, hs, hslots, List.take_append_drop]

/-- Either all slots hold moments, or there is a first one that does not. -/
theorem forall₂_is_or_exists (slots : List Slot) :
    (∃ ms, List.Forall₂ Is slots ms) ∨
      ∃ before s after, slots = before ++ s :: after ∧ (∀ t ∈ before, ∃ m, t.Is m) ∧
        ¬ ∃ m, s.Is m := by
  induction slots with
  | nil => exact .inl ⟨[], .nil⟩
  | cons s slots ih =>
    by_cases hs : ∃ m, s.Is m
    · rcases ih with ⟨ms, hms⟩ | ⟨before, t, after, rfl, hbefore, ht⟩
      · obtain ⟨m, hm⟩ := hs
        exact .inl ⟨m :: ms, .cons hm hms⟩
      · refine .inr ⟨s :: before, t, after, rfl, ?_, ht⟩
        intro u hu
        rcases List.mem_cons.1 hu with rfl | hu
        · exact hs
        · exact hbefore u hu
    · exact .inr ⟨[], s, slots, rfl, by simp, hs⟩

end Slot

/-! ## Verdicts -/

/-- What is to be answered to some bytes. -/
inductive Verdict : List UInt8 → Except Error Range → Prop
  | empty : Verdict [] (.error (.truncated 1 0))
  | unknownTag {tag body} : 5 < tag → Verdict (tag :: body) (.error (.unknownTag tag))
  | truncated {l : Layout} {body} : body.length + 1 < 1 + 9 * l.momentCount →
      Verdict (l.tag :: body) (.error (.truncated (1 + 9 * l.momentCount) (body.length + 1)))
  | trailing {l : Layout} {body} : 1 + 9 * l.momentCount < body.length + 1 →
      Verdict (l.tag :: body) (.error (.invalidArgument
        (.trailingBytes (body.length + 1 - (1 + 9 * l.momentCount)))))
  /-- The first slot that holds no moment has a byte that stands for no precision. -/
  | precision {l : Layout} {before s after} : before.length + 1 + after.length = l.momentCount →
      (∀ t ∈ before, ∃ m, Slot.Is t m) → 6 < s.tag →
      Verdict (l.tag :: (before ++ s :: after).flatMap Slot.bytes)
        (.error (.invalidArgument (.unknownPrecisionTag s.tag)))
  /-- The first slot that holds no moment has a precision, but an instant without a date. -/
  | calendar {l : Layout} {before s after} : before.length + 1 + after.length = l.momentCount →
      (∀ t ∈ before, ∃ m, Slot.Is t m) → s.tag ≤ 6 → ¬ InCalendar s.instant →
      Verdict (l.tag :: (before ++ s :: after).flatMap Slot.bytes)
        (.error (.invalidArgument (.outsideCalendar s.instant)))
  | ordering {s t : Slot} {m n : Moment} : s.Is m → t.Is n → n.instant < m.instant →
      Verdict (Layout.closed.tag :: [s, t].flatMap Slot.bytes)
        (.error (.ordering (String.ofList m.text) (String.ofList n.text)))
  | range {slots : List Slot} {r : Range} : List.Forall₂ Slot.Is slots r.moments →
      Verdict ((Layout.of r).tag :: slots.flatMap Slot.bytes) (.ok r)

/-! ## The decoder, slot by slot -/

theorem takeBound_bytes (s : Slot) (rest : List UInt8) :
    takeBound (s.bytes ++ rest) = (do
      let p ← Precision.ofTag s.tag
      let bound ← Bound.exact s.instant p
      return (bound, rest)) := by
  have hlen : (Int64.toBytes s.instant).length = 8 := Int64.length_toBytes _
  have hdrop : (s.bytes ++ rest).drop 8 = s.tag :: rest := by
    rw [Slot.bytes, List.append_assoc, List.drop_left' hlen]
    rfl
  have htake : (s.bytes ++ rest).take 8 = Int64.toBytes s.instant := by
    rw [Slot.bytes, List.append_assoc, List.take_left' hlen]
  rw [takeBound, hdrop]
  simp only [htake, Int64.ofBytes_toBytes s.isWord.1 s.isWord.2]

theorem takeBound_of_is {s : Slot} {m : Moment} (h : s.Is m) (rest : List UInt8) :
    takeBound (s.bytes ++ rest) = .ok (.bounded m, rest) := by
  rw [h.bytes_eq, takeBound_encodeBound]

theorem takeBound_of_tag_gt {s : Slot} (h : 6 < s.tag) (rest : List UInt8) :
    takeBound (s.bytes ++ rest) = .error (.invalidArgument (.unknownPrecisionTag s.tag)) := by
  rw [takeBound_bytes, Precision.ofTag_of_gt h, error_bind]

theorem takeBound_of_not_inCalendar {s : Slot} (h : s.tag ≤ 6) (h' : ¬ InCalendar s.instant)
    (rest : List UInt8) :
    takeBound (s.bytes ++ rest) = .error (.invalidArgument (.outsideCalendar s.instant)) := by
  obtain ⟨p, hp⟩ := Precision.exists_tag_eq h
  rw [takeBound_bytes, ← hp, Precision.ofTag_tag, ok_bind, Bound.exact, dif_neg h', error_bind]

/-- A slot that cannot be read stops the reading of bounds, whatever comes after it. -/
theorem decodeBounds_of_takeBound_eq_error {l : Layout} {before after : List Slot} {s : Slot}
    {e : Error} (hlen : before.length + 1 + after.length = l.momentCount)
    (hbefore : ∀ t ∈ before, ∃ m, Slot.Is t m)
    (hs : ∀ rest, takeBound (s.bytes ++ rest) = .error e) :
    decodeBounds l ((before ++ s :: after).flatMap Slot.bytes) = .error e := by
  rcases before with _ | ⟨t, before⟩
  · rw [List.nil_append, List.flatMap_cons]
    cases l with
    | bothOpen => simp [Layout.momentCount] at hlen
    | singleUnbounded => simp [Layout.momentCount] at hlen
    | _ => rw [decodeBounds, hs, error_bind]
  · -- Only two slots leave room for one in front, and that one is read.
    rw [List.length_cons] at hlen
    cases l with
    | closed =>
      simp only [Layout.momentCount] at hlen
      obtain rfl : before = [] := List.length_eq_zero_iff.1 (by omega)
      obtain ⟨m, hm⟩ := hbefore t List.mem_cons_self
      rw [List.singleton_append, List.flatMap_cons, List.flatMap_cons, decodeBounds,
        takeBound_of_is hm, ok_bind]
      dsimp only
      rw [hs, error_bind]
    | _ =>
      simp only [Layout.momentCount] at hlen
      omega

theorem length_flatMap_bytes (slots : List Slot) :
    (slots.flatMap Slot.bytes).length = 9 * slots.length := by
  induction slots with
  | nil => rfl
  | cons s slots ih =>
    rw [List.flatMap_cons, List.length_append, Slot.length_bytes, ih, List.length_cons]
    omega

/-- Once the tag and the length are right, the slots decide. -/
theorem decode_slots {l : Layout} {slots : List Slot} (h : slots.length = l.momentCount) :
    decode (l.tag :: slots.flatMap Slot.bytes) = decodeBounds l (slots.flatMap Slot.bytes) := by
  have hlen : (l.tag :: slots.flatMap Slot.bytes).length = l.length := by
    rw [List.length_cons, length_flatMap_bytes, h, Layout.length, Layout.momentLength,
      Nat.add_comm]
  rw [decode, Layout.ofTag_tag, ok_bind, hlen, if_neg (Nat.lt_irrefl _),
    if_neg (Nat.lt_irrefl _)]

theorem decode_of_takeBound_eq_error {l : Layout} {before after : List Slot} {s : Slot}
    {e : Error} (hlen : before.length + 1 + after.length = l.momentCount)
    (hbefore : ∀ t ∈ before, ∃ m, Slot.Is t m)
    (hs : ∀ rest, takeBound (s.bytes ++ rest) = .error e) :
    decode (l.tag :: (before ++ s :: after).flatMap Slot.bytes) = .error e := by
  have hslots : (before ++ s :: after).length = l.momentCount := by
    rw [List.length_append, List.length_cons]
    omega
  rw [decode_slots hslots]
  exact decodeBounds_of_takeBound_eq_error hlen hbefore hs

theorem flatMap_bytes_of_is {slots : List Slot} {ms : List Moment}
    (h : List.Forall₂ Slot.Is slots ms) :
    slots.flatMap Slot.bytes = ms.flatMap fun m => encodeBound (.bounded m) := by
  induction h with
  | nil => rfl
  | cons hs _ ih => rw [List.flatMap_cons, List.flatMap_cons, hs.bytes_eq, ih]

theorem encodeBounds_eq (r : Range) :
    encodeBounds r = r.moments.flatMap fun m => encodeBound (.bounded m) := by
  rcases r with (_ | m) | ⟨_ | m, _ | n, _⟩ <;>
    simp [encodeBounds, encodeBound, Range.moments, Range.lower, Range.upper?, Bound.moment?]

/-! ## Every verdict is the decoder's -/

theorem Verdict.decode_eq {bytes : List UInt8} {x : Except Error Range} (h : Verdict bytes x) :
    decode bytes = x := by
  cases h with
  | empty => rfl
  | unknownTag htag => rw [decode, Layout.ofTag_of_gt htag, error_bind]
  | @truncated l body hlen =>
    have hshort : (l.tag :: body).length < l.length := hlen
    rw [decode, Layout.ofTag_tag, ok_bind, if_pos hshort]
    rfl
  | @trailing l body hlen =>
    have hlong : l.length < (l.tag :: body).length := hlen
    rw [decode, Layout.ofTag_tag, ok_bind, if_neg (Nat.lt_asymm hlong), if_pos hlong]
    rfl
  | precision hlen hbefore htag =>
    exact decode_of_takeBound_eq_error hlen hbefore (takeBound_of_tag_gt htag)
  | calendar hlen hbefore htag hout =>
    exact decode_of_takeBound_eq_error hlen hbefore (takeBound_of_not_inCalendar htag hout)
  | @ordering s t m n hs ht hlt =>
    have hinv : ¬ (Bound.bounded m).InOrder (.bounded n) := Int.not_le.2 hlt
    rw [decode_slots rfl, List.flatMap_cons, List.flatMap_cons, decodeBounds,
      takeBound_of_is hs, ok_bind]
    dsimp only
    rw [takeBound_of_is ht, ok_bind, Range.ofBounds, dif_neg hinv]
    rfl
  | range hslots => rw [flatMap_bytes_of_is hslots, ← encodeBounds_eq, ← encode, decode_encode]

/-! ## All bytes have a verdict -/

/-- As many moments as a layout has are those of a range, unless they are two in the wrong
order. -/
theorem exists_range_or_inverted {l : Layout} {ms : List Moment}
    (h : ms.length = l.momentCount) :
    (∃ r, Layout.of r = l ∧ r.moments = ms) ∨
      ∃ m n, l = .closed ∧ ms = [m, n] ∧ n.instant < m.instant := by
  cases l with
  | singleBounded =>
    obtain ⟨m, rfl⟩ := List.length_eq_one_iff.1 h
    exact .inl ⟨.single (.bounded m), rfl, rfl⟩
  | closed =>
    obtain ⟨m, n, rfl⟩ := List.length_eq_two.1 h
    by_cases hle : m.instant ≤ n.instant
    · exact .inl ⟨.between (.bounded m) (.bounded n) hle, rfl, rfl⟩
    · exact .inr ⟨m, n, rfl, rfl, Int.not_le.1 hle⟩
  | openHigh =>
    obtain ⟨m, rfl⟩ := List.length_eq_one_iff.1 h
    exact .inl ⟨.between (.bounded m) .unbounded trivial, rfl, rfl⟩
  | openLow =>
    obtain ⟨m, rfl⟩ := List.length_eq_one_iff.1 h
    exact .inl ⟨.between .unbounded (.bounded m) trivial, rfl, rfl⟩
  | bothOpen =>
    obtain rfl := List.length_eq_zero_iff.1 h
    exact .inl ⟨.between .unbounded .unbounded trivial, rfl, rfl⟩
  | singleUnbounded =>
    obtain rfl := List.length_eq_zero_iff.1 h
    exact .inl ⟨.single .unbounded, rfl, rfl⟩

theorem exists_verdict_of_slots {l : Layout} {slots : List Slot}
    (h : slots.length = l.momentCount) : ∃ x, Verdict (l.tag :: slots.flatMap Slot.bytes) x := by
  rcases Slot.forall₂_is_or_exists slots with ⟨ms, hms⟩ | ⟨before, s, after, rfl, hbefore, hs⟩
  · rcases exists_range_or_inverted (hms.length_eq.symm.trans h) with
      ⟨r, rfl, rfl⟩ | ⟨m, n, rfl, rfl, hlt⟩
    · exact ⟨_, .range hms⟩
    · rcases hms with _ | ⟨hm, _ | ⟨hn, _ | _⟩⟩
      exact ⟨_, .ordering hm hn hlt⟩
  · have hlen : before.length + 1 + after.length = l.momentCount := by
      rw [← h, List.length_append, List.length_cons]
      omega
    by_cases htag : s.tag ≤ 6
    · have hout : ¬ InCalendar s.instant := fun hin => hs (Slot.exists_is_iff.2 ⟨htag, hin⟩)
      exact ⟨_, .calendar hlen hbefore htag hout⟩
    · exact ⟨_, .precision hlen hbefore (UInt8.not_le.1 htag)⟩

theorem exists_verdict (bytes : List UInt8) : ∃ x, Verdict bytes x := by
  rcases bytes with _ | ⟨tag, body⟩
  · exact ⟨_, .empty⟩
  · by_cases htag : tag ≤ 5
    · obtain ⟨l, rfl⟩ := Layout.exists_tag_eq htag
      rcases Nat.lt_trichotomy (body.length + 1) (1 + 9 * l.momentCount) with hlt | heq | hgt
      · exact ⟨_, .truncated hlt⟩
      · have hbody : body.length = 9 * l.momentCount := by omega
        obtain ⟨slots, hlen, rfl⟩ := Slot.exists_flatMap_bytes_eq hbody
        exact exists_verdict_of_slots hlen
      · exact ⟨_, .trailing hgt⟩
    · exact ⟨_, .unknownTag (UInt8.not_le.1 htag)⟩

/-- The decoder answers what the verdict is. -/
theorem decode_eq_iff {bytes : List UInt8} {x : Except Error Range} :
    decode bytes = x ↔ Verdict bytes x := by
  constructor
  · rintro rfl
    obtain ⟨y, hy⟩ := exists_verdict bytes
    rw [hy.decode_eq]
    exact hy
  · intro h
    exact h.decode_eq

/-! ## Encodings cut short and run on -/

theorem length_encode_eq (r : Range) :
    (encode r).length = 1 + 9 * (Layout.of r).momentCount := length_encode r

theorem decode_of_prefix {r : Range} {bytes : List UInt8} (hne : bytes ≠ [])
    (h : bytes <+: encode r) (hproper : bytes ≠ encode r) :
    decode bytes = .error (.truncated (encode r).length bytes.length) := by
  have hlt : bytes.length < (encode r).length :=
    Nat.lt_of_le_of_ne h.length_le fun hlen => hproper (h.eq_of_length hlen)
  rw [length_encode_eq] at hlt ⊢
  rcases bytes with _ | ⟨tag, body⟩
  · exact absurd rfl hne
  · -- The tag is there, so the layout and the length to expect are known.
    obtain rfl := (List.cons_prefix_cons.1 h).1
    exact decode_eq_iff.2 (.truncated hlt)

theorem decode_encode_append (r : Range) {more : List UInt8} (h : more ≠ []) :
    decode (encode r ++ more) = .error (.invalidArgument (.trailingBytes more.length)) := by
  have hpos := List.length_pos_iff.2 h
  have hlen := length_encode_eq r
  rw [encode, List.length_cons] at hlen
  have hlong : 1 + 9 * (Layout.of r).momentCount < (encodeBounds r ++ more).length + 1 := by
    rw [List.length_append]
    omega
  have hverdict := Verdict.trailing hlong
  rw [decode_eq_iff, encode, List.cons_append]
  rw [List.length_append, show (encodeBounds r).length + more.length + 1 -
    (1 + 9 * (Layout.of r).momentCount) = more.length by omega] at hverdict
  exact hverdict

theorem eq_of_encode_prefix {r r' : Range} (h : encode r <+: encode r') : r = r' := by
  by_contra hne
  have hproper : encode r ≠ encode r' := by
    intro heq
    have hread := decode_encode r
    rw [heq, decode_encode] at hread
    exact hne (Except.ok.inj hread).symm
  -- A proper prefix is refused, but an encoding is read.
  have hread := decode_of_prefix (encode_ne_nil r) h hproper
  rw [decode_encode] at hread
  cases hread

/-- **Decoding is decided for all bytes.** The decoder answers the verdict. So the error for a
moment that is cut short, which asks for nine bytes, is never the answer. An encoding cut short
anywhere after its tag is refused with the length that it should have, and one that runs on is
refused for the bytes that follow; no encoding begins another. -/
theorem decode_decided :
    (∀ bytes x, decode bytes = x ↔ Verdict bytes x) ∧
    (∀ bytes n, decode bytes ≠ .error (.truncated Layout.momentLength n)) ∧
    (∀ (r : Range) bytes, bytes ≠ [] → bytes <+: encode r → bytes ≠ encode r →
      decode bytes = .error (.truncated (encode r).length bytes.length)) ∧
    (∀ (r : Range) more, more ≠ [] →
      decode (encode r ++ more) = .error (.invalidArgument (.trailingBytes more.length))) ∧
    (∀ r r' : Range, encode r <+: encode r' → r = r') := by
  refine ⟨fun bytes x => decode_eq_iff, ?_, fun r bytes => decode_of_prefix,
    fun r more => decode_encode_append r, fun r r' => eq_of_encode_prefix⟩
  intro bytes n h
  -- Only two verdicts are of this kind, and no layout has nine bytes.
  generalize hx :
    (Except.error (Error.truncated Layout.momentLength n) : Except Error Range) = x at h
  cases decode_eq_iff.1 h with
  | empty => cases hx
  | @truncated l body _ =>
    have hlen := Error.truncated.inj (Except.error.inj hx)
    rw [Layout.momentLength] at hlen
    omega
  | _ => cases hx

/-- The encoding of the last millisecond before the epoch, cut off after three of ten bytes. -/
theorem decode_decided_cut : decode [2, 255, 255] = .error (.truncated 10 3) :=
  decode_decided.2.2.1 (.between (.bounded ⟨-1, .minute, by decide⟩) .unbounded trivial)
    [2, 255, 255] (by decide) (by decide) (by decide)

end Wire

end DateSpan
