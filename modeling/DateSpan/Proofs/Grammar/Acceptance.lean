import DateSpan.Proofs.Grammar.Direct
import DateSpan.Proofs.Grammar.Reading

/-!
# What is accepted, and what it stands for

The reader accepts a text exactly if the grammar derives it from dates that exist and bounds
that are in order, and it returns what the derivation denotes:

    parse_eq_ok_iff : Range.parse s = .ok r ↔ ∃ x, x.flatten = s.toList ∧ x.Denotes r

The two sides do not share a step. The reader looks for the brackets at both ends, cuts at the
first separator and rounds fields; the grammar has a tree, and the ends of the tree's period.
-/

namespace DateSpan

open Grammar

/-! ## What dates and bounds denote -/

theorem Grammar.IsEnd.unique {edge : Edge} {s : Set Int} {i j : Int} (hi : IsEnd edge s i)
    (hj : IsEnd edge s j) : i = j := by
  cases edge with
  | lower => exact IsLeast.unique hi hj
  | upper => exact IsGreatest.unique hi hj

/-- Rounding an instant gives the end of its own period. -/
theorem Precision.isEnd_round (p : Precision) (edge : Edge) {i : Int} (h : InCalendar i) :
    IsEnd edge (p.period (.ofInstant i)) (p.round edge i) := by
  cases edge with
  | lower => exact isLeast_roundDown p h
  | upper => exact isGreatest_roundUp p h

/-- Rounding the date of a tree gives the end of its period. -/
theorem Grammar.DateTree.isEnd_round {d : DateTree} (hd : d.Valid) (edge : Edge) :
    IsEnd edge d.period (d.precision.round edge d.dateTime.toInstant) := by
  have hend := d.precision.isEnd_round edge (DateTime.inCalendar_toInstant hd)
  rw [DateTime.ofInstant_toInstant hd] at hend
  exact hend

/-- **A bound is read exactly if the grammar derives it, as what the derivation denotes.** -/
theorem Bound.parse_eq_ok_iff {edge : Edge} {text : String} {b : Bound} :
    Bound.parse edge text = .ok b ↔
      ∃ x : BoundTree, x.flatten = text.toList ∧ x.Denotes edge b := by
  rw [Bound.parse]
  constructor
  · intro h
    split at h
    · next hstar =>
      cases h
      exact ⟨.star, hstar.symm, rfl⟩
    · split at h
      · next i p hread =>
        obtain ⟨d, hd, hv, rfl, rfl⟩ :=
          Precision.infer_eq_some_iff.1 (Precision.parse_eq_ok_iff.1 hread)
        obtain ⟨hin, rfl⟩ := exact_eq_ok_iff.1 h
        refine ⟨.date d, hd, hv, _, rfl, rfl, ?_⟩
        exact DateTree.isEnd_round hv edge
      · cases h
  · intro h
    rcases h with ⟨_ | d, hx, hden⟩
    · have hstar : text.toList = openMark := hx.symm
      rw [if_pos hstar, show b = .unbounded from hden]
    · obtain ⟨hv, m, rfl, hp, hend⟩ := hden
      -- The text of a date is not the star, which is a derivation of its own.
      have hne : text.toList ≠ openMark := by
        rw [← hx]
        intro he
        cases BoundTree.flatten_injective (show _ = BoundTree.star.flatten from he)
      have hround := IsEnd.unique hend (DateTree.isEnd_round hv edge)
      have hread : Precision.parse edge text = .ok (m.instant, m.precision) := by
        rw [Precision.parse_eq_ok_iff, Precision.infer_eq_some_iff]
        exact ⟨d, hx, hv, hp.symm, by rw [hround, hp]⟩
      rw [if_neg hne, hread]
      exact exact_eq_ok_iff.2 ⟨m.inCalendar, rfl⟩

namespace Range

theorem parseBound_eq_ok_iff {source : String} {offset : Nat} {edge : Edge} {cs : List Char}
    {b : Bound} :
    parseBound source offset edge cs = .ok b ↔
      ∃ x : BoundTree, x.flatten = cs ∧ x.Denotes edge b := by
  have hb := @Bound.parse_eq_ok_iff edge (String.ofList cs) b
  rw [String.toList_ofList] at hb
  rw [parseBound, ← hb]
  split <;> simp_all

/-- What follows an opening bracket is read exactly from two bounds, a separator between them
and a closing bracket. -/
theorem parseBrackets_eq_ok_iff {source : String} {inner : List Char} {r : Range} :
    parseBrackets source inner = .ok r ↔
      ∃ x y : BoundTree, '[' :: inner = (RangeTree.between x y).flatten ∧
        (RangeTree.between x y).Denotes r := by
  rw [parseBrackets]
  constructor
  · intro h
    split at h
    · cases h
    · next hlast =>
      -- The text ends in a bracket, and the rest is cut at a separator.
      obtain ⟨body, rfl⟩ := List.getLast?_eq_some_iff.1 (Decidable.not_not.1 hlast)
      rw [List.dropLast_concat] at h
      split at h
      · cases h
      · next before after hcut =>
        obtain ⟨l, hl, h⟩ := bind_eq_ok_iff.1 h
        obtain ⟨u, hu, h⟩ := bind_eq_ok_iff.1 h
        obtain ⟨hin, rfl⟩ := ofBounds_eq_ok_iff.1 h
        obtain ⟨x, rfl, hx⟩ := parseBound_eq_ok_iff.1 hl
        obtain ⟨y, rfl, hy⟩ := parseBound_eq_ok_iff.1 hu
        refine ⟨x, y, ?_, l, u, hin, hx, hy, rfl⟩
        rw [Text.eq_of_cut? hcut]
        rfl
  · intro h
    obtain ⟨x, y, hflat, l, u, hin, hx, hy, rfl⟩ := h
    obtain rfl := (List.cons.inj hflat).2
    rw [List.getLast?_concat, if_neg (by simp), List.dropLast_concat,
      show [' ', 'T', 'O', ' '] = separator from rfl, cut?_flatten]
    simp only [parseBound_eq_ok_iff.2 ⟨x, rfl, hx⟩, parseBound_eq_ok_iff.2 ⟨y, rfl, hy⟩, ok_bind]
    exact ofBounds_eq_ok_iff.2 ⟨hin, rfl⟩

/-- **A range is read exactly if the grammar derives it, as what the derivation denotes.** -/
theorem parse_eq_ok_iff {s : String} {r : Range} :
    Range.parse s = .ok r ↔ ∃ x : RangeTree, x.flatten = s.toList ∧ x.Denotes r := by
  rw [parse_eq, parseDirect]
  constructor
  · intro h
    split at h
    · next inner hs =>
      obtain ⟨x, y, hflat, hden⟩ := parseBrackets_eq_ok_iff.1 h
      exact ⟨.between x y, by rw [hs, hflat], hden⟩
    · obtain ⟨b, hb, h⟩ := bind_eq_ok_iff.1 h
      obtain ⟨x, hx, hden⟩ := parseBound_eq_ok_iff.1 hb
      cases h
      exact ⟨.single x, hx, b, hden, rfl⟩
  · intro h
    rcases h with ⟨b | ⟨x, y⟩, hflat, hden⟩
    · obtain ⟨b', hb, rfl⟩ := hden
      have hread : parseBound s 0 .lower s.toList = .ok b' :=
        parseBound_eq_ok_iff.2 ⟨b, hflat, hb⟩
      split
      · -- A single bound does not begin with a bracket.
        next inner hs =>
        have hb' : b.flatten = '[' :: inner := hflat.trans hs
        exact absurd (by rw [hb']; exact List.mem_cons_self) b.bracket_not_mem_flatten
      · rw [hread]
        rfl
    · split
      · next inner hs => exact parseBrackets_eq_ok_iff.2 ⟨x, y, by rw [← hs, hflat], hden⟩
      · next hno => exact absurd hflat.symm (hno _)

end Range

/-! ## Which derivations denote -/

namespace Grammar

theorem BoundTree.exists_denotes_iff {edge : Edge} {x : BoundTree} :
    (∃ b, x.Denotes edge b) ↔ x.Valid := by
  rcases x with _ | d
  · exact ⟨fun _ => trivial, fun _ => ⟨.unbounded, rfl⟩⟩
  · constructor
    · intro h
      obtain ⟨_, hv, -⟩ := h
      exact hv
    · intro hv
      have hin : InCalendar (d.precision.round edge d.dateTime.toInstant) :=
        Precision.inCalendar_round (DateTime.inCalendar_toInstant hv)
      refine ⟨.bounded ⟨_, d.precision, hin⟩, hv, _, rfl, rfl, ?_⟩
      exact DateTree.isEnd_round hv edge

/-- Bounds are in order as the periods of their dates are. -/
theorem inOrder_iff {x y : BoundTree} {l u : Bound} (hl : x.Denotes .lower l)
    (hu : y.Denotes .upper u) : l.InOrder u ↔ (RangeTree.between x y).InOrder := by
  rcases x with _ | d
  · obtain rfl : l = .unbounded := hl
    exact ⟨fun _ => trivial, fun _ => trivial⟩
  · obtain ⟨-, m, rfl, -, hm⟩ := hl
    rcases y with _ | e
    · obtain rfl : u = .unbounded := hu
      exact ⟨fun _ => trivial, fun _ => trivial⟩
    · obtain ⟨-, n, rfl, -, hn⟩ := hu
      constructor
      · intro hle i j hi hj
        rw [IsLeast.unique hi hm, IsGreatest.unique hj hn]
        exact hle
      · intro h
        exact h _ _ hm hn

theorem RangeTree.exists_denotes_iff {x : RangeTree} :
    (∃ r, x.Denotes r) ↔ x.Valid ∧ x.InOrder := by
  rcases x with b | ⟨x, y⟩
  · constructor
    · intro h
      obtain ⟨_, b', hb, -⟩ := h
      exact ⟨BoundTree.exists_denotes_iff.1 ⟨b', hb⟩, trivial⟩
    · intro h
      obtain ⟨hv, -⟩ := h
      obtain ⟨b', hb⟩ := BoundTree.exists_denotes_iff.2 hv
      exact ⟨_, b', hb, rfl⟩
  · constructor
    · intro h
      obtain ⟨_, l, u, hin, hl, hu, -⟩ := h
      refine ⟨⟨?_, ?_⟩, ?_⟩
      · exact BoundTree.exists_denotes_iff.1 ⟨l, hl⟩
      · exact BoundTree.exists_denotes_iff.1 ⟨u, hu⟩
      · exact (inOrder_iff hl hu).1 hin
    · intro h
      obtain ⟨⟨hx, hy⟩, hin⟩ := h
      obtain ⟨l, hl⟩ := BoundTree.exists_denotes_iff.2 hx
      obtain ⟨u, hu⟩ := BoundTree.exists_denotes_iff.2 hy
      exact ⟨_, l, u, (inOrder_iff hl hu).2 hin, hl, hu, rfl⟩

end Grammar

/-! ## The parser and the grammar -/

/-- Precision by precision, the texts that are read as dates are those that the grammar derives
from dates that exist. The edge has no say in it. -/
theorem Precision.exists_parse_iff {edge : Edge} {s : String} {p : Precision} :
    (∃ i, Precision.parse edge s = .ok (i, p)) ↔
      ∃ d : DateTree, d.flatten = s.toList ∧ d.Valid ∧ d.precision = p := by
  simp only [Precision.parse_eq_ok_iff, Precision.infer_eq_some_iff]
  constructor
  · intro h
    obtain ⟨_, d, hd, hv, hp, -⟩ := h
    exact ⟨d, hd, hv, hp⟩
  · intro h
    obtain ⟨d, hd, hv, hp⟩ := h
    exact ⟨_, d, hd, hv, hp, rfl⟩

/-- **The parser accepts exactly its grammar.** A text is a range if and only if the grammar
derives it from dates that exist, with bounds that are not inverted; it has one derivation at
most, and the range is what that derivation denotes. As for dates alone, both edges take the
same texts, at the same precision. -/
theorem Range.parse_iff_derives (s : String) :
    ((∃ r, Range.parse s = .ok r) ↔
      ∃ x : RangeTree, x.flatten = s.toList ∧ x.Valid ∧ x.InOrder) ∧
    (∀ x y : RangeTree, x.flatten = s.toList → y.flatten = s.toList → x = y) ∧
    (∀ x : RangeTree, x.flatten = s.toList → ∀ r, Range.parse s = .ok r ↔ x.Denotes r) ∧
    (∀ edge p, (∃ i, Precision.parse edge s = .ok (i, p)) ↔
      ∃ d : DateTree, d.flatten = s.toList ∧ d.Valid ∧ d.precision = p) := by
  have hunique {x y : RangeTree} (hx : x.flatten = s.toList) (hy : y.flatten = s.toList) :
      x = y := RangeTree.flatten_injective (hx.trans hy.symm)
  refine ⟨?_, fun x y => hunique, ?_, fun edge p => Precision.exists_parse_iff⟩
  · simp only [parse_eq_ok_iff, ← RangeTree.exists_denotes_iff]
    constructor
    · intro h
      obtain ⟨r, x, hx, hr⟩ := h
      exact ⟨x, hx, r, hr⟩
    · intro h
      obtain ⟨x, hx, r, hr⟩ := h
      exact ⟨r, x, hx, hr⟩
  · intro x hx r
    rw [parse_eq_ok_iff]
    constructor
    · intro h
      obtain ⟨y, hy, hr⟩ := h
      rw [hunique hx hy]
      exact hr
    · intro hr
      exact ⟨x, hx, hr⟩

/-- The 29th of February of a year in digits. -/
def Grammar.leapDay (year : List Char) (hd : ∀ c ∈ year, c.isDigit) (hl : 4 ≤ year.length) :
    DateTree where
  sign := .absent
  year := year
  parts := [['0', '2'], ['2', '9']]
  zone := false
  year_digits := hd
  year_length := hl
  parts_fit := .cons rfl (List.all_eq_true.1 rfl) (.cons rfl (List.all_eq_true.1 rfl) .nil)
  zone_hour := nofun

/-- The grammar derives both dates, but only one of them exists. -/
theorem Range.parse_leapDay :
    (∃ r, Range.parse "2012-02-29" = .ok r) ∧ ¬ ∃ r, Range.parse "2011-02-29" = .ok r := by
  constructor
  · let d := leapDay ['2', '0', '1', '2'] (List.all_eq_true.1 rfl) (by decide)
    let x := RangeTree.single (.date d)
    exact (parse_iff_derives "2012-02-29").1.2 ⟨x, rfl, (by decide : DateTime.Valid _), trivial⟩
  · let d := leapDay ['2', '0', '1', '1'] (List.all_eq_true.1 rfl) (by decide)
    let y := RangeTree.single (.date d)
    intro h
    obtain ⟨x, hx, hv, -⟩ := (parse_iff_derives "2011-02-29").1.1 h
    have heq : x = y := (parse_iff_derives "2011-02-29").2.1 x y hx rfl
    rw [heq] at hv
    exact absurd hv (by decide : ¬ DateTime.Valid _)

end DateSpan
