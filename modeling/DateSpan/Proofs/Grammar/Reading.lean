import Mathlib.Data.List.Forall2
import DateSpan.Proofs.Grammar

/-!
# Reading by patterns is reading by the grammar

A date is read by trying eleven patterns, each a list of items that take their characters off
the front of the text. The grammar knows no patterns. The bridge is one equivalence for each
step of the reader,

    read (items ++ pattern) t cs = some t' ↔
      ∃ digits and a rest, cs is made of them ∧ read pattern (t with the digits) rest = some t'

for the items of each field after the year (`ReadsAs`). Induction on the fields joins them
(`read_additions_iff`). The year comes first and has a step more, the conversion of its digits
to 32 bits, but a number that overflows is no year of the calendar in any case
(`parse_year_eq`). `inferAmong_eq_some_iff` says it for all patterns together: since the grammar
is unambiguous, the order in which they are tried does not matter.
-/

namespace DateSpan

open Grammar

/-! ## Digits -/

/-- A field of fixed width is read exactly from that many digits. -/
theorem Numeral.read_eq_some_iff {width n : Nat} {cs rest : List Char} :
    Numeral.read width cs = some (n, rest) ↔
      ∃ ds, cs = ds ++ rest ∧ ds.length = width ∧ (∀ c ∈ ds, c.isDigit) ∧ n = value ds := by
  rw [read]
  constructor
  · intro h
    split at h
    · next hd =>
      cases h
      refine ⟨cs.take width, ?_, hd.1, List.all_eq_true.1 hd.2, rfl⟩
      rw [List.take_append_drop]
    · cases h
  · intro h
    obtain ⟨ds, rfl, rfl, hd, rfl⟩ := h
    rw [List.take_left, List.drop_left, if_pos ⟨rfl, List.all_eq_true.2 hd⟩]

/-! ## Years -/

namespace Year

theorem takeSign_flatten (s : Sign) {c : Char} (h : c.isDigit) (cs : List Char) :
    takeSign (s.flatten ++ c :: cs) = (s.factor, c :: cs) := by
  cases s with
  | absent => exact takeSign_of_isDigit h cs
  | plus => rfl
  | minus => rfl

/-- A year is read exactly from a sign and all the digits after it, four or more, with a number
that the digits convert to. -/
theorem readWith_eq_some_iff {convert : List Char → Option Nat} {n : Int} {cs rest : List Char} :
    readWith convert cs = some (n, rest) ↔
      ∃ (s : Sign) (ds : List Char) (m : Nat), cs = s.flatten ++ (ds ++ rest) ∧
        (∀ c ∈ ds, c.isDigit) ∧ 4 ≤ ds.length ∧ (∀ c ∈ rest.head?, ¬ c.isDigit) ∧
        convert ds = some m ∧ n = s.factor * m := by
  constructor
  · intro h
    have hsign : ∃ s : Sign, cs = s.flatten ++ (takeSign cs).2 ∧ (takeSign cs).1 = s.factor := by
      unfold takeSign
      split
      · exact ⟨.minus, rfl, rfl⟩
      · exact ⟨.plus, rfl, rfl⟩
      · exact ⟨.absent, rfl, rfl⟩
    obtain ⟨s, hcs, hfactor⟩ := hsign
    simp only [readWith, hfactor] at h
    split at h
    · next hl =>
      obtain ⟨m, hm, he⟩ := Option.map_eq_some_iff.1 h
      cases he
      refine ⟨s, (takeSign cs).2.takeWhile Char.isDigit, m, ?_, List.all_eq_true.1 List.all_takeWhile,
        hl, ?_, hm, rfl⟩
      · rw [List.takeWhile_append_dropWhile]
        exact hcs
      · intro c hc
        have hstop := List.head?_dropWhile_not Char.isDigit (takeSign cs).2
        rw [Option.mem_def.1 hc] at hstop
        simp [hstop]
    · cases h
  · intro h
    obtain ⟨s, ds, m, rfl, hd, hl, hr, hm, rfl⟩ := h
    obtain ⟨htake, hdrop⟩ := span_digits hd hr
    have hsign : takeSign (s.flatten ++ (ds ++ rest)) = (s.factor, ds ++ rest) := by
      cases ds with
      | nil => simp at hl
      | cons d ds => exact takeSign_flatten s (hd d List.mem_cons_self) (ds ++ rest)
    simp only [readWith, hsign, htake, hdrop, if_pos hl, hm, Option.map_some]

theorem number?_eq_some_iff {ds : List Char} {n : Nat} :
    number? ds = some n ↔ Numeral.value ds < 0x80000000 ∧ Numeral.value ds = n := by
  simp [number?]

/-- The years of the calendar are far from overflowing. -/
theorem number?_of_valid {t : DateTime} (ht : t.Valid) {s : Sign} {ds : List Char}
    (h : t.year = s.factor * Numeral.value ds) : number? ds = some (Numeral.value ds) := by
  have hfirst : -262143 ≤ t.year := ht.year_ge
  have hlast : t.year ≤ 262142 := ht.year_le
  have hsign : t.year = Numeral.value ds ∨ t.year = -(Numeral.value ds : Int) := by
    cases s
    · exact .inl (by rw [h, Sign.factor, Int.one_mul])
    · exact .inl (by rw [h, Sign.factor, Int.one_mul])
    · exact .inr (by rw [h, Sign.factor, Int.neg_one_mul])
  rw [number?_eq_some_iff]
  omega

end Year

/-! ## Items -/

namespace Pattern

theorem read_cons_iff {item : Item} {pattern : Pattern} {t t' : DateTime} {cs : List Char} :
    read (item :: pattern) t cs = some t' ↔
      ∃ u rest, item.read t cs = some (u, rest) ∧ read pattern u rest = some t' := by
  rw [read]
  constructor
  · intro h
    split at h
    · next u rest hi => exact ⟨u, rest, hi, h⟩
    · cases h
  · intro h
    obtain ⟨u, rest, hi, h⟩ := h
    rw [hi]
    exact h

theorem read_mark_iff {c : Char} {pattern : Pattern} {t t' : DateTime} {cs : List Char} :
    read (.mark c :: pattern) t cs = some t' ↔
      ∃ rest, cs = c :: rest ∧ read pattern t rest = some t' := by
  rw [read_cons_iff]
  rcases cs with _ | ⟨d, cs⟩
  · simp [Item.read]
  · by_cases hd : d = c <;> simp [Item.read, hd]

/-- An item that is not the year leaves the year alone. -/
theorem Item.year_of_read {item : Item} (hne : item ≠ .year) {t u : DateTime}
    {cs rest : List Char} (h : item.read t cs = some (u, rest)) : u.year = t.year := by
  cases item with
  | year => exact absurd rfl hne
  | mark c =>
    rcases cs with _ | ⟨d, cs⟩
    · cases h
    · simp only [Item.read, Option.ite_none_right_eq_some] at h
      obtain ⟨-, he⟩ := h
      cases he
      rfl
  | milli =>
    simp only [Item.read] at h
    split at h
    · obtain ⟨_, -, he⟩ := Option.map_eq_some_iff.1 h
      cases he
      rfl
    · cases h
  | _ =>
    obtain ⟨_, -, he⟩ := Option.map_eq_some_iff.1 h
    cases he
    rfl

theorem year_of_read {pattern : Pattern} (hno : .year ∉ pattern) {t t' : DateTime}
    {cs : List Char} (h : read pattern t cs = some t') : t'.year = t.year := by
  induction pattern generalizing t cs with
  | nil =>
    cases cs with
    | nil => cases h; rfl
    | cons c cs => cases h
  | cons item pattern ih =>
    obtain ⟨hitem, hrest⟩ := not_or.1 (mt List.mem_cons.2 hno)
    obtain ⟨u, rest, hread, h⟩ := read_cons_iff.1 h
    rw [ih hrest h, Item.year_of_read (Ne.symm hitem) hread]

/-- **The conversion of the year changes nothing.** Digits that overflow are the year of no date,
so that a pattern which begins with the year reads the same dates with all numbers allowed. -/
theorem parse_year_eq {pattern : Pattern} (hno : .year ∉ pattern) (cs : List Char) :
    parse (.year :: pattern) cs =
      ((Year.readWith (some ∘ Numeral.value) cs).bind fun r =>
        read pattern { DateTime.epoch with year := r.1 } r.2).filter fun t => t.Valid := by
  ext t
  simp only [parse_eq_some_iff, read_cons_iff, Item.read, Year.read, Option.map_eq_some_iff,
    Option.filter_eq_some_iff, Option.bind_eq_some_iff, decide_eq_true_eq, Prod.exists,
    Prod.mk.injEq, Year.readWith_eq_some_iff]
  constructor
  · rintro ⟨⟨_, _, ⟨_, rest, ⟨s, ds, m, hcs, hd, hl, hr, hm, rfl⟩, rfl, rfl⟩, h⟩, ht⟩
    obtain ⟨-, rfl⟩ := Year.number?_eq_some_iff.1 hm
    exact ⟨⟨_, rest, ⟨s, ds, _, hcs, hd, hl, hr, rfl, rfl⟩, h⟩, ht⟩
  · rintro ⟨⟨_, rest, ⟨s, ds, m, hcs, hd, hl, hr, hm, rfl⟩, h⟩, ht⟩
    cases hm
    have hnumber := Year.number?_of_valid ht (year_of_read hno h)
    exact ⟨⟨_, _, ⟨_, rest, ⟨s, ds, _, hcs, hd, hl, hr, hnumber, rfl⟩, rfl, rfl⟩, h⟩, ht⟩

theorem parse_year_iff {pattern : Pattern} (hno : .year ∉ pattern) {cs : List Char}
    {t : DateTime} :
    parse (.year :: pattern) cs = some t ↔
      (∃ (s : Sign) (ds rest : List Char), cs = s.flatten ++ (ds ++ rest) ∧
        (∀ c ∈ ds, c.isDigit) ∧ 4 ≤ ds.length ∧ (∀ c ∈ rest.head?, ¬ c.isDigit) ∧
        read pattern { DateTime.epoch with year := s.factor * Numeral.value ds } rest = some t) ∧
      t.Valid := by
  simp only [parse_year_eq hno, Option.filter_eq_some_iff, Option.bind_eq_some_iff,
    decide_eq_true_eq, Prod.exists, Year.readWith_eq_some_iff]
  refine and_congr_left fun _ => ?_
  constructor
  · rintro ⟨_, rest, ⟨s, ds, m, hcs, hd, hl, hr, hm, rfl⟩, h⟩
    cases hm
    exact ⟨s, ds, rest, hcs, hd, hl, hr, h⟩
  · rintro ⟨s, ds, rest, hcs, hd, hl, hr, h⟩
    exact ⟨_, rest, ⟨s, ds, _, hcs, hd, hl, hr, rfl, rfl⟩, h⟩

/-- Items that take the digits of one place, after its character, and put their value into a
date. -/
def ReadsAs (items : Pattern) (p : Place) (put : Nat → DateTime → DateTime) : Prop :=
  ∀ (pattern : Pattern) (t t' : DateTime) (cs : List Char),
    read (items ++ pattern) t cs = some t' ↔
      ∃ ds rest, cs = p.mark :: ds ++ rest ∧ ds.length = p.width ∧ (∀ c ∈ ds, c.isDigit) ∧
        read pattern (put (Numeral.value ds) t) rest = some t'

/-- A field of fixed width, after a character. -/
theorem readsAs_mark {item : Item} {c : Char} {width : Nat} {put : Nat → DateTime → DateTime}
    (h : ∀ t cs, item.read t cs =
      (Numeral.read width cs).map fun (n, rest) => (put n t, rest)) :
    ReadsAs [.mark c, item] ⟨c, width⟩ put := by
  intro pattern t t' cs
  rw [List.cons_append, List.cons_append, List.nil_append, read_mark_iff]
  simp only [read_cons_iff, h, Option.map_eq_some_iff, Prod.exists, Prod.mk.injEq,
    Numeral.read_eq_some_iff]
  constructor
  · intro h
    obtain ⟨_, rfl, _, _, ⟨_, rest, ⟨ds, rfl, hl, hd, rfl⟩, rfl, rfl⟩, hr⟩ := h
    exact ⟨ds, rest, rfl, hl, hd, hr⟩
  · intro h
    obtain ⟨ds, rest, rfl, hl, hd, hr⟩ := h
    exact ⟨_, rfl, _, _, ⟨_, rest, ⟨ds, rfl, hl, hd, rfl⟩, rfl, rfl⟩, hr⟩

/-- The milliseconds bring their point along. -/
theorem readsAs_milli : ReadsAs [.milli] ⟨'.', 3⟩ fun n t => { t with milli := n } := by
  intro pattern t t' cs
  simp only [List.cons_append, List.nil_append, read_cons_iff]
  constructor
  · intro h
    obtain ⟨u, rest, hi, hr⟩ := h
    -- The item reads nothing but a text that starts with a point.
    rcases cs with _ | ⟨d, cs⟩
    · simp [Item.read] at hi
    · by_cases hd : d = '.'
      · simp only [hd, Item.read, Option.map_eq_some_iff, Prod.exists, Prod.mk.injEq,
          Numeral.read_eq_some_iff] at hi
        obtain ⟨_, _, ⟨ds, rfl, hl, hds, rfl⟩, rfl, rfl⟩ := hi
        exact ⟨ds, _, by rw [hd], hl, hds, hr⟩
      · simp [Item.read, hd] at hi
  · intro h
    obtain ⟨ds, rest, rfl, hl, hd, hr⟩ := h
    refine ⟨_, rest, ?_, hr⟩
    have hn : Numeral.read 3 (ds ++ rest) = some (Numeral.value ds, rest) :=
      Numeral.read_eq_some_iff.2 ⟨ds, rfl, hl, hd, rfl⟩
    simp only [Item.read, hn, Option.map_some]

/-! ## The fields after the year -/

/-- Puts the value of a precision's field into a date. -/
def put : Precision → Nat → DateTime → DateTime
  | .year, n, t => { t with year := n }
  | .month, n, t => { t with month := n }
  | .day, n, t => { t with day := n }
  | .hour, n, t => { t with hour := n }
  | .minute, n, t => { t with minute := n }
  | .second, n, t => { t with second := n }
  | .millisecond, n, t => { t with milli := n }

/-- Puts the values of several fields into a date. -/
def putAll : List Precision → List (List Char) → DateTime → DateTime
  | q :: qs, ds :: parts, t => putAll qs parts (put q (Numeral.value ds) t)
  | _, _, t => t

/-- The precisions finer than the year, coarsest first. -/
def finer : List Precision := [.month, .day, .hour, .minute, .second, .millisecond]

/-- What a precision adds to a pattern takes the digits of its place in the grammar. -/
theorem readsAs_addition :
    List.Forall₂ (fun p q => ReadsAs (Precision.addition q) p (put q)) places finer :=
  .cons (readsAs_mark fun _ _ => rfl) <| .cons (readsAs_mark fun _ _ => rfl) <|
    .cons (readsAs_mark fun _ _ => rfl) <| .cons (readsAs_mark fun _ _ => rfl) <|
    .cons (readsAs_mark fun _ _ => rfl) <| .cons readsAs_milli .nil

/-- The fields are read one after another, each from the digits of its place. -/
theorem read_additions_iff {ps : List Place} {qs : List Precision}
    (h : List.Forall₂ (fun p q => ReadsAs (Precision.addition q) p (put q)) ps qs)
    (more : List Place) (pattern : Pattern) (t t' : DateTime) (cs : List Char) :
    read (qs.flatMap Precision.addition ++ pattern) t cs = some t' ↔
      ∃ parts rest, parts.length = qs.length ∧ Fits (ps ++ more) parts ∧
        cs = flattenParts (ps ++ more) parts ++ rest ∧
        read pattern (putAll qs parts t) rest = some t' := by
  induction h generalizing t cs with
  | nil =>
    constructor
    · intro hr
      exact ⟨[], cs, rfl, .nil, by simp, hr⟩
    · intro h
      obtain ⟨parts, rest, hl, -, rfl, hr⟩ := h
      -- No fields are asked for, so there are no groups of digits.
      obtain rfl := List.length_eq_zero_iff.1 hl
      simpa [putAll] using hr
  | @cons p q ps qs hq _ ih =>
    rw [List.flatMap_cons, List.append_assoc, hq]
    -- The first group goes with the first place, the rest is the induction hypothesis.
    constructor
    · intro h
      obtain ⟨ds, _, rfl, hw, hd, hr⟩ := h
      obtain ⟨parts, rest, hl, hf, rfl, hr'⟩ := (ih _ _).1 hr
      exact ⟨ds :: parts, rest, by simp [hl], .cons hw hd hf, by simp, hr'⟩
    · intro h
      obtain ⟨parts, rest, hl, hf, rfl, hr⟩ := h
      cases hf with
      | nil => simp at hl
      | @cons _ _ ds parts hw hd hf =>
        refine ⟨ds, flattenParts (ps ++ more) parts ++ rest, by simp, hw, hd, ?_⟩
        apply (ih _ _).2
        exact ⟨parts, rest, by simpa using hl, hf, rfl, hr⟩

/-- Nothing more is read, or one `Z`. -/
def zoneItems (zone : Bool) : Pattern := if zone then [.mark 'Z'] else []

theorem read_zoneItems_iff {zone : Bool} {t t' : DateTime} {cs : List Char} :
    read (zoneItems zone) t cs = some t' ↔ cs = flattenZone zone ∧ t = t' := by
  have hnil {cs : List Char} : read [] t cs = some t' ↔ cs = [] ∧ t = t' := by
    cases cs <;> simp [read]
  cases zone
  · exact hnil
  · simp [zoneItems, flattenZone, read_mark_iff, hnil]

end Pattern

/-! ## Whole patterns -/

theorem Grammar.length_le_of_fits {ps : List Place} {parts : List (List Char)}
    (h : Fits ps parts) : parts.length ≤ ps.length := by
  induction h with
  | nil => simp
  | cons _ _ _ ih => simpa using ih

namespace Grammar.DateTree

theorem rank_precision (d : DateTree) : d.precision.rank = d.parts.length := by
  have hl : d.parts.length ≤ 6 := length_le_of_fits d.parts_fit
  have hcases : d.parts.length = 0 ∨ d.parts.length = 1 ∨ d.parts.length = 2 ∨
      d.parts.length = 3 ∨ d.parts.length = 4 ∨ d.parts.length = 5 ∨ d.parts.length = 6 := by
    omega
  rcases hcases with h | h | h | h | h | h | h <;> simp [precision, h, Precision.rank]

/-- The date of a tree is the epoch with the fields of the tree put into it. -/
theorem dateTime_eq (d : DateTree) :
    d.dateTime = Pattern.putAll (Pattern.finer.take d.parts.length) d.parts
      { DateTime.epoch with year := d.sign.factor * Numeral.value d.year } := by
  have hl : d.parts.length ≤ 6 := length_le_of_fits d.parts_fit
  simp only [dateTime, part]
  generalize d.parts = parts at hl ⊢
  rcases parts with _ | ⟨_, _ | ⟨_, _ | ⟨_, _ | ⟨_, _ | ⟨_, _ | ⟨_, _ | ⟨_, parts⟩⟩⟩⟩⟩⟩⟩
  case cons.cons.cons.cons.cons.cons.cons =>
    simp only [List.length_cons] at hl
    omega
  all_goals rfl

end Grammar.DateTree

namespace Precision

open Pattern

theorem stem_eq (p : Precision) :
    p.stem = .year :: (finer.take p.rank).flatMap addition := by
  cases p <;> rfl

theorem mem_candidates_iff_mem_patterns {p : Precision} {pattern : Pattern} :
    (p, pattern) ∈ candidates ↔ pattern ∈ p.patterns := by
  simp [candidates, mem_all]

theorem mem_candidates_iff {p : Precision} {pattern : Pattern} :
    (p, pattern) ∈ candidates ↔
      ∃ zone : Bool, (zone → 3 ≤ p.rank) ∧ pattern = p.stem ++ zoneItems zone := by
  rw [mem_candidates_iff_mem_patterns]
  cases p <;> simp [patterns, rank, zoneItems, or_comm]

/-- One pattern reads the dates of its precision, with or without a `Z`. -/
theorem parse_stem_eq_some_iff {p : Precision} {zone : Bool} (hz : zone → 3 ≤ p.rank)
    {cs : List Char} {t : DateTime} :
    Pattern.parse (p.stem ++ zoneItems zone) cs = some t ↔
      ∃ d : DateTree, d.flatten = cs ∧ d.precision = p ∧ d.zone = zone ∧ d.dateTime = t ∧
        d.Valid := by
  have hreads := List.forall₂_take p.rank readsAs_addition
  have hlen : (finer.take p.rank).length = p.rank := by cases p <;> rfl
  have hread := read_additions_iff hreads (places.drop p.rank) (zoneItems zone)
  rw [List.take_append_drop, hlen] at hread
  have hno : .year ∉ (finer.take p.rank).flatMap addition ++ zoneItems zone := by
    cases p <;> cases zone <;> decide
  rw [stem_eq, List.cons_append, parse_year_iff hno]
  simp only [hread, read_zoneItems_iff]
  constructor
  · intro h
    obtain ⟨⟨s, ds, _, rfl, hd, hl, -, parts, _, hp, hf, rfl, rfl, rfl⟩, hv⟩ := h
    -- What was read makes up the tree: a sign, the digits of the year, the other groups.
    have hz' : zone → 3 ≤ parts.length := hp ▸ hz
    have hdate := DateTree.dateTime_eq ⟨s, ds, parts, zone, hd, hl, hf, hz'⟩
    have hrank := DateTree.rank_precision ⟨s, ds, parts, zone, hd, hl, hf, hz'⟩
    rw [← hp] at hv ⊢
    refine ⟨⟨s, ds, parts, zone, hd, hl, hf, hz'⟩, rfl, rank_inj.1 (hrank.trans hp), rfl, hdate, ?_⟩
    rw [DateTree.Valid, hdate]
    exact hv
  · intro h
    obtain ⟨d, rfl, rfl, rfl, rfl, hv⟩ := h
    refine ⟨⟨d.sign, d.year, d.rest, rfl, d.year_digits, d.year_length,
      d.not_isDigit_head_rest, d.parts, _, d.rank_precision.symm, d.parts_fit, rfl, rfl, ?_⟩, hv⟩
    rw [d.dateTime_eq, d.rank_precision]

/-! ## All patterns together -/

theorem inferAmong_eq_some {cands : List (Precision × Pattern)} {edge : Edge} {cs : List Char}
    {i : Int} {p : Precision} (h : inferAmong cands edge cs = some (i, p)) :
    ∃ pattern t, (p, pattern) ∈ cands ∧ pattern.parse cs = some t ∧
      i = p.round edge t.toInstant := by
  obtain ⟨⟨q, pattern⟩, hmem, hq⟩ := List.exists_of_findSome?_eq_some h
  obtain ⟨t, ht, he⟩ := Option.map_eq_some_iff.1 hq
  cases he
  exact ⟨pattern, t, hmem, ht, rfl⟩

/-- **A date is read exactly if the grammar derives it and it exists**, at the precision of its
last field and at the end of its period that the edge asks for. Nothing depends on the order in
which the patterns are tried. -/
theorem inferAmong_eq_some_iff {cands : List (Precision × Pattern)}
    (hcands : ∀ c, c ∈ cands ↔ c ∈ candidates) {edge : Edge} {cs : List Char} {i : Int}
    {p : Precision} :
    inferAmong cands edge cs = some (i, p) ↔
      ∃ d : DateTree, d.flatten = cs ∧ d.Valid ∧ d.precision = p ∧
        i = p.round edge d.dateTime.toInstant := by
  have sound {i : Int} {p : Precision} (h : inferAmong cands edge cs = some (i, p)) :
      ∃ d : DateTree, d.flatten = cs ∧ d.Valid ∧ d.precision = p ∧
        i = p.round edge d.dateTime.toInstant := by
    obtain ⟨pattern, t, hmem, ht, rfl⟩ := inferAmong_eq_some h
    obtain ⟨zone, hz, rfl⟩ := mem_candidates_iff.1 ((hcands _).1 hmem)
    obtain ⟨d, hd, hp, -, rfl, hv⟩ := (parse_stem_eq_some_iff hz).1 ht
    exact ⟨d, hd, hv, hp, rfl⟩
  refine ⟨sound, ?_⟩
  intro h
  obtain ⟨d, rfl, hv, rfl, rfl⟩ := h
  -- Its own pattern reads the date, so some pattern does, and that one finds the same tree.
  have hz : d.zone → 3 ≤ d.precision.rank := by
    rw [d.rank_precision]
    exact d.zone_hour
  have hmem := (hcands _).2 (mem_candidates_iff.2 ⟨d.zone, hz, rfl⟩)
  have hparse := (parse_stem_eq_some_iff hz).2 ⟨d, rfl, rfl, rfl, rfl, hv⟩
  have hsome : (inferAmong cands edge d.flatten).isSome := by
    rw [inferAmong, List.findSome?_isSome_iff]
    exact ⟨_, hmem, by simp [hparse]⟩
  obtain ⟨⟨j, q⟩, hfound⟩ := Option.isSome_iff_exists.1 hsome
  obtain ⟨e, he, -, rfl, rfl⟩ := sound hfound
  rw [hfound, DateTree.flatten_injective he]

theorem infer_eq_some_iff {edge : Edge} {cs : List Char} {i : Int} {p : Precision} :
    infer edge cs = some (i, p) ↔
      ∃ d : DateTree, d.flatten = cs ∧ d.Valid ∧ d.precision = p ∧
        i = p.round edge d.dateTime.toInstant :=
  inferAmong_eq_some_iff fun _ => Iff.rfl

end Precision

end DateSpan
