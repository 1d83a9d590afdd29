import DateSpan.Proofs.Grammar.Reading
import DateSpan.Proofs.Rounding

/-!
# The precision of a text

The precision of a date is found by trying eleven patterns one after the other, until one of them
reads the text. That this is a search is nowhere to be seen in what it finds. No text is read by
two of the patterns (`eq_of_parse_eq_some`), for a text has one derivation at most, and the
derivation has the pattern: its precision, and whether there is a `Z`. So the patterns may be tried
in any order.

Nor does the search depend on the edge, which only moves the instant that was found to the other
end of its period: `infer_eq_map`.
-/

namespace DateSpan.Precision

open Grammar Pattern

/-- A text is read by one pattern at most, as a date of one precision. -/
theorem eq_of_parse_eq_some {c c' : Precision × Pattern} (hc : c ∈ candidates)
    (hc' : c' ∈ candidates) {cs : List Char} {t t' : DateTime} (h : c.2.parse cs = some t)
    (h' : c'.2.parse cs = some t') : c = c' := by
  obtain ⟨p, pattern⟩ := c
  obtain ⟨p', pattern'⟩ := c'
  obtain ⟨zone, hz, rfl⟩ := mem_candidates_iff.1 hc
  obtain ⟨zone', hz', rfl⟩ := mem_candidates_iff.1 hc'
  obtain ⟨d, hd, rfl, rfl, -, -⟩ := (parse_stem_eq_some_iff hz).1 h
  obtain ⟨e, he, rfl, rfl, -, -⟩ := (parse_stem_eq_some_iff hz').1 h'
  rw [DateTree.flatten_injective (hd.trans he.symm)]

/-- Trying the same patterns in another order finds the same. -/
theorem inferAmong_eq_infer {cands : List (Precision × Pattern)}
    (hcands : ∀ c, c ∈ cands ↔ c ∈ candidates) (edge : Edge) (cs : List Char) :
    inferAmong cands edge cs = infer edge cs := by
  apply Option.ext
  rintro ⟨i, p⟩
  rw [inferAmong_eq_some_iff hcands, infer_eq_some_iff]

/-- The patterns, with the precisions in one order and the patterns of each in another, are those
that are tried. -/
theorem mem_flatMap_forms_iff {order : List Precision} {forms : Precision → List Pattern}
    (horder : order.Perm all) (hforms : ∀ p, (forms p).Perm p.patterns)
    (c : Precision × Pattern) :
    c ∈ order.flatMap (fun p => (forms p).map fun f => (p, f)) ↔ c ∈ candidates := by
  simp only [candidates, List.mem_flatMap, List.mem_map, horder.mem_iff, (hforms _).mem_iff]

/-- From one end of the period to the other. -/
theorem infer_eq_map (edge edge' : Edge) (cs : List Char) :
    infer edge' cs =
      (infer edge cs).map fun found => (found.2.round edge' found.1, found.2) := by
  apply Option.ext
  rintro ⟨j, p⟩
  simp only [Option.map_eq_some_iff, Prod.exists, Prod.mk.injEq, infer_eq_some_iff]
  constructor
  · intro h
    obtain ⟨d, hd, hv, rfl, rfl⟩ := h
    exact ⟨_, _, ⟨d, hd, hv, rfl, rfl⟩, round_round _ _ _ _, rfl⟩
  · intro h
    obtain ⟨_, _, ⟨d, hd, hv, rfl, rfl⟩, rfl, rfl⟩ := h
    exact ⟨d, hd, hv, rfl, round_round _ _ _ _⟩

/-- **Inference does not depend on the search order.** Of the eleven patterns, which are all
different, one at most reads a given text. So the answer is the same if the patterns are tried in
another order: any list of the same patterns will do, and in particular the precisions in any order
with the patterns of each in any order. Both edges take the same texts, at the same precision, and
the two instants are the ends of one period: each is the other one rounded. -/
theorem infer_order_irrelevant :
    (candidates.length = 11 ∧ candidates.Nodup ∧
      ∀ (cs : List Char), ∀ c ∈ candidates, ∀ c' ∈ candidates, ∀ t t' : DateTime,
        c.2.parse cs = some t → c'.2.parse cs = some t' → c = c') ∧
    (∀ cands : List (Precision × Pattern), (∀ c, c ∈ cands ↔ c ∈ candidates) →
      ∀ edge cs, inferAmong cands edge cs = infer edge cs) ∧
    (∀ (order : List Precision) (forms : Precision → List Pattern), order.Perm all →
      (∀ p, (forms p).Perm p.patterns) → ∀ edge cs,
        inferAmong (order.flatMap fun p => (forms p).map fun f => (p, f)) edge cs =
          infer edge cs) ∧
    (∀ cs : List Char,
      infer .lower cs = (infer .upper cs).map (fun found => (found.2.roundDown found.1, found.2)) ∧
      infer .upper cs = (infer .lower cs).map (fun found => (found.2.roundUp found.1, found.2))) := by
  refine ⟨⟨by decide, by decide, ?_⟩, ?_, ?_, ?_⟩
  · intro cs c hc c' hc' t t' h h'
    exact eq_of_parse_eq_some hc hc' h h'
  · intro cands hcands edge cs
    exact inferAmong_eq_infer hcands edge cs
  · intro order forms horder hforms edge cs
    exact inferAmong_eq_infer (mem_flatMap_forms_iff horder hforms) edge cs
  · intro cs
    exact ⟨infer_eq_map .upper .lower cs, infer_eq_map .lower .upper cs⟩

/-- A month is found, and its last instant, with the coarsest precision tried first. -/
theorem infer_order_irrelevant_coarsest_first :
    all.reverse.Perm all ∧
      inferAmong (all.reverse.flatMap fun p => p.patterns.map fun f => (p, f)) .upper
        ['2', '0', '1', '2', '-', '0', '2'] = some (1330559999999, month) := by
  have hperm : all.reverse.Perm all := List.reverse_perm all
  refine ⟨hperm, ?_⟩
  rw [infer_order_irrelevant.2.2.1 all.reverse patterns hperm fun p => .refl _]
  decide +kernel

end DateSpan.Precision
