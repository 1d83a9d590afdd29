/-!
# Cutting a text at a separator
-/

namespace DateSpan.Text

/-- Dropping takes off a part that satisfies the predicate throughout. -/
theorem exists_append_dropWhile (p : Char → Bool) (cs : List Char) :
    ∃ before, cs = before ++ cs.dropWhile p ∧ ∀ c ∈ before, p c :=
  ⟨cs.takeWhile p, List.takeWhile_append_dropWhile.symm, List.all_eq_true.1 List.all_takeWhile⟩

/-- What comes before the first occurrence of a separator, and what comes after it. -/
def cut? (separator : List Char) : List Char → Option (List Char × List Char)
  | [] => none
  | c :: cs =>
    if separator.isPrefixOf (c :: cs) then some ([], (c :: cs).drop separator.length)
    else (cut? separator cs).map fun (before, after) => (c :: before, after)

theorem eq_of_cut? {separator cs before after : List Char}
    (h : cut? separator cs = some (before, after)) : cs = before ++ separator ++ after := by
  induction cs generalizing before with
  | nil => simp [cut?] at h
  | cons c cs ih =>
    rw [cut?] at h
    split at h
    · next hp =>
      cases h
      obtain ⟨rest, hr⟩ := List.isPrefixOf_iff_prefix.1 hp
      rw [List.nil_append, ← hr, List.drop_left]
    · obtain ⟨⟨b, a⟩, hb, he⟩ := Option.map_eq_some_iff.1 h
      cases he
      simp [ih hb]

/-- A text is cut right after a part that the separator cannot begin in. -/
theorem cut?_append {c : Char} {cs before : List Char} (h : c ∉ before) (after : List Char) :
    cut? (c :: cs) (before ++ (c :: cs) ++ after) = some (before, after) := by
  induction before with
  | nil =>
    have hp : (c :: cs).isPrefixOf (c :: (cs ++ after)) :=
      List.isPrefixOf_iff_prefix.2 (List.prefix_append (c :: cs) after)
    simp only [List.nil_append, List.cons_append, cut?, hp, if_true, Option.some.injEq,
      Prod.mk.injEq, true_and]
    show List.drop (c :: cs).length ((c :: cs) ++ after) = after
    exact List.drop_left
  | cons d before ih =>
    have hd : c ≠ d := fun he => h (by simp [he])
    have hp : ¬ (c :: cs).isPrefixOf (d :: (before ++ (c :: cs) ++ after)) := by
      simp [hd]
    have hb : c ∉ before := fun hc => h (List.mem_cons_of_mem _ hc)
    rw [List.cons_append, List.cons_append, cut?, if_neg hp, ih hb]
    rfl

/-- A cut is made wherever there is a separator. -/
theorem cut?_eq_none_iff {separator cs : List Char} (hne : separator ≠ []) :
    cut? separator cs = none ↔ ¬ separator <:+: cs := by
  induction cs with
  | nil => simp [cut?, hne]
  | cons c cs ih =>
    rw [cut?, List.infix_cons_iff, ← List.isPrefixOf_iff_prefix]
    split
    · next hp => simp [hp]
    · next hp => simp [hp, ih]

/-- The cut is made at the first separator. -/
theorem length_le_of_cut? {separator cs before after : List Char}
    (h : cut? separator cs = some (before, after)) {b a : List Char}
    (heq : cs = b ++ separator ++ a) : before.length ≤ b.length := by
  induction cs generalizing before b with
  | nil => simp [cut?] at h
  | cons c cs ih =>
    rw [cut?] at h
    split at h
    · cases h
      exact Nat.zero_le _
    · next hp =>
      obtain ⟨⟨before, after⟩, hcut, he⟩ := Option.map_eq_some_iff.1 h
      cases he
      rcases b with _ | ⟨d, b⟩
      · exact absurd (List.isPrefixOf_iff_prefix.2 ⟨a, heq.symm⟩) hp
      · exact Nat.succ_le_succ (ih hcut (List.cons.inj heq).2)

theorem cut?_eq_some_iff {separator cs before after : List Char} (hne : separator ≠ []) :
    cut? separator cs = some (before, after) ↔ cs = before ++ separator ++ after ∧
      ∀ b a, cs = b ++ separator ++ a → before.length ≤ b.length := by
  constructor
  · intro h
    exact ⟨eq_of_cut? h, fun _ _ => length_le_of_cut? h⟩
  · intro h
    obtain ⟨rfl, hfirst⟩ := h
    rcases hcut : cut? separator (before ++ separator ++ after) with _ | ⟨b, a⟩
    · exact absurd ⟨before, after, rfl⟩ ((cut?_eq_none_iff hne).1 hcut)
    · -- Neither of the two cuts comes before the other.
      have heq := eq_of_cut? hcut
      have hlen : before.length = b.length :=
        Nat.le_antisymm (hfirst b a heq) (length_le_of_cut? hcut rfl)
      rw [List.append_assoc, List.append_assoc] at heq
      obtain ⟨rfl, hrest⟩ := List.append_inj heq hlen
      rw [List.append_cancel_left hrest]

end DateSpan.Text
