import DateSpan.Stream.Source

/-!
# Lines, without regard to how they are read

Bytes are split at each delimiter. All of the parts but the last come before a delimiter; they
are `ended`. The last one is `leftover`, and may be empty. `pieces_eq` says that the reader of
lines cuts at the same places.

The lines of bytes are the ended parts and what is left over, if anything is; a source that
breaks delivers the ended ones only (`Source.content_lines`). Two facts carry what is said of
lines elsewhere: bytes that come after a line feed have lines of their own (`linesOf_append`),
and lines that are put together are found again (`linesOf_unlines`).

Proofs go by `parts_induction`: either there is no delimiter, or there is a first one.
-/

namespace DateSpan.Stream

/-! ## Parts -/

/-- The parts that a delimiter comes after. -/
def ended (d : UInt8) (bytes : List UInt8) : List (List UInt8) := (bytes.splitOn d).dropLast

/-- What comes after the last delimiter. -/
def leftover (d : UInt8) (bytes : List UInt8) : List UInt8 := (bytes.splitOn d).getLastD []

/-- What is left over as a part, unless it is empty. -/
def unended (d : UInt8) (bytes : List UInt8) : List (List UInt8) :=
  if leftover d bytes = [] then [] else [leftover d bytes]

section
variable {d : UInt8} {body : List UInt8}

theorem parts_induction {motive : List UInt8 → Prop}
    (last : ∀ body, d ∉ body → motive body)
    (part : ∀ body rest, d ∉ body → motive rest → motive (body ++ d :: rest))
    (bytes : List UInt8) : motive bytes := by
  induction hn : bytes.length using Nat.strongRecOn generalizing bytes with
  | _ n ih =>
    by_cases h : d ∈ bytes
    · obtain ⟨body, rest, rfl, hbody⟩ := List.eq_append_cons_of_mem h
      have hlt : rest.length < n := by
        rw [← hn, List.length_append, List.length_cons]
        omega
      exact part body rest hbody (ih rest.length hlt rest rfl)
    · exact last bytes h

theorem ended_of_not_mem (h : d ∉ body) : ended d body = [] := by
  rw [ended, List.splitOn_eq_singleton h, List.dropLast_singleton]

theorem leftover_of_not_mem (h : d ∉ body) : leftover d body = body := by
  rw [leftover, List.splitOn_eq_singleton h]
  rfl

theorem unended_of_not_mem (h : d ∉ body) : unended d body = if body = [] then [] else [body] := by
  rw [unended, leftover_of_not_mem h]

/-- The parts before a delimiter are those of a text of their own, and so are those after it. -/
theorem ended_append_cons (bytes rest : List UInt8) :
    ended d (bytes ++ d :: rest) = bytes.splitOn d ++ ended d rest := by
  rw [ended, List.splitOn_append_cons_self,
    List.dropLast_append_of_ne_nil (List.splitOn_ne_nil d rest), ended]

theorem leftover_append_cons (bytes rest : List UInt8) :
    leftover d (bytes ++ d :: rest) = leftover d rest := by
  obtain ⟨init, last, hsplit⟩ : ∃ init last, rest.splitOn d = init ++ [last] :=
    ⟨_, _, (List.dropLast_concat_getLast (List.splitOn_ne_nil d rest)).symm⟩
  rw [leftover, leftover, List.splitOn_append_cons_self, hsplit, ← List.append_assoc,
    List.getLastD_concat, List.getLastD_concat]

theorem unended_append_cons (bytes rest : List UInt8) :
    unended d (bytes ++ d :: rest) = unended d rest := by
  rw [unended, leftover_append_cons, unended]

theorem ended_cons_of_not_mem (h : d ∉ body) (rest : List UInt8) :
    ended d (body ++ d :: rest) = body :: ended d rest := by
  rw [ended_append_cons, List.splitOn_eq_singleton h, List.singleton_append]

theorem not_mem_leftover (bytes : List UInt8) : d ∉ leftover d bytes := by
  induction bytes using parts_induction (d := d) with
  | last body h => rwa [leftover_of_not_mem h]
  | part body rest h ih => rwa [leftover_append_cons]

/-! ## Pieces -/

theorem pieces_of_not_mem (h : d ∉ body) : pieces d body = if body = [] then [] else [body] := by
  induction body with
  | nil => rfl
  | cons b body ih =>
    have hb : b ≠ d := fun he => h (by simp [he])
    rw [pieces_cons, ih fun hm => h (List.mem_cons_of_mem _ hm)]
    cases body with
    | nil => rfl
    | cons c body => simp [addByte, hb]

theorem pieces_append_cons (h : d ∉ body) (rest : List UInt8) :
    pieces d (body ++ d :: rest) = (body ++ [d]) :: pieces d rest := by
  induction body with
  | nil =>
    rw [List.nil_append, pieces_cons]
    cases pieces d rest with
    | nil => rfl
    | cons p ps => simp [addByte]
  | cons b body ih =>
    have hb : b ≠ d := fun he => h (by simp [he])
    rw [List.cons_append, pieces_cons, ih fun hm => h (List.mem_cons_of_mem _ hm)]
    simp [addByte, hb]

/-- **The reader cuts after each delimiter and nowhere else.** -/
theorem pieces_eq (d : UInt8) (bytes : List UInt8) :
    pieces d bytes = (ended d bytes).map (· ++ [d]) ++ unended d bytes := by
  induction bytes using parts_induction (d := d) with
  | last body h => rw [pieces_of_not_mem h, ended_of_not_mem h, unended_of_not_mem h]; rfl
  | part body rest h ih =>
    rw [pieces_append_cons h, ih, ended_cons_of_not_mem h, unended_append_cons]
    rfl

/-- Parts that are put together, each with a delimiter after it, are found again. -/
theorem ended_flatMap {ls : List (List UInt8)} (h : ∀ l ∈ ls, d ∉ l) :
    ended d (ls.flatMap (· ++ [d])) = ls ∧ unended d (ls.flatMap (· ++ [d])) = [] := by
  induction ls with
  | nil => exact ⟨rfl, rfl⟩
  | cons l ls ih =>
    have hl : d ∉ l := h l List.mem_cons_self
    obtain ⟨hended, hunended⟩ := ih fun m hm => h m (List.mem_cons_of_mem _ hm)
    rw [List.flatMap_cons, List.append_assoc, List.singleton_append]
    exact ⟨by rw [ended_cons_of_not_mem hl, hended], by rw [unended_append_cons, hunended]⟩

/-- What has arrived so far already fixes the parts that are ended in it. -/
theorem prefix_ended (d : UInt8) (bytes more : List UInt8) :
    ended d bytes <+: ended d (bytes ++ more) := by
  induction bytes using parts_induction (d := d) with
  | last body h =>
    rw [ended_of_not_mem h]
    exact List.nil_prefix
  | part body rest h ih =>
    rw [List.append_assoc, List.cons_append, ended_cons_of_not_mem h, ended_cons_of_not_mem h]
    exact (List.prefix_cons_inj body).2 ih

end

/-! ## Lines -/

/-- The lines of bytes, without their line feeds and a carriage return before these. -/
def linesOf (bytes : List UInt8) : List (List UInt8) :=
  (ended lineFeed bytes ++ unended lineFeed bytes).map (dropEnd carriageReturn)

/-- Lines with a line feed after each. -/
def unlines (ls : List (List UInt8)) : List UInt8 := ls.flatMap (· ++ [lineFeed])

/-- The lines that a line feed ends. -/
def endedLines (bytes : List UInt8) : List (List UInt8) :=
  (ended lineFeed bytes).map (dropEnd carriageReturn)

theorem dropEnd_of_not_mem {b : UInt8} {bytes : List UInt8} (h : b ∉ bytes) :
    dropEnd b bytes = bytes := by
  rw [dropEnd, if_neg fun he => h (List.mem_of_getLast? he)]

theorem dropEnd_concat (b : UInt8) (bytes : List UInt8) : dropEnd b (bytes ++ [b]) = bytes := by
  rw [dropEnd, if_pos List.getLast?_concat, List.dropLast_concat]

/-- What a part holds as a line. Only if the delimiter is the line feed may there be a carriage
return at its end that does not belong to it. -/
def lineOf (d : UInt8) (part : List UInt8) : List UInt8 :=
  if d = lineFeed then dropEnd carriageReturn part else part

theorem content_concat (d : UInt8) (body : List UInt8) :
    content d (body ++ [d]) = lineOf d body := by
  simp only [content, dropEnd_concat, lineOf]

theorem content_of_not_mem {d : UInt8} {body : List UInt8} (h : d ∉ body) :
    content d body = lineOf d body := by
  simp only [content, dropEnd_of_not_mem h, lineOf]

theorem not_mem_of_mem_unended {d : UInt8} {bytes : List UInt8} : ∀ l ∈ unended d bytes, d ∉ l := by
  intro l hl
  rw [unended] at hl
  split at hl
  · cases hl
  · rw [List.mem_singleton.1 hl]
    exact not_mem_leftover bytes

/-- A source delivers the ended parts, and what is left over only if it does not break. -/
theorem Source.whole_eq (d : UInt8) (s : Source) :
    s.whole d =
      (ended d s.bytes).map (· ++ [d]) ++ if s.broken then [] else unended d s.bytes := by
  rw [whole, pieces_eq]
  split
  · -- Only the ended pieces have a delimiter at their end.
    have hended : ((ended d s.bytes).map (· ++ [d])).filter
        (fun piece => piece.getLast? = some d) = (ended d s.bytes).map (· ++ [d]) := by
      rw [List.filter_eq_self]
      intro piece hp
      obtain ⟨body, -, rfl⟩ := List.mem_map.1 hp
      simp
    have hunended : (unended d s.bytes).filter (fun piece => piece.getLast? = some d) = [] := by
      rw [List.filter_eq_nil_iff]
      intro piece hp hlast
      exact not_mem_of_mem_unended piece hp (List.mem_of_getLast? (of_decide_eq_true hlast))
    rw [List.filter_append, hended, hunended]
  · rfl

/-- The line of a part that a delimiter comes after. It takes the delimiter too. -/
def Line.ofEnded (d : UInt8) (part : List UInt8) : Line := ⟨part.length + 1, lineOf d part⟩

/-- The line of a part that the bytes end with. -/
def Line.ofUnended (d : UInt8) (part : List UInt8) : Line := ⟨part.length, lineOf d part⟩

theorem Source.lines_eq (d : UInt8) (s : Source) :
    s.lines d =
      (ended d s.bytes).map (Line.ofEnded d) ++
        if s.broken then [] else (unended d s.bytes).map (Line.ofUnended d) := by
  have hended (part : List UInt8) :
      (⟨(part ++ [d]).length, content d (part ++ [d])⟩ : Line) = Line.ofEnded d part := by
    rw [content_concat, List.length_append, List.length_singleton, Line.ofEnded]
  have hunended : (unended d s.bytes).map (fun piece => ⟨piece.length, content d piece⟩) =
      (unended d s.bytes).map (Line.ofUnended d) := by
    refine List.map_congr_left fun part hpart => ?_
    rw [content_of_not_mem (not_mem_of_mem_unended part hpart), Line.ofUnended]
  rw [lines, whole_eq, List.map_append, List.map_map, ← hunended]
  congr 1
  · exact List.map_congr_left fun part _ => hended part
  · split <;> rfl

/-- **What a source delivers are the lines of its bytes**, or, if it breaks, those of them that
a line feed ends. -/
theorem Source.content_lines (s : Source) :
    (s.lines lineFeed).map Line.content =
      if s.broken then endedLines s.bytes else linesOf s.bytes := by
  have hended : Line.content ∘ Line.ofEnded lineFeed = dropEnd carriageReturn := rfl
  have hunended : Line.content ∘ Line.ofUnended lineFeed = dropEnd carriageReturn := rfl
  rw [lines_eq, List.map_append, List.map_map, hended]
  split
  · exact List.append_nil _
  · rw [List.map_map, hunended, linesOf, List.map_append]

/-- Bytes that end with a line feed, if they are there at all, keep their lines apart from those
of the bytes after them. -/
theorem linesOf_append {bytes : List UInt8} (h : bytes = [] ∨ bytes.getLast? = some lineFeed)
    (more : List UInt8) : linesOf (bytes ++ more) = linesOf bytes ++ linesOf more := by
  rcases h with rfl | h
  · rfl
  · obtain ⟨init, rfl⟩ := List.getLast?_eq_some_iff.1 h
    have hnil : ended lineFeed [] = [] ∧ unended lineFeed [] = [] := ⟨rfl, rfl⟩
    rw [List.append_assoc, List.singleton_append, linesOf, linesOf, linesOf, ended_append_cons,
      unended_append_cons, ended_append_cons, unended_append_cons, hnil.1, hnil.2,
      List.append_nil, List.append_nil, List.append_assoc, List.map_append]

theorem linesOf_unlines {ls : List (List UInt8)} (h : ∀ l ∈ ls, lineFeed ∉ l) :
    linesOf (unlines ls) = ls.map (dropEnd carriageReturn) := by
  obtain ⟨hended, hunended⟩ := ended_flatMap h
  rw [linesOf, unlines, hended, hunended, List.append_nil]

theorem linesOf_singleton {body : List UInt8} (h : lineFeed ∉ body) :
    linesOf (body ++ [lineFeed]) = [dropEnd carriageReturn body] := by
  have hone := linesOf_unlines (show ∀ l ∈ [body], lineFeed ∉ l by simpa using h)
  rwa [unlines, List.flatMap_singleton] at hone

/-- The lines that are ended in a first part of the bytes are the first lines of all of them. -/
theorem prefix_endedLines (bytes more : List UInt8) :
    endedLines bytes <+: linesOf (bytes ++ more) := by
  rw [endedLines, linesOf, List.map_append]
  exact ((prefix_ended lineFeed bytes more).map _).trans (List.prefix_append _ _)

end DateSpan.Stream
