import DateSpan.Proofs.Stream.Lines

/-!
# Reading line by line

`Source.lines` has all lines of a source at once. A program asks for one line after another, until
it is given one that has taken no bytes. `Source.readAll` is that loop over `Source.read`, and
`readAll_eq` says that it comes upon the same lines, and then upon the end of the source or its
fault.

The second half is about what the lines keep of the bytes. `parts` are the lines before a carriage
return is taken off; put together they are the bytes again, up to a delimiter at the end
(`intercalate_parts`). So nothing but such a carriage return can be missing from the lines, and
`forall_parts_iff` says where in the bytes one stands.
-/

namespace DateSpan.Stream

/-! ## One line after another -/

namespace Source

variable {d : UInt8} {body rest : List UInt8} {broken : Bool} {s s' : Source} {line : Line}

/-- Reading takes the bytes off the front. -/
theorem length_read (h : s.read d = .ok (line, s')) :
    line.consumed + s'.bytes.length = s.bytes.length := by
  rw [read] at h
  split at h
  · cases h
  · cases h
    rw [← List.length_append, List.take_append_drop]

/-- Reads lines until one of them has taken no bytes, or until there is a fault. -/
def readAll (d : UInt8) (s : Source) : List Line × Option Fault :=
  match _h : s.read d with
  | .error fault => ([], some fault)
  | .ok (line, s') =>
    if _hn : line.consumed = 0 then ([], none)
    else (s'.readAll d).map (line :: ·) id
termination_by s.bytes.length
decreasing_by
  have hlength := length_read _h
  omega

theorem readAll_of_error {fault : Fault} (h : s.read d = .error fault) :
    s.readAll d = ([], some fault) := by
  rw [readAll]
  split
  · next heq =>
    cases h.symm.trans heq
    rfl
  · next heq => cases h.symm.trans heq

theorem readAll_of_ok (h : s.read d = .ok (line, s')) :
    s.readAll d =
      if line.consumed = 0 then ([], none) else (s'.readAll d).map (line :: ·) id := by
  rw [readAll]
  split
  · next heq => cases h.symm.trans heq
  · next heq =>
    cases h.symm.trans heq
    rfl

theorem read_append_cons (h : d ∉ body) :
    read d ⟨body ++ d :: rest, broken⟩ = .ok (Line.ofEnded d body, ⟨rest, broken⟩) := by
  have hmem : d ∈ body ++ d :: rest := List.mem_append_right body List.mem_cons_self
  have hidx : (body ++ d :: rest).idxOf d = body.length := by
    rw [List.idxOf_append, if_neg h, List.idxOf_cons_self, Nat.zero_add]
  have hpiece : (body ++ d :: rest).take (body.length + 1) = body ++ [d] := by
    rw [List.take_length_add_append]
    rfl
  have hrest : (body ++ d :: rest).drop (body.length + 1) = rest := by
    rw [List.drop_length_add_append]
    rfl
  rw [read, if_neg fun hb => hb.2 hmem]
  simp only [hidx, hpiece, hrest, List.length_append, List.length_singleton, content_concat,
    Line.ofEnded]

theorem read_of_not_mem (h : d ∉ body) : read d ⟨body, true⟩ = .error .sourceBroken := by
  rw [read, if_pos ⟨rfl, h⟩]

theorem read_rest (h : d ∉ body) :
    read d ⟨body, false⟩ = .ok (Line.ofUnended d body, ⟨[], false⟩) := by
  have hidx : body.idxOf d = body.length := List.idxOf_eq_length h
  have hpiece : body.take (body.length + 1) = body := List.take_of_length_le (Nat.le_succ _)
  have hrest : body.drop (body.length + 1) = [] := List.drop_of_length_le (Nat.le_succ _)
  rw [read, if_neg fun hb => Bool.false_ne_true hb.1]
  simp only [hidx, hpiece, hrest, content_of_not_mem h, Line.ofUnended]

theorem readAll_nil (d : UInt8) : readAll d ⟨[], false⟩ = ([], none) := by
  rw [readAll_of_ok (read_rest List.not_mem_nil)]
  rfl

/-- **Reading line by line comes upon the lines of the source**, and then upon its end or its
fault. -/
theorem readAll_eq (d : UInt8) (s : Source) : s.readAll d = (s.lines d, s.ending) := by
  obtain ⟨bytes, broken⟩ := s
  induction bytes using parts_induction (d := d) with
  | last body h =>
    rw [lines_eq, ended_of_not_mem h, unended_of_not_mem h]
    cases broken with
    | true => rw [readAll_of_error (read_of_not_mem h)]; rfl
    | false =>
      -- What is left is a line, and then there is none; unless nothing is left.
      cases body with
      | nil => exact readAll_nil d
      | cons b body => rw [readAll_of_ok (read_rest h), readAll_nil]; rfl
  | part body rest h ih =>
    have htook : (Line.ofEnded d body).consumed ≠ 0 := Nat.succ_ne_zero _
    rw [readAll_of_ok (read_append_cons h), if_neg htook, ih, lines_eq, lines_eq,
      ended_cons_of_not_mem h, unended_append_cons]
    rfl

end Source

/-! ## What the lines keep -/

section
variable {d : UInt8} {body : List UInt8}

/-- The parts of bytes, with what is left over at the end. -/
def parts (d : UInt8) (bytes : List UInt8) : List (List UInt8) := ended d bytes ++ unended d bytes

theorem parts_of_not_mem (h : d ∉ body) : parts d body = if body = [] then [] else [body] := by
  rw [parts, ended_of_not_mem h, unended_of_not_mem h, List.nil_append]

theorem parts_append_cons (h : d ∉ body) (rest : List UInt8) :
    parts d (body ++ d :: rest) = body :: parts d rest := by
  rw [parts, ended_cons_of_not_mem h, unended_append_cons, List.cons_append, parts]

theorem not_mem_of_mem_parts (bytes : List UInt8) : ∀ part ∈ parts d bytes, d ∉ part := by
  induction bytes using parts_induction (d := d) with
  | last body h =>
    rw [parts_of_not_mem h]
    split
    · exact fun part hpart => absurd hpart List.not_mem_nil
    · exact fun part hpart => List.mem_singleton.1 hpart ▸ h
  | part body rest h ih =>
    rw [parts_append_cons h]
    exact List.forall_mem_cons.2 ⟨h, ih⟩

theorem parts_eq_nil_iff {bytes : List UInt8} : parts d bytes = [] ↔ bytes = [] := by
  induction bytes using parts_induction (d := d) with
  | last body h =>
    rw [parts_of_not_mem h]
    split <;> simp [*]
  | part body rest h ih => simp [parts_append_cons h]

theorem length_ended (bytes : List UInt8) : (ended d bytes).length = bytes.count d := by
  induction bytes using parts_induction (d := d) with
  | last body h => rw [ended_of_not_mem h, List.count_eq_zero_of_not_mem h, List.length_nil]
  | part body rest h ih =>
    rw [ended_cons_of_not_mem h, List.length_cons, ih, List.count_append,
      List.count_eq_zero_of_not_mem h, List.count_cons_self, Nat.zero_add]

/-- Nothing is left over after a delimiter. -/
theorem leftover_eq_nil_iff {bytes : List UInt8} :
    leftover d bytes = [] ↔ bytes = [] ∨ bytes.getLast? = some d := by
  induction bytes using parts_induction (d := d) with
  | last body h =>
    have hlast : body.getLast? ≠ some d := fun he => h (List.mem_of_getLast? he)
    rw [leftover_of_not_mem h, or_iff_left hlast]
  | part body rest h ih =>
    rw [leftover_append_cons, ih]
    cases rest <;> simp

theorem length_unended (bytes : List UInt8) :
    (unended d bytes).length = if bytes = [] ∨ bytes.getLast? = some d then 0 else 1 := by
  simp only [unended, leftover_eq_nil_iff]
  split <;> rfl

theorem dropEnd_append_of_ne_nil {bytes : List UInt8} (h : bytes ≠ []) (b : UInt8)
    (init : List UInt8) : dropEnd b (init ++ bytes) = init ++ dropEnd b bytes := by
  have hlast : (init ++ bytes).getLast? = bytes.getLast? := by
    rw [List.getLast?_append, List.getLast?_eq_some_getLast h, Option.some_or]
  rw [dropEnd, dropEnd, hlast, List.dropLast_append_of_ne_nil h]
  split <;> rfl

theorem dropEnd_eq_self_iff {b : UInt8} {bytes : List UInt8} :
    dropEnd b bytes = bytes ↔ bytes.getLast? ≠ some b := by
  rw [dropEnd]
  split
  case isTrue hlast =>
    obtain ⟨init, rfl⟩ := List.getLast?_eq_some_iff.1 hlast
    simp
  case isFalse hlast => simp [hlast]

theorem ne_nil_of_mem_unended {bytes : List UInt8} : ∀ part ∈ unended d bytes, part ≠ [] := by
  intro part hpart
  rw [unended] at hpart
  split at hpart
  · cases hpart
  · rwa [List.mem_singleton.1 hpart]

/-- **The parts put together are the bytes**, up to a delimiter at the end. -/
theorem intercalate_parts (bytes : List UInt8) :
    [d].intercalate (parts d bytes) = dropEnd d bytes := by
  induction bytes using parts_induction (d := d) with
  | last body h =>
    rw [parts_of_not_mem h, dropEnd_of_not_mem h]
    split <;> simp [*]
  | part body rest h ih =>
    rw [parts_append_cons h]
    cases rest with
    | nil => rw [parts_eq_nil_iff.2 rfl, List.intercalate_singleton, dropEnd_concat]
    | cons b rest =>
      have hparts : parts d (b :: rest) ≠ [] := mt parts_eq_nil_iff.1 (List.cons_ne_nil b rest)
      rw [List.intercalate_cons_of_ne_nil hparts, ih, List.append_cons body d (b :: rest),
        dropEnd_append_of_ne_nil (List.cons_ne_nil b rest)]

/-- Parts in which there is no delimiter can be told from what is put together of them. -/
theorem intercalate_injective {ls ms : List (List UInt8)} (hlength : ls.length = ms.length)
    (hl : ∀ l ∈ ls, d ∉ l) (hm : ∀ m ∈ ms, d ∉ m)
    (h : [d].intercalate ls = [d].intercalate ms) : ls = ms := by
  by_cases hls : ls = []
  · subst hls
    exact (List.eq_nil_of_length_eq_zero hlength.symm).symm
  · have hms : ms ≠ [] := fun he => hls (List.eq_nil_of_length_eq_zero (by rw [hlength, he]; rfl))
    rw [← List.splitOn_intercalate d hl hls, h, List.splitOn_intercalate d hm hms]

theorem infix_append_cons_iff {c : UInt8} (hc : c ≠ d) (h : d ∉ body) (rest : List UInt8) :
    [c, d] <:+: body ++ d :: rest ↔ body.getLast? = some c ∨ [c, d] <:+: rest := by
  induction body with
  | nil => simp [List.infix_cons_iff, hc]
  | cons b body ih =>
    have hbody := (List.ne_and_not_mem_of_not_mem_cons h).2
    rw [List.cons_append, List.infix_cons_iff, ih hbody, ← or_assoc]
    refine or_congr_left ?_
    cases body with
    | nil => simp [eq_comm]
    | cons b' body =>
      have hb' : d ≠ b' := (List.ne_and_not_mem_of_not_mem_cons hbody).1
      simp [hb']

/-- A byte ends none of the parts if it stands neither before a delimiter nor at the end. -/
theorem forall_parts_iff {c : UInt8} (hc : c ≠ d) (bytes : List UInt8) :
    (∀ part ∈ parts d bytes, part.getLast? ≠ some c) ↔
      ¬([c, d] <:+: bytes ∨ bytes.getLast? = some c) := by
  induction bytes using parts_induction (d := d) with
  | last body h =>
    have hinfix : ¬[c, d] <:+: body := fun hi => h (hi.subset (by simp))
    rw [parts_of_not_mem h, or_iff_right hinfix]
    split <;> simp [*]
  | part body rest h ih =>
    have hlast : (body ++ d :: rest).getLast? = some c ↔ rest.getLast? = some c := by
      cases rest <;> simp [Ne.symm hc]
    rw [parts_append_cons h, List.forall_mem_cons, ih, infix_append_cons_iff hc h, hlast, or_assoc,
      ← not_or]

theorem not_mem_lineOf {part : List UInt8} (h : d ∉ part) : d ∉ lineOf d part := by
  rw [lineOf]
  split
  · rw [dropEnd]
    split
    · exact fun hm => h (List.dropLast_subset part hm)
    · exact h
  · exact h

/-- **Lines put together are the bytes**, up to a delimiter at the end, unless a carriage return was
taken off. -/
theorem intercalate_lineOf_iff (bytes : List UInt8) :
    [d].intercalate ((parts d bytes).map (lineOf d)) = dropEnd d bytes ↔
      ¬(d = lineFeed ∧
        ([carriageReturn, lineFeed] <:+: bytes ∨ bytes.getLast? = some carriageReturn)) := by
  have hparts := not_mem_of_mem_parts (d := d) bytes
  have hlines : ∀ l ∈ (parts d bytes).map (lineOf d), d ∉ l :=
    List.forall_mem_map.2 fun part hpart => not_mem_lineOf (hparts part hpart)
  have hself : [d].intercalate ((parts d bytes).map (lineOf d)) = dropEnd d bytes ↔
      ∀ part ∈ parts d bytes, lineOf d part = part := by
    rw [← intercalate_parts]
    constructor
    · intro h
      have hmap := intercalate_injective (List.length_map _) hlines hparts h
      exact List.map_inj_left.1 (hmap.trans (List.map_id _).symm)
    · intro h
      rw [List.map_congr_left h, List.map_id']
  rw [hself]
  by_cases hd : d = lineFeed
  · subst hd
    have hne : carriageReturn ≠ lineFeed := by decide
    simp only [lineOf, if_pos, dropEnd_eq_self_iff, true_and, forall_parts_iff hne]
  · simp [lineOf, hd]

theorem flatMap_ended_append (bytes : List UInt8) :
    (ended d bytes).flatMap (· ++ [d]) ++ (unended d bytes).flatten = bytes := by
  have hpieces := flatten_pieces d bytes
  rwa [pieces_eq, List.flatten_append] at hpieces

/-- What breaks off takes the parts after it away and no others. -/
theorem ended_take (bytes : List UInt8) (n : Nat) :
    ended d (bytes.take n) = (ended d bytes).take ((bytes.take n).count d) := by
  have hprefix := prefix_ended d (bytes.take n) (bytes.drop n)
  rw [List.take_append_drop] at hprefix
  rw [← length_ended]
  exact List.prefix_iff_eq_take.1 hprefix

end

namespace Source

variable {d : UInt8}

theorem lines_ofBytes (d : UInt8) (bytes : List UInt8) :
    (ofBytes bytes none).lines d =
      (ended d bytes).map (Line.ofEnded d) ++ (unended d bytes).map (Line.ofUnended d) :=
  lines_eq d _

theorem lines_ofBytes_take (d : UInt8) (bytes : List UInt8) (n : Nat) :
    (ofBytes bytes (some n)).lines d = (ended d (bytes.take n)).map (Line.ofEnded d) :=
  (lines_eq d _).trans (List.append_nil _)

theorem of_mem_lines {bytes : List UInt8} {line : Line}
    (h : line ∈ (ofBytes bytes none).lines d) : 0 < line.consumed ∧ d ∉ line.content := by
  rw [lines_ofBytes, List.mem_append, List.mem_map, List.mem_map] at h
  rcases h with ⟨part, hpart, rfl⟩ | ⟨part, hpart, rfl⟩
  · have hmem : d ∉ part := not_mem_of_mem_parts bytes part (List.mem_append_left _ hpart)
    exact ⟨Nat.succ_pos _, not_mem_lineOf hmem⟩
  · have hmem : d ∉ part := not_mem_of_mem_unended part hpart
    exact ⟨List.length_pos_iff.2 (ne_nil_of_mem_unended part hpart), not_mem_lineOf hmem⟩

theorem foldr_consumed (d : UInt8) (bytes : List UInt8) :
    (((ofBytes bytes none).lines d).map Line.consumed).foldr (· + ·) 0 = bytes.length := by
  have hconsumed :
      ((ofBytes bytes none).lines d).map Line.consumed = (pieces d bytes).map List.length := by
    rw [lines, List.map_map]
    rfl
  have hflatten := congrArg List.length (flatten_pieces d bytes)
  rw [List.length_flatten] at hflatten
  rw [hconsumed]
  exact hflatten

theorem length_lines (d : UInt8) (bytes : List UInt8) :
    ((ofBytes bytes none).lines d).length =
      bytes.count d + (if bytes = [] ∨ bytes.getLast? = some d then 0 else 1) := by
  rw [lines_ofBytes, List.length_append, List.length_map, List.length_map, length_ended,
    length_unended]

theorem map_content_lines (d : UInt8) (bytes : List UInt8) :
    ((ofBytes bytes none).lines d).map Line.content = (parts d bytes).map (lineOf d) := by
  rw [lines_ofBytes, parts, List.map_append, List.map_append, List.map_map, List.map_map]
  rfl

/-- As many lines are whole as delimiters have arrived. -/
theorem map_ended_take (d : UInt8) (bytes : List UInt8) (n : Nat) :
    (ended d (bytes.take n)).map (Line.ofEnded d) =
      ((ofBytes bytes none).lines d).take ((bytes.take n).count d) := by
  have hcount : (bytes.take n).count d ≤ ((ended d bytes).map (Line.ofEnded d)).length := by
    rw [List.length_map, length_ended]
    exact (List.take_sublist n bytes).count_le d
  rw [lines_ofBytes, ended_take, List.map_take, List.take_append_of_le_length hcount]

end Source

/-- **Reading line by line loses nothing.** The bytes are cut after each delimiter, and each line is
what was cut off without it, and without a carriage return before a line feed. The lines account for
all bytes, and they give the bytes back unless a carriage return was taken off. A source that breaks
delivers the lines whose delimiters have arrived, and then the fault. -/
theorem Source.readAll_loses_nothing (d : UInt8) (bytes : List UInt8) :
    let lines := (ofBytes bytes none).lines d
    (ofBytes bytes none).readAll d = (lines, none) ∧
    (ended d bytes).flatMap (· ++ [d]) ++ (unended d bytes).flatten = bytes ∧
    lines = (ended d bytes).map (Line.ofEnded d) ++ (unended d bytes).map (Line.ofUnended d) ∧
    (∀ line ∈ lines, 0 < line.consumed ∧ d ∉ line.content) ∧
    (lines.map Line.consumed).foldr (· + ·) 0 = bytes.length ∧
    lines.length = bytes.count d + (if bytes = [] ∨ bytes.getLast? = some d then 0 else 1) ∧
    ([d].intercalate (lines.map Line.content) = dropEnd d bytes ↔
      ¬(d = lineFeed ∧
        ([carriageReturn, lineFeed] <:+: bytes ∨ bytes.getLast? = some carriageReturn))) ∧
    ∀ n, (ofBytes bytes (some n)).readAll d =
        ((ended d (bytes.take n)).map (Line.ofEnded d), some .sourceBroken) ∧
      (ended d (bytes.take n)).map (Line.ofEnded d) = lines.take ((bytes.take n).count d) := by
  refine ⟨readAll_eq d _, flatMap_ended_append bytes, lines_ofBytes d bytes,
    fun line => of_mem_lines, foldr_consumed d bytes, length_lines d bytes, ?_,
    fun n => ⟨?_, map_ended_take d bytes n⟩⟩
  · rw [map_content_lines]
    exact intercalate_lineOf_iff bytes
  · rw [readAll_eq, lines_ofBytes_take]
    rfl

/-- Of two carriage returns before a line feed one stays, and the one at the end is taken off. If
the source breaks inside the last line, only that line is missing. -/
theorem Source.readAll_loses_nothing_returns :
    let bytes : List UInt8 := [97, 13, 13, 10, 10, 98, 13]
    let first : Line := ⟨4, [97, 13]⟩
    let second : Line := ⟨1, []⟩
    let third : Line := ⟨2, [98]⟩
    (ofBytes bytes none).readAll lineFeed = ([first, second, third], none) ∧
    (∀ line ∈ [first, second, third], 0 < line.consumed ∧ lineFeed ∉ line.content) ∧
    (ofBytes bytes (some 6)).readAll lineFeed = ([first, second], some .sourceBroken) := by
  intro bytes first second third
  obtain ⟨hread, -, -, heach, -, -, -, hbroken⟩ := readAll_loses_nothing lineFeed bytes
  have hlines : (ofBytes bytes none).lines lineFeed = [first, second, third] := by decide
  have hended : (ended lineFeed (bytes.take 6)).map (Line.ofEnded lineFeed) = [first, second] := by
    decide
  rw [hlines] at hread heach
  rw [(hbroken 6).1, hended]
  exact ⟨hread, heach, rfl⟩

end DateSpan.Stream
