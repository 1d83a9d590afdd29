import Mathlib.Data.List.Induction
import DateSpan.Proofs.Stream.Lines
import DateSpan.Proofs.Stream.Sink
import DateSpan.Run

/-!
# What a run makes of its lines

A line by itself, with its number, yields an entry or none (`entryOf?`) and a record or none
(`recordOf?`). A run yields what its lines yield, one after the other: nothing passes from a line
to a later one but its number, and that a full sink ends the run.

`Progress.after` is how far a run has come when it has taken some lines. A step leads from one
such progress to the next, unless the sink was full (`step_after`); so a run takes all of its
lines, or those up to the first one whose entry does not fit (`Reached`). What it amounts to in
the end is `run_eq`, and without faults `faultless_eq`.
-/

namespace DateSpan.Run

open DateSpan.Stream

/-! ## Lines by themselves -/

/-- What a function makes of numbered lines, when `before` lines come before these. -/
def numbered {β : Type} (f : Nat → List UInt8 → Option β) (before : Nat)
    (lines : List (List UInt8)) : List β :=
  (lines.zipIdx (before + 1)).filterMap fun (line, number) => f number line

/-- The entry of a line, if the line holds a cell. -/
def entryOf? (form : LineForm) (number : Nat) (line : List UInt8) : Option Entry :=
  (form.decode line).toOption.map fun c => ⟨number, c⟩

/-- The record of a line: that it holds no cell or, in a verbose run, which cell it holds. -/
def recordOf? (o : Options) (number : Nat) (line : List UInt8) : Option Record :=
  match o.form.decode line with
  | .error e => some (.refused number line e)
  | .ok c => if o.verbose then some (.read number c) else none

/-- The line holds no cell. -/
def isRefused (form : LineForm) (line : List UInt8) : Bool := !(form.decode line).isOk

theorem isRefused_of_error {form : LineForm} {line : List UInt8} {e : Error}
    (h : form.decode line = .error e) : isRefused form line = true := by
  rw [isRefused, h]
  rfl

theorem isRefused_of_ok {form : LineForm} {line : List UInt8} {c : Cell}
    (h : form.decode line = .ok c) : isRefused form line = false := by
  rw [isRefused, h]
  rfl

def entriesOf (form : LineForm) (before : Nat) (lines : List (List UInt8)) : List Entry :=
  numbered (entryOf? form) before lines

def recordsOf (o : Options) (before : Nat) (lines : List (List UInt8)) : List Record :=
  numbered (recordOf? o) before lines

/-- The entries of lines in writing, one line each. -/
def outputOf (o : Options) (before : Nat) (lines : List (List UInt8)) : List UInt8 :=
  (entriesOf o.form before lines).flatMap (Entry.line o.encoding o.verbose)

section
variable {β : Type} {f : Nat → List UInt8 → Option β} {before : Nat}

@[simp] theorem numbered_nil : numbered f before [] = [] := rfl

theorem numbered_append (lines more : List (List UInt8)) :
    numbered f before (lines ++ more) =
      numbered f before lines ++ numbered f (before + lines.length) more := by
  rw [numbered, List.zipIdx_append, List.filterMap_append, Nat.add_right_comm]
  rfl

theorem numbered_cons (line : List UInt8) (lines : List (List UInt8)) :
    numbered f before (line :: lines) =
      (f (before + 1) line).toList ++ numbered f (before + 1) lines := by
  cases h : f (before + 1) line <;> simp [numbered, h]

@[simp] theorem numbered_singleton (line : List UInt8) :
    numbered f before [line] = (f (before + 1) line).toList := by
  rw [numbered_cons, numbered_nil, List.append_nil]

/-- What is made of a line shows in the same way what is made of it under another number. -/
theorem numbered_map {γ : Type} {g : β → γ} {f' : Nat → List UInt8 → Option γ} {k : Nat}
    (h : ∀ n line, f' (n + k) line = (f n line).map g) (lines : List (List UInt8)) :
    numbered f' (before + k) lines = (numbered f before lines).map g := by
  induction lines generalizing before with
  | nil => rfl
  | cons line lines ih =>
    rw [numbered_cons, numbered_cons, List.map_append, Nat.add_right_comm, ih, h]
    cases f (before + 1) line <;> rfl

end

theorem recordsOf_append (o : Options) (before : Nat) (lines more : List (List UInt8)) :
    recordsOf o before (lines ++ more) =
      recordsOf o before lines ++ recordsOf o (before + lines.length) more :=
  numbered_append lines more

theorem outputOf_append (o : Options) (before : Nat) (lines more : List (List UInt8)) :
    outputOf o before (lines ++ more) =
      outputOf o before lines ++ outputOf o (before + lines.length) more := by
  rw [outputOf, entriesOf, numbered_append, List.flatMap_append]
  rfl

theorem outputOf_singleton (o : Options) (before : Nat) (line : List UInt8) :
    outputOf o before [line] =
      ((entryOf? o.form (before + 1) line).map (Entry.line o.encoding o.verbose)).getD [] := by
  rw [outputOf, entriesOf, numbered_singleton]
  cases entryOf? o.form (before + 1) line <;> simp

/-! ## Progress -/

/-- The error of a run whose sink is full. -/
def sinkError : Error := .other (.writer .sinkFull)

/-- How far a run has come with the given lines, if it has taken all of them. -/
def Progress.after (o : Options) (capacity : Option Nat) (flushFails : Bool)
    (lines : List (List UInt8)) : Progress where
  summary := ⟨lines.length, lines.countP (isRefused o.form)⟩
  records := (recordsOf o 0 lines).toArray
  output := ⟨o.encoding, o.verbose, .given capacity flushFails (outputOf o 0 lines)⟩
  error? := if Exceeds capacity (outputOf o 0 lines).length then some sinkError else none

section
variable {o : Options} {capacity : Option Nat} {flushFails : Bool} {lines : List (List UInt8)}

theorem start_eq : start o (.empty capacity flushFails) = .after o capacity flushFails [] := by
  have hroom : ¬ Exceeds capacity (outputOf o 0 []).length := not_exceeds_zero
  rw [Progress.after, if_neg hroom, start, ← Sink.given_nil]
  rfl

/-- A line that holds no cell leaves the output as it is. -/
theorem refuse_after {line : List UInt8} {e : Error} (h : o.form.decode line = .error e) :
    refuse line e (.after o capacity flushFails lines) =
      .after o capacity flushFails (lines ++ [line]) := by
  have hentry : outputOf o 0 (lines ++ [line]) = outputOf o 0 lines := by
    rw [outputOf_append, outputOf_singleton, entryOf?, h]
    exact List.append_nil _
  have hrecord : recordsOf o 0 (lines ++ [line]) =
      recordsOf o 0 lines ++ [.refused (lines.length + 1) line e] := by
    simp [recordsOf, numbered_append, recordOf?, h]
  have hcount : (lines ++ [line]).countP (isRefused o.form) =
      lines.countP (isRefused o.form) + 1 := by
    simp [isRefused_of_error h]
  rw [refuse, Progress.after, Progress.after, hentry, hrecord, hcount, List.length_append,
    List.length_singleton]
  simp

/-- The entry of a line is put after those of the lines before. -/
theorem accept_after {line : List UInt8} {c : Cell} (h : o.form.decode line = .ok c) :
    accept o c (.after o capacity flushFails lines) =
      .after o capacity flushFails (lines ++ [line]) := by
  have hentry : outputOf o 0 (lines ++ [line]) = outputOf o 0 lines ++
      (Utf8.encode (Entry.text o.encoding o.verbose ⟨lines.length + 1, c⟩) ++ [lineFeed]) := by
    rw [outputOf_append, outputOf_singleton, entryOf?, h, Nat.zero_add]
    rfl
  have hrecord : recordsOf o 0 (lines ++ [line]) =
      recordsOf o 0 lines ++ (if o.verbose then [.read (lines.length + 1) c] else []) := by
    cases hv : o.verbose <;> simp [recordsOf, numbered_append, recordOf?, h, hv]
  have hcount : (lines ++ [line]).countP (isRefused o.form) =
      lines.countP (isRefused o.form) := by
    simp [isRefused_of_ok h]
  rw [accept, Progress.after, Progress.after, hrecord, hcount, List.length_append,
    List.length_singleton]
  dsimp only [Output.write]
  rw [Sink.putLine_given, ← hentry]
  by_cases hfull : Exceeds capacity (outputOf o 0 (lines ++ [line])).length
  · cases hv : o.verbose <;> simp [hfull, Output.failure?, sinkError]
  · cases hv : o.verbose <;> simp [hfull, Output.failure?]

/-- **A step takes a run one line further**, if there was room for the entries so far. -/
theorem step_after (hroom : ¬ Exceeds capacity (outputOf o 0 lines).length) (line : List UInt8) :
    step o (.after o capacity flushFails lines) line =
      .after o capacity flushFails (lines ++ [line]) := by
  have herror : (Progress.after o capacity flushFails lines).error? = none := if_neg hroom
  rw [step, herror]
  cases h : o.form.decode line with
  | error e => exact refuse_after h
  | ok c => exact accept_after h

/-- Once the sink was full, a step changes nothing. -/
theorem step_after_of_exceeds (hfull : Exceeds capacity (outputOf o 0 lines).length)
    (line : List UInt8) :
    step o (.after o capacity flushFails lines) line = .after o capacity flushFails lines := by
  have herror : (Progress.after o capacity flushFails lines).error? = some sinkError := if_pos hfull
  rw [step, herror]

end

/-! ## Runs -/

/-- The lines that a run takes: all, if there is room for their entries, otherwise those up to
the first one whose entry does not fit. -/
inductive Reached (o : Options) (capacity : Option Nat) :
    List (List UInt8) → List (List UInt8) → Prop
  | all {lines} : ¬ Exceeds capacity (outputOf o 0 lines).length → Reached o capacity lines lines
  | full {before line after} : ¬ Exceeds capacity (outputOf o 0 before).length →
      Exceeds capacity (outputOf o 0 (before ++ [line])).length →
      Reached o capacity (before ++ line :: after) (before ++ [line])

section
variable {o : Options} {capacity : Option Nat} {flushFails : Bool}
  {lines reached : List (List UInt8)}

/-- The lines that a run does not take make no difference to a sink that is full. -/
theorem Reached.clip_output (h : Reached o capacity lines reached) :
    clip capacity (outputOf o 0 reached) = clip capacity (outputOf o 0 lines) ∧
      (Exceeds capacity (outputOf o 0 reached).length ↔
        Exceeds capacity (outputOf o 0 lines).length) := by
  cases h with
  | all _ => exact ⟨rfl, Iff.rfl⟩
  | @full before line after _ hfull =>
    have hsplit : outputOf o 0 (before ++ line :: after) =
        outputOf o 0 (before ++ [line]) ++ outputOf o (0 + (before ++ [line]).length) after := by
      rw [← outputOf_append, List.append_assoc, List.singleton_append]
    rw [hsplit]
    refine ⟨(clip_append_of_exceeds hfull _).symm, fun _ => hfull.mono ?_, fun _ => hfull⟩
    simp

/-- If there is room for all entries, all lines are reached. -/
theorem Reached.eq_of_not_exceeds (h : Reached o capacity lines reached)
    (hroom : ¬ Exceeds capacity (outputOf o 0 lines).length) : reached = lines := by
  have hall := mt h.clip_output.2.1 hroom
  cases h with
  | all _ => rfl
  | full _ hfull => exact absurd hfull hall

theorem exists_reached_foldl (o : Options) (capacity : Option Nat) (flushFails : Bool)
    (lines : List (List UInt8)) : ∃ reached, Reached o capacity lines reached ∧
      lines.foldl (step o) (start o (.empty capacity flushFails)) =
        .after o capacity flushFails reached := by
  -- The last line is the step; what is reached before it decides whether it is taken.
  induction lines using List.reverseRecOn with
  | nil => exact ⟨[], .all not_exceeds_zero, start_eq⟩
  | append_singleton lines line ih =>
    obtain ⟨reached, hreached, hfold⟩ := ih
    rw [List.foldl_append, hfold]
    cases hreached with
    | all hroom =>
      refine ⟨lines ++ [line], ?_, step_after hroom line⟩
      by_cases hfull : Exceeds capacity (outputOf o 0 (lines ++ [line])).length
      · exact .full hroom hfull
      · exact .all hfull
    | @full before last after hroom hfull =>
      refine ⟨before ++ [last], ?_, step_after_of_exceeds hfull line⟩
      rw [List.append_assoc, List.cons_append]
      exact .full hroom hfull

theorem outcome_after (ending : Option Fault) :
    outcome ending (.after o capacity flushFails lines) =
      if Exceeds capacity (outputOf o 0 lines).length then .error sinkError
      else match ending with
        | some fault => .error (.other (.reader fault))
        | none =>
          if flushFails then .error (.other (.writer .flushBroken))
          else .ok ⟨lines.length, lines.countP (isRefused o.form)⟩ := by
  by_cases hfull : Exceeds capacity (outputOf o 0 lines).length
  · have herror : (Progress.after o capacity flushFails lines).error? = some sinkError :=
      if_pos hfull
    rw [if_pos hfull]
    simp only [outcome, herror]
  · have herror : (Progress.after o capacity flushFails lines).error? = none := if_neg hfull
    rw [if_neg hfull]
    simp only [outcome, herror]
    cases ending <;> cases flushFails <;> rfl

end

/-- **A run yields what its lines yield**, as far as the sink has room for it. -/
theorem run_eq (o : Options) (source : Source) (capacity : Option Nat) (flushFails : Bool) :
    let lines := (source.lines lineFeed).map Line.content
    ∃ reached, Reached o capacity lines reached ∧
      run o source (.empty capacity flushFails) =
        { outcome := outcome source.ending (.after o capacity flushFails reached)
          records := recordsOf o 0 reached
          output := clip capacity (outputOf o 0 lines) } := by
  intro lines
  obtain ⟨reached, hreached, hfold⟩ := exists_reached_foldl o capacity flushFails lines
  refine ⟨reached, hreached, ?_⟩
  rw [run, hfold, ← hreached.clip_output.1]
  rfl

/-- A run on bytes that all arrive, with a sink that takes everything. -/
def faultless (o : Options) (input : List UInt8) : Report :=
  run o (.ofBytes input none) (.empty none false)

theorem faultless_eq (o : Options) (input : List UInt8) :
    faultless o input =
      { outcome := .ok ⟨(linesOf input).length, (linesOf input).countP (isRefused o.form)⟩
        records := recordsOf o 0 (linesOf input)
        output := outputOf o 0 (linesOf input) } := by
  obtain ⟨reached, hreached, hrun⟩ := run_eq o (.ofBytes input none) none false
  have hlines : ((Source.ofBytes input none).lines lineFeed).map Line.content = linesOf input :=
    Source.content_lines _
  rw [hlines] at hreached hrun
  rw [faultless, hrun]
  -- A sink without a limit is never full.
  have hroom : ¬ Exceeds none (outputOf o 0 (linesOf input)).length := id
  obtain rfl := hreached.eq_of_not_exceeds hroom
  rw [outcome_after, if_neg hroom]
  rfl

end DateSpan.Run
