import DateSpan.Proofs.Numbering
import DateSpan.Proofs.Run.Trace

/-!
# Runs on one input after another

What a run makes of a line depends on the lines before it only by their number. So an input whose
last line is ended may be followed by another: the run on both is the run on the first and then
the run on the second, with the line numbers of the second raised by the lines of the first
(`faultless_append`).

The raised numbers are described on what was put out and recorded, by `Numeral.advanceAfter` and
`Record.advance`, without another look at the input.
-/

namespace DateSpan

/-- The entry with a greater line number. -/
def Entry.advance (k : Nat) (e : Entry) : Entry := { e with lineNumber := e.lineNumber + k }

namespace Run

open DateSpan.Stream

/-- What a function makes of each line of a text, in UTF-8. -/
def mapLines (f : List Char → List Char) (bytes : List UInt8) : List UInt8 :=
  unlines ((ended lineFeed bytes).map (Utf8.onText f))

/-- A function on lines that does to their text what another does to entries. -/
theorem mapLines_flatMap_line {encoding : Encoding} {verbose : Bool} {f : List Char → List Char}
    {g : Entry → Entry}
    (h : ∀ e : Entry, f (e.text encoding verbose) = (g e).text encoding verbose)
    (es : List Entry) :
    mapLines f (es.flatMap (Entry.line encoding verbose)) =
      (es.map g).flatMap (Entry.line encoding verbose) := by
  rw [mapLines, (Entry.ended_flatMap_line encoding verbose es).1, List.map_map,
    Entry.flatMap_line, List.map_map]
  refine congrArg unlines (List.map_congr_left fun e _ => ?_)
  rw [Function.comp, Utf8.onText_encode, h]
  rfl

/-! ## Lines after other lines -/

variable (o : Options) (k before : Nat) (lines : List (List UInt8))

theorem entriesOf_add (form : LineForm) :
    entriesOf form (before + k) lines = (entriesOf form before lines).map (Entry.advance k) := by
  refine numbered_map (fun n line => ?_) lines
  rw [entryOf?, entryOf?, Option.map_map]
  rfl

theorem recordsOf_add :
    recordsOf o (before + k) lines = (recordsOf o before lines).map (Record.advance k) := by
  refine numbered_map (fun n line => ?_) lines
  rw [recordOf?, recordOf?]
  cases o.form.decode line with
  | error e => exact congrArg some (Record.advance_refused k n line e).symm
  | ok c =>
    cases o.verbose with
    | false => rfl
    | true => exact congrArg some (Record.advance_read k n c).symm

theorem outputOf_add :
    outputOf o (before + k) lines =
      if o.verbose then mapLines (Numeral.advanceAfter (Entry.mark o.encoding) k)
        (outputOf o before lines)
      else outputOf o before lines := by
  rw [outputOf, outputOf, entriesOf_add]
  cases hv : o.verbose with
  | false =>
    have h (e : Entry) : (e.advance k).line o.encoding false = e.line o.encoding false := by
      rw [Entry.line, Entry.advance, Entry.text_plain o.encoding _ e.lineNumber]
      rfl
    rw [if_neg Bool.false_ne_true, List.flatMap_map, funext h]
  | true =>
    rw [if_pos rfl]
    have h (e : Entry) : Numeral.advanceAfter (Entry.mark o.encoding) k
        (e.text o.encoding true) = (e.advance k).text o.encoding true :=
      Entry.advance_text o.encoding k e.lineNumber e.cell
    exact (mapLines_flatMap_line h _).symm

/-- Without line numbers, lines put out the same whichever lines come before. -/
theorem outputOf_append_plain {o : Options} (hplain : o.verbose = false)
    (lines more : List (List UInt8)) :
    outputOf o 0 (lines ++ more) = outputOf o 0 lines ++ outputOf o 0 more := by
  rw [outputOf_append, outputOf_add, hplain, if_neg Bool.false_ne_true]

theorem outputOf_refused {o : Options} {line : List UInt8} (h : isRefused o.form line) :
    outputOf o before [line] = [] := by
  rw [outputOf_singleton, entryOf?]
  cases hdecode : o.form.decode line with
  | error e => rfl
  | ok c => simp [isRefused_of_ok hdecode] at h

/-! ## Inputs after other inputs -/

section
variable {a : List UInt8}

/-- A line with its end, put between two inputs, is a line between theirs. -/
theorem linesOf_insert (ha : a = [] ∨ a.getLast? = some lineFeed) {line : List UInt8}
    (hline : lineFeed ∉ line) (b : List UInt8) :
    linesOf (a ++ (line ++ lineFeed :: b)) =
      linesOf a ++ ([dropEnd carriageReturn line] ++ linesOf b) := by
  have hcut : line ++ lineFeed :: b = (line ++ [lineFeed]) ++ b := by simp
  have hended : line ++ [lineFeed] = [] ∨ (line ++ [lineFeed]).getLast? = some lineFeed :=
    .inr List.getLast?_concat
  rw [linesOf_append ha, hcut, linesOf_append hended, linesOf_singleton hline]

/-- **A run on one input after another** is the run on the first, followed by the run on the
second with its line numbers raised. A line that holds no cell, put between the two, is counted
and leaves an output without line numbers as it is. -/
theorem faultless_append (o : Options) (ha : a = [] ∨ a.getLast? = some lineFeed)
    (b : List UInt8) :
    let report := faultless o (a ++ b)
    (∃ x y, (faultless o a).outcome = .ok x ∧ (faultless o b).outcome = .ok y ∧
      x.lines = (linesOf a).length ∧
      report.outcome = .ok ⟨x.lines + y.lines, x.failed + y.failed⟩ ∧
      report.records = (faultless o a).records ++
        (faultless o b).records.map (Record.advance x.lines) ∧
      report.output = (faultless o a).output ++
        if o.verbose then
          mapLines (Numeral.advanceAfter (Entry.mark o.encoding) x.lines) (faultless o b).output
        else (faultless o b).output) ∧
    ∀ line, lineFeed ∉ line → isRefused o.form (dropEnd carriageReturn line) →
      let longer := faultless o (a ++ (line ++ lineFeed :: b))
      (∃ s, report.outcome = .ok s ∧ longer.outcome = .ok ⟨s.lines + 1, s.failed + 1⟩) ∧
      (o.verbose = false → longer.output = report.output) := by
  intro report
  have hreport : report = _ := faultless_eq o (a ++ b)
  rw [linesOf_append ha] at hreport
  refine ⟨⟨_, _, congrArg Report.outcome (faultless_eq o a),
    congrArg Report.outcome (faultless_eq o b), rfl, ?_, ?_, ?_⟩, ?_⟩
  · rw [hreport, List.length_append, List.countP_append]
  · rw [hreport, faultless_eq o a, faultless_eq o b, recordsOf_append, recordsOf_add]
  · rw [hreport, faultless_eq o a, faultless_eq o b, outputOf_append, outputOf_add]
  · intro line hline hrefused longer
    have hlonger : longer = _ := faultless_eq o _
    rw [linesOf_insert ha hline] at hlonger
    refine ⟨⟨_, congrArg Report.outcome hreport, ?_⟩, fun hplain => ?_⟩
    · rw [hlonger]
      simp only [List.length_append, List.length_singleton, List.countP_append,
        List.countP_singleton, hrefused, if_true, Except.ok.injEq, Summary.mk.injEq]
      omega
    · rw [hlonger, hreport]
      dsimp only
      rw [outputOf_append_plain hplain, outputOf_append_plain hplain,
        outputOf_append_plain hplain, outputOf_refused 0 hrefused, List.nil_append]

/-- A letter by itself, between two lines with the null value. -/
theorem faultless_append_null :
    let a : List UInt8 := [78, 85, 76, 76, 10]
    let line : List UInt8 := [120]
    a.getLast? = some lineFeed ∧ lineFeed ∉ line ∧
      isRefused .literal (dropEnd carriageReturn line) ∧
      (∃ x y, (faultless {} a).outcome = .ok x ∧ (faultless {} a).outcome = .ok y ∧
        (faultless {} (a ++ a)).outcome = .ok ⟨x.lines + y.lines, x.failed + y.failed⟩) ∧
      (faultless {} (a ++ (line ++ lineFeed :: a))).output = (faultless {} (a ++ a)).output := by
  intro a line
  have hline : lineFeed ∉ line := by decide
  have hrefused : isRefused .literal (dropEnd carriageReturn line) := by decide +kernel
  obtain ⟨⟨x, y, hx, hy, -, hsum, -⟩, hinsert⟩ := faultless_append {} (a := a) (.inr rfl) a
  obtain ⟨-, hplain⟩ := hinsert line hline hrefused
  exact ⟨rfl, hline, hrefused, ⟨x, y, hx, hy, hsum⟩, hplain rfl⟩

end

end Run

end DateSpan
