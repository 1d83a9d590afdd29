import DateSpan.Proofs.Stream.Reader
import DateSpan.Run

/-!
# Runs as loops

`run` has all lines of the source at once and folds its steps over them. A program asks for one
line after another, takes a step with each, and asks no more once there is an error: `Run.loop` is
that loop over `Source.read`.

The two make the same report (`run_eq_byReading`), since reading comes upon the lines of the source
(`Source.readAll_eq`) and an error makes the lines after it idle (`step_of_error`).
-/

namespace DateSpan.Run

open DateSpan.Stream

variable {o : Options} {p : Progress} {e : Error}

/-- Once an error has ended a run, a line changes nothing. -/
theorem step_of_error (h : p.error? = some e) (line : List UInt8) : step o p line = p := by
  rw [step, h]

theorem foldl_step_of_error (h : p.error? = some e) (lines : List (List UInt8)) :
    lines.foldl (step o) p = p := by
  induction lines with
  | nil => rfl
  | cons line lines ih => rw [List.foldl_cons, step_of_error h, ih]

/-- Reads a line and takes a step with it, again and again, until the source is at its end or there
is an error, of the source or of the step. -/
def loop (o : Options) (source : Source) (p : Progress) : Option Error × Progress :=
  match _h : source.read lineFeed with
  | .error fault => (some (.other (.reader fault)), p)
  | .ok (line, source') =>
    if _hn : line.consumed = 0 then (none, p)
    else
      let p' := step o p line.content
      if p'.error? = none then loop o source' p' else (p'.error?, p')
termination_by source.bytes.length
decreasing_by
  have hlength := Source.length_read _h
  omega

/-- The report of the loop. The output is flushed if there was no error. -/
def byReading (o : Options) (source : Source) (sink : Sink) : Report :=
  let (error?, p) := loop o source (start o sink)
  { outcome :=
      match error?.or p.output.flush with
      | some e => .error e
      | none => .ok p.summary
    records := p.records.toList
    output := p.output.sink.held.toList }

section
variable {source source' : Source} {line : Line}

theorem loop_of_error {fault : Fault} (h : source.read lineFeed = .error fault) :
    loop o source p = (some (.other (.reader fault)), p) := by
  rw [loop]
  split
  · next heq =>
    cases h.symm.trans heq
    rfl
  · next heq => cases h.symm.trans heq

theorem loop_of_ok (h : source.read lineFeed = .ok (line, source')) :
    loop o source p =
      if line.consumed = 0 then (none, p)
      else if (step o p line.content).error? = none then loop o source' (step o p line.content)
      else ((step o p line.content).error?, step o p line.content) := by
  rw [loop]
  split
  · next heq => cases h.symm.trans heq
  · next heq =>
    cases h.symm.trans heq
    rfl

end

/-- The steps that are taken with lines, until a fault comes after them or the end, and the error
that comes first. -/
def taken (o : Options) (p : Progress) (lines : List Line) (fault? : Option Fault) :
    Option Error × Progress :=
  let p' := (lines.map Line.content).foldl (step o) p
  (p'.error?.or (fault?.map fun fault => .other (.reader fault)), p')

/-- **The loop takes a step with each line that reading comes upon**, as long as there is no
error. -/
theorem loop_eq (source : Source) (h : p.error? = none) :
    loop o source p =
      taken o p (source.readAll lineFeed).1 (source.readAll lineFeed).2 := by
  induction source, p using loop.induct o with
  | case1 source p fault hread =>
    rw [loop_of_error hread, Source.readAll_of_error hread]
    simp only [taken, List.map_nil, List.foldl_nil, h]
    rfl
  | case2 source p line source' hread hend =>
    rw [loop_of_ok hread, Source.readAll_of_ok hread, if_pos hend, if_pos hend]
    simp only [taken, List.map_nil, List.foldl_nil, h]
    rfl
  | case3 source p line source' hread hline p' hstep ih =>
    rw [loop_of_ok hread, Source.readAll_of_ok hread, if_neg hline, if_neg hline, if_pos hstep,
      ih hstep]
    rfl
  | case4 source p line source' hread hline p' hstep =>
    -- The lines that the loop does not read any more change nothing.
    obtain ⟨e, he⟩ := Option.ne_none_iff_exists'.1 hstep
    rw [loop_of_ok hread, Source.readAll_of_ok hread, if_neg hline, if_neg hline, if_neg hstep]
    simp only [taken, Prod.map_fst, Prod.map_snd, List.map_cons, List.foldl_cons]
    rw [foldl_step_of_error he, he]
    rfl

/-- **A run is the loop that reads a line and takes a step with it**, for every source and every
sink. -/
theorem run_eq_byReading (o : Options) (source : Source) (sink : Sink) :
    run o source sink = byReading o source sink := by
  have hstart : (start o sink).error? = none := rfl
  rw [run, byReading, loop_eq source hstart, Source.readAll_eq]
  simp only [taken]
  generalize ((source.lines lineFeed).map Line.content).foldl (step o) (start o sink) = p
  rcases herror : p.error? with _ | e
  · rcases source.ending with _ | fault
    · rcases hflush : p.output.flush with _ | e
      · simp only [outcome, herror, hflush]
        rfl
      · simp only [outcome, herror, hflush]
        rfl
    · simp only [outcome, herror]
      rfl
  · simp only [outcome, herror]
    rfl

end DateSpan.Run
