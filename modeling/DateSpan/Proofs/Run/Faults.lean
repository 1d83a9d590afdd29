import DateSpan.Proofs.Run.Trace

/-!
# Runs under faults

A source may break after some bytes, a sink may be full after some, and it may not pass on what
it holds. `run_faults` says for all three at once what is left of a run: the first bytes of what
would have been put out, the records of the lines that were reached, and the error that came
first. A sink that is full comes before a source that breaks, since the lines that arrive are
dealt with before the source is asked for more; the flush comes last.
-/

namespace DateSpan.Run

open DateSpan.Stream

/-- The lines that arrive when reading breaks off after so many bytes, if it does: those that a
line feed ends within these bytes. -/
def arriving (input : List UInt8) : Option Nat → List (List UInt8)
  | none => linesOf input
  | some n => endedLines (input.take n)

theorem map_content_ofBytes (input : List UInt8) (readLimit : Option Nat) :
    ((Source.ofBytes input readLimit).lines lineFeed).map Line.content =
      arriving input readLimit := by
  rw [Source.content_lines]
  cases readLimit <;> rfl

/-- The lines that arrive are the first lines of the whole input. -/
theorem arriving_initial (input : List UInt8) (readLimit : Option Nat) :
    arriving input readLimit <+: linesOf input := by
  cases readLimit with
  | none => exact List.prefix_rfl
  | some n =>
    have h := prefix_endedLines (input.take n) (input.drop n)
    rwa [List.take_append_drop] at h

theorem Reached.initial {o : Options} {capacity : Option Nat} {lines reached : List (List UInt8)}
    (h : Reached o capacity lines reached) : reached <+: lines := by
  cases h with
  | all _ => exact List.prefix_rfl
  | @full before line after _ _ => exact ⟨after, by simp⟩

/-- **What is left of a run under faults.** Of the lines that arrive, let the entries in writing
be `out`. The sink holds the first bytes of `out`, as many as it has room for. The records are
those that a run without faults makes of the lines up to the first one whose entry does not fit,
or of all lines that arrive if there is room for `out`. The outcome is an error of the sink if
there is no room, then one of the source if it breaks, then one of the flush if that fails, and
otherwise the count of the lines that arrived and of those among them that hold no cell. -/
theorem run_faults (o : Options) (input : List UInt8) (readLimit writeLimit : Option Nat)
    (flushFails : Bool) :
    let lines := arriving input readLimit
    let out := outputOf o 0 lines
    let report := run o (.ofBytes input readLimit) (.empty writeLimit flushFails)
    report.output = clip writeLimit out ∧
    (∃ reached rest, Reached o writeLimit lines reached ∧
      report.records = recordsOf o 0 reached ∧
      linesOf input = reached ++ rest ∧
      (faultless o input).records = report.records ++ recordsOf o reached.length rest) ∧
    report.outcome =
      if Exceeds writeLimit out.length then .error (.other (.writer .sinkFull))
      else if readLimit.isSome then .error (.other (.reader .sourceBroken))
      else if flushFails then .error (.other (.writer .flushBroken))
      else .ok ⟨lines.length, lines.countP (isRefused o.form)⟩ := by
  intro lines out report
  obtain ⟨reached, hreached, hrun⟩ :=
    run_eq o (.ofBytes input readLimit) writeLimit flushFails
  rw [map_content_ofBytes] at hreached hrun
  have hreport : report = _ := hrun
  obtain ⟨rest, hrest⟩ := hreached.initial.trans (arriving_initial input readLimit)
  refine ⟨?_, ⟨reached, rest, hreached, ?_, hrest.symm, ?_⟩, ?_⟩
  · rw [hreport]
  · rw [hreport]
  · rw [hreport, faultless_eq, ← hrest, recordsOf_append, Nat.zero_add]
  · have hroom := hreached.clip_output.2
    rw [hreport, outcome_after]
    by_cases hfull : Exceeds writeLimit out.length
    · rw [if_pos (hroom.2 hfull), if_pos hfull]
      rfl
    · obtain rfl := hreached.eq_of_not_exceeds hfull
      rw [if_neg hfull, if_neg hfull]
      cases readLimit <;> rfl

end DateSpan.Run
