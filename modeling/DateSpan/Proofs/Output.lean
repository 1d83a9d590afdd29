import DateSpan.Output
import DateSpan.Proofs.Stream.Sink

/-!
# What becomes of the calls of an output

An output is called again and again, to write an entry or to flush, and an error in one call does
not keep a later call from being made. How entries are formatted makes no difference to that, so
`Formatter` stands for any way to do it, also one that refuses entries.

One call leads from the sink that some bytes were given to, whether it had room for them or not, to
the sink that the line of the call was given to as well (`call_given`). By induction the sink holds
the first bytes of all lines so far (`after_empty`), and from its room for them follow the answers.
-/

namespace DateSpan

open DateSpan.Stream

/-! ## Calls -/

/-- A way to put entries into bytes. It may refuse an entry. -/
abbrev Formatter := Entry → Except Error (List UInt8)

namespace Output

inductive Call where
  | write (e : Entry)
  | flush

/-- Makes a call: the error, if there was one, and the output afterwards. -/
def call (o : Output) : Call → Option Error × Output
  | .write e => o.write e
  | .flush => (o.flush, o)

/-- The output after some calls. -/
def after (o : Output) (calls : List Call) : Output := calls.foldl (fun o c => (o.call c).2) o

end Output

namespace Formatter

open Output (Call failure?)

/-- The formatter of an output, which refuses no entry. -/
def ofEncoding (encoding : Encoding) (verbose : Bool) : Formatter := fun e =>
  .ok (Utf8.encode (e.text encoding verbose))

variable (format : Formatter)

/-- Puts the line of an entry into a sink, unless the entry is refused. -/
def write (e : Entry) (s : Sink) : Option Error × Sink :=
  match format e with
  | .error error => (some error, s)
  | .ok bytes => (s.putLine bytes).map failure? id

def call (s : Sink) : Call → Option Error × Sink
  | .write e => format.write e s
  | .flush => (failure? s.flush, s)

def after (s : Sink) (calls : List Call) : Sink := calls.foldl (fun s c => (format.call s c).2) s

/-- The line that a call is to put. -/
def line : Call → List UInt8
  | .write e =>
    match format e with
    | .error _ => []
    | .ok bytes => bytes ++ [lineFeed]
  | .flush => []

/-- All that some calls are to put. -/
def written (calls : List Call) : List UInt8 := calls.flatMap format.line

end Formatter

/-- An output makes its calls with the formatter of its encoding. -/
theorem Output.call_eq (o : Output) (c : Call) :
    o.call c = ((Formatter.ofEncoding o.encoding o.verbose).call o.sink c).map id
      fun sink => { o with sink } := by
  cases c <;> rfl

theorem Output.after_eq (o : Output) (calls : List Call) :
    o.after calls =
      { o with sink := (Formatter.ofEncoding o.encoding o.verbose).after o.sink calls } := by
  induction calls generalizing o with
  | nil => rfl
  | cons c calls ih =>
    rw [after, List.foldl_cons, ← after, ih, call_eq]
    rfl

/-! ## One call, and all of them -/

namespace Formatter

open Output (Call)

variable {format : Formatter} {capacity : Option Nat} {flushFails : Bool} {bytes : List UInt8}

theorem write_given {e : Entry} {body : List UInt8} (h : format e = .ok body) :
    format.write e (.given capacity flushFails bytes) =
      (if Exceeds capacity (bytes ++ (body ++ [lineFeed])).length
        then some (.other (.writer .sinkFull)) else none,
        .given capacity flushFails (bytes ++ (body ++ [lineFeed]))) := by
  simp only [write, h, Sink.putLine_given]
  split <;> rfl

/-- Whatever the answer to a call is, its line was given to the sink. -/
theorem call_given (c : Call) :
    (format.call (.given capacity flushFails bytes) c).2 =
      .given capacity flushFails (bytes ++ format.line c) := by
  cases c with
  | write e =>
    rcases h : format e with error | body
    · simp only [call, write, line, h, List.append_nil]
    · simp only [call, write_given h, line, h]
  | flush => simp only [call, line, List.append_nil]

theorem after_given (calls : List Call) :
    format.after (.given capacity flushFails bytes) calls =
      .given capacity flushFails (bytes ++ format.written calls) := by
  induction calls generalizing bytes with
  | nil => simp [after, written]
  | cons c calls ih =>
    rw [after, List.foldl_cons, call_given, ← after, ih, written, written, List.flatMap_cons,
      List.append_assoc]

/-- After some calls the sink was given all of their lines. -/
theorem after_empty (calls : List Call) :
    format.after (.empty capacity flushFails) calls =
      .given capacity flushFails (format.written calls) := by
  rw [← Sink.given_nil, after_given, List.nil_append]

theorem write_after {e : Entry} {body : List UInt8} (h : format e = .ok body)
    (calls : List Call) :
    (format.write e (format.after (.empty capacity flushFails) calls)).1 =
      if Exceeds capacity (format.written calls ++ (body ++ [lineFeed])).length
        then some (.other (.writer .sinkFull)) else none := by
  rw [after_empty, write_given h]

theorem written_append (calls more : List Call) :
    format.written (calls ++ more) = format.written calls ++ format.written more :=
  List.flatMap_append

/-- Room that was not there for a line is not there later. -/
theorem write_after_failure {e e' : Entry} {body : List UInt8} (h : format e = .ok body)
    {calls : List Call}
    (hfull : (format.write e (format.after (.empty capacity flushFails) calls)).1 ≠ none)
    (between : List Call) :
    (format.write e' (format.after (.empty capacity flushFails)
      (calls ++ .write e :: between))).1 ≠ none := by
  rcases h' : format e' with error | body'
  · simp [write, h']
  · have hexceeds : Exceeds capacity (format.written calls ++ (body ++ [lineFeed])).length := by
      rw [write_after h] at hfull
      split at hfull
      · next hexceeds => exact hexceeds
      · exact absurd rfl hfull
    have hline : format.line (.write e) = body ++ [lineFeed] := by simp only [line, h]
    have hle : (format.written calls ++ (body ++ [lineFeed])).length ≤
        (format.written (calls ++ .write e :: between) ++ (body' ++ [lineFeed])).length := by
      rw [written_append, written, written, List.flatMap_cons, hline]
      simp only [List.length_append]
      omega
    rw [write_after h', if_pos (hexceeds.mono hle)]
    exact Option.some_ne_none _

end Formatter

/-- **Calls on an output over a sink that may be full.** After any calls, failed ones included, the
sink holds the first bytes of all lines that were to be written, as many as it has room for. The
next entry is written without an error if there is room for its line as well, and otherwise the
error is that of the sink; an entry that the formatter refuses changes nothing. A flush leaves the
sink as it is and fails if flushes fail. So once a line did not fit, no later entry is written
without an error. The output of the program makes its calls in just this way, and its formatters
refuse no entry. -/
theorem Output.over_full_sink (capacity : Option Nat) (flushFails : Bool) (before : List Call) :
    (∀ format : Formatter,
      let out := format.written before
      let s := format.after (.empty capacity flushFails) before
      s.held.toList = clip capacity out ∧
      (∀ e body, format e = .ok body → (format.write e s).1 =
        if Exceeds capacity (out ++ (body ++ [lineFeed])).length
          then some (.other (.writer .sinkFull)) else none) ∧
      (∀ e error, format e = .error error → format.write e s = (some error, s)) ∧
      format.call s .flush =
        (if flushFails then some (.other (.writer .flushBroken)) else none, s) ∧
      (∀ e body e' between, format e = .ok body → (format.write e s).1 ≠ none →
        (format.write e' (format.after (.empty capacity flushFails)
          (before ++ .write e :: between))).1 ≠ none)) ∧
    (∀ (encoding : Encoding) (verbose : Bool),
      let format := Formatter.ofEncoding encoding verbose
      let o := after ⟨encoding, verbose, .empty capacity flushFails⟩ before
      o.sink = format.after (.empty capacity flushFails) before ∧
      (∀ e, ((o.write e).1, (o.write e).2.sink) = format.write e o.sink ∧
        format e = .ok (Utf8.encode (e.text encoding verbose))) ∧
      (o.flush, o.sink) = format.call o.sink .flush) := by
  constructor
  · intro format out s
    have hs : s = .given capacity flushFails out := Formatter.after_empty before
    refine ⟨?_, ?_, ?_, ?_, ?_⟩
    · rw [hs, Sink.given, List.toList_toArray]
    · intro e body h
      exact Formatter.write_after h before
    · intro e error h
      simp only [Formatter.write, h]
    · rw [hs]
      cases flushFails <;> rfl
    · intro e body e' between h hfull
      exact Formatter.write_after_failure h hfull between
  · intro encoding verbose format o
    have ho : o = ⟨encoding, verbose, format.after (.empty capacity flushFails) before⟩ :=
      after_eq _ before
    rw [ho]
    exact ⟨rfl, fun _ => ⟨rfl, rfl⟩, rfl⟩

/-- There is room for the line of one null value and for two bytes of the next, but not for a third
after that, with a flush between them. A formatter that refuses everything never gets to the
sink. -/
theorem Output.over_full_sink_null :
    let format := Formatter.ofEncoding .human false
    let s := format.after (.empty (some 12) true) [.write ⟨1, none⟩]
    let refusal := Error.other (.custom "refused" none)
    s.held.toList = Utf8.encode "NULL\tNULL\n".toList ∧
      (format.write ⟨2, none⟩ s).1 = some (.other (.writer .sinkFull)) ∧
      (format.write ⟨3, none⟩ (format.after (.empty (some 12) true)
        [.write ⟨1, none⟩, .write ⟨2, none⟩, .flush])).1 ≠ none ∧
      Formatter.write (fun _ => .error refusal) ⟨2, none⟩
        (.empty (some 12) true) = (some refusal, .empty (some 12) true) := by
  intro format s refusal
  obtain ⟨hheld, hwrite, -, -, hlater⟩ :=
    (over_full_sink (some 12) true [.write ⟨1, none⟩]).1 format
  have hrefused := ((over_full_sink (some 12) true []).1 fun _ => .error refusal).2.2.1
  have hfull : (format.write ⟨2, none⟩ s).1 = some (.other (.writer .sinkFull)) :=
    (hwrite ⟨2, none⟩ _ rfl).trans (if_pos (by decide +kernel))
  refine ⟨hheld.trans (by decide +kernel), hfull, ?_, hrefused ⟨2, none⟩ refusal rfl⟩
  apply hlater ⟨2, none⟩ _ ⟨3, none⟩ [.flush] rfl
  rw [hfull]
  exact Option.some_ne_none _

end DateSpan
