import Mathlib.Data.List.Forall2
import DateSpan.Program
import DateSpan.Proofs.Numbering
import DateSpan.Proofs.Run.Trace

/-!
# The account of a run

A run without faults deals with each line of its input once: the line is read, and there is a
line of output for it, or it is refused, and there is a warning for it. `Account` says what that
comes to for one form of input and all four ways to present the output, and `exists_account`
that every run keeps one.

The numbers in an account are those that outputs and records show. That they are the numbers of
the lines read and of the lines refused is a matter of `numbersOf`, the numbers of the lines with
some property.
-/

namespace DateSpan.Run

open DateSpan.Stream

/-! ## Accounts -/

/-- The number that a line of verbose output shows. -/
def shownNumber (encoding : Encoding) (line : List UInt8) : Nat :=
  Numeral.numberAfter (Entry.mark encoding) (Utf8.decodeLossy line)

def warningsOf (records : List Record) : List Record := records.filter (·.level = .warn)

/-- What is counted of lines. -/
def summaryOf (form : LineForm) (lines : List (List UInt8)) : Summary :=
  ⟨lines.length, lines.countP (isRefused form)⟩

/-- A plain line of output is made from the line with a given number. -/
def MadeFrom (form : LineForm) (encoding : Encoding) (lines : List (List UInt8)) (number : Nat)
    (out : List UInt8) : Prop :=
  ∃ line c, lines[number - 1]? = some line ∧ form.decode line = .ok c ∧
    out = Utf8.encode (Entry.text encoding false ⟨number, c⟩)

/-- The account of runs on an input in a given form: the numbers of the lines that were read, and
the warnings for those that were refused. -/
structure Account (form : LineForm) (input : List UInt8) (read : List Nat)
    (warnings : List Record) : Prop where
  outcome : ∀ encoding verbose,
    (faultless ⟨form, encoding, verbose⟩ input).outcome = .ok (summaryOf form (linesOf input))
  warned : ∀ encoding verbose,
    warningsOf (faultless ⟨form, encoding, verbose⟩ input).records = warnings
  /-- There is a line of output for each line that is not refused, and nothing else. -/
  counted : ∀ encoding verbose,
    let output := (faultless ⟨form, encoding, verbose⟩ input).output
    let s := summaryOf form (linesOf input)
    (ended lineFeed output).length + s.failed = s.lines ∧ unended lineFeed output = []
  made : ∀ encoding, List.Forall₂ (MadeFrom form encoding (linesOf input)) read
    (ended lineFeed (faultless ⟨form, encoding, false⟩ input).output)
  /-- The verbose output is the plain one with the numbers put into its lines. -/
  numbered : ∀ encoding,
    ended lineFeed (faultless ⟨form, encoding, true⟩ input).output =
      List.zipWith (fun number => Utf8.onText (Entry.withNumber encoding number)) read
        (ended lineFeed (faultless ⟨form, encoding, false⟩ input).output)
  shown : ∀ encoding,
    (ended lineFeed (faultless ⟨form, encoding, true⟩ input).output).map (shownNumber encoding) =
      read
  increasing : read.Pairwise (· < ·) ∧ (warnings.map Record.number).Pairwise (· < ·)
  disjoint : List.Disjoint read (warnings.map Record.number)
  all : ∀ number, number ∈ read ∨ number ∈ warnings.map Record.number ↔
    1 ≤ number ∧ number ≤ (summaryOf form (linesOf input)).lines
  /-- A verbose run makes one record of each line. -/
  recorded : ∀ encoding,
    (faultless ⟨form, encoding, true⟩ input).records.map (fun r => (r.number, r.level)) =
      ((linesOf input).zipIdx 1).map fun (line, number) =>
        (number, if isRefused form line then .warn else .debug)
  exitCode : ∀ args encoding verbose, CommandLine.parse args = .ok ⟨form, encoding, verbose⟩ →
    (Program.run args input).exitCode =
      if 0 < (summaryOf form (linesOf input)).failed then 1 else 0

/-! ## Numbers of lines -/

/-- The numbers of the lines that have a property. -/
def numbersOf (p : List UInt8 → Bool) (before : Nat) (lines : List (List UInt8)) : List Nat :=
  numbered (fun n line => if p line then some n else none) before lines

section
variable {β : Type} {f : Nat → List UInt8 → Option β} {p : List UInt8 → Bool} {before : Nat}
  {lines : List (List UInt8)}

theorem mem_numbered_iff {b : β} :
    b ∈ numbered f 0 lines ↔ ∃ n line, lines[n]? = some line ∧ f (n + 1) line = some b := by
  simp only [numbered, List.mem_filterMap, Prod.exists, List.mk_mem_zipIdx_iff_le_and_getElem?_sub]
  constructor
  · rintro ⟨line, n, ⟨hn, hline⟩, hb⟩
    exact ⟨n - 1, line, hline, by rwa [show n - 1 + 1 = n by omega]⟩
  · rintro ⟨n, line, hline, hb⟩
    exact ⟨line, n + 1, ⟨by omega, hline⟩, hb⟩

theorem numbered_filter (q : β → Bool) (lines : List (List UInt8)) :
    (numbered f before lines).filter q =
      numbered (fun n line => (f n line).filter q) before lines :=
  List.filter_filterMap

theorem numbered_eq_map (g : Nat → List UInt8 → β) (lines : List (List UInt8)) :
    numbered (fun n line => some (g n line)) before lines =
      (lines.zipIdx (before + 1)).map fun (line, n) => g n line := by
  rw [numbered, ← List.filterMap_eq_map]
  rfl

theorem mem_numbersOf_iff {n : Nat} :
    n ∈ numbersOf p 0 lines ↔ ∃ m line, lines[m]? = some line ∧ p line ∧ m + 1 = n := by
  simp [numbersOf, mem_numbered_iff]

theorem numbersOf_sublist :
    (numbersOf p before lines).Sublist (List.range' (before + 1) lines.length) := by
  induction lines generalizing before with
  | nil => exact List.Sublist.slnil
  | cons line lines ih =>
    rw [numbersOf, numbered_cons, List.length_cons, List.range'_succ]
    cases p line with
    | true => exact ih.cons_cons _
    | false => exact ih.cons _

theorem pairwise_numbersOf : (numbersOf p before lines).Pairwise (· < ·) :=
  List.Pairwise.sublist numbersOf_sublist List.pairwise_lt_range'

theorem length_numbersOf : (numbersOf p before lines).length = lines.countP p := by
  induction lines generalizing before with
  | nil => rfl
  | cons line lines ih =>
    rw [numbersOf, numbered_cons, List.length_append, ← numbersOf, ih, List.countP_cons]
    cases p line <;> simp [Nat.add_comm]

/-- A line has a property or has it not, and there is only one line of a number. -/
theorem disjoint_numbersOf : List.Disjoint (numbersOf (fun line => !p line) 0 lines)
    (numbersOf p 0 lines) := by
  intro n hnot hp
  obtain ⟨m, line, hline, hfalse, hm⟩ := mem_numbersOf_iff.1 hnot
  obtain ⟨m', line', hline', htrue, hm'⟩ := mem_numbersOf_iff.1 hp
  obtain rfl : m = m' := by omega
  obtain rfl : line = line' := Option.some.inj (hline.symm.trans hline')
  rw [htrue] at hfalse
  cases hfalse

theorem mem_numbersOf_or_iff {n : Nat} :
    n ∈ numbersOf (fun line => !p line) 0 lines ∨ n ∈ numbersOf p 0 lines ↔
      1 ≤ n ∧ n ≤ lines.length := by
  constructor
  · have hrange {q : List UInt8 → Bool} (h : n ∈ numbersOf q 0 lines) :
        1 ≤ n ∧ n ≤ lines.length := by
      have := List.mem_range'_1.1 (numbersOf_sublist.subset h)
      omega
    exact fun h => h.elim hrange hrange
  · rintro ⟨hpos, hle⟩
    obtain ⟨line, hline⟩ : ∃ line, lines[n - 1]? = some line :=
      ⟨_, List.getElem?_eq_getElem (by omega)⟩
    rw [mem_numbersOf_iff, mem_numbersOf_iff]
    cases hp : p line with
    | false => exact .inl ⟨n - 1, line, hline, by rw [hp]; rfl, by omega⟩
    | true => exact .inr ⟨n - 1, line, hline, hp, by omega⟩

end

/-! ## What runs record and put out -/

/-- The warning that a line is refused with. -/
def warning? (form : LineForm) (number : Nat) (line : List UInt8) : Option Record :=
  match form.decode line with
  | .error e => some (.refused number line e)
  | .ok _ => none

section
variable (form : LineForm) (lines : List (List UInt8))

/-- Being verbose adds no warnings and takes none away. -/
theorem warningsOf_recordsOf (o : Options) :
    warningsOf (recordsOf o 0 lines) = numbered (warning? o.form) 0 lines := by
  rw [warningsOf, recordsOf, numbered_filter]
  congr 1
  funext n line
  rw [recordOf?, warning?]
  cases o.form.decode line with
  | error e => rfl
  | ok c => cases o.verbose <;> rfl

theorem map_number_warnings :
    (numbered (warning? form) 0 lines).map Record.number =
      numbersOf (isRefused form) 0 lines := by
  refine (numbered_map (k := 0) (fun n line => ?_) lines).symm
  rw [warning?]
  cases h : form.decode line with
  | error e => rw [isRefused_of_error h, Option.map_some, Record.number_refused]; rfl
  | ok c => rw [isRefused_of_ok h]; rfl

theorem map_lineNumber_entriesOf :
    (entriesOf form 0 lines).map Entry.lineNumber =
      numbersOf (fun line => !isRefused form line) 0 lines := by
  refine (numbered_map (k := 0) (fun n line => ?_) lines).symm
  rw [entryOf?]
  cases h : form.decode line with
  | error e => simp [isRefused_of_error h, Except.toOption]
  | ok c => simp [isRefused_of_ok h, Except.toOption]

theorem map_recordsOf_verbose (encoding : Encoding) :
    (recordsOf ⟨form, encoding, true⟩ 0 lines).map (fun r => (r.number, r.level)) =
      (lines.zipIdx 1).map fun (line, number) =>
        (number, if isRefused form line then .warn else .debug) := by
  let row (n : Nat) (line : List UInt8) : Nat × Level :=
    (n, if isRefused form line then .warn else .debug)
  have hrows : numbered (fun n line => some (row n line)) 0 lines =
      (recordsOf ⟨form, encoding, true⟩ 0 lines).map fun r => (r.number, r.level) := by
    refine numbered_map (k := 0) (fun n line => ?_) lines
    rw [recordOf?]
    cases h : form.decode line with
    | error e => simp [row, isRefused_of_error h]
    | ok c => simp [row, isRefused_of_ok h]
  exact hrows.symm.trans (numbered_eq_map row lines)

/-- The entries and the lines refused make up the lines. -/
theorem length_entriesOf_add :
    (entriesOf form 0 lines).length + (summaryOf form lines).failed =
      (summaryOf form lines).lines := by
  have hentries : (entriesOf form 0 lines).length =
      lines.countP fun line => !isRefused form line := by
    rw [← List.length_map Entry.lineNumber, map_lineNumber_entriesOf, length_numbersOf]
  rw [hentries, summaryOf, List.length_eq_countP_add_countP (isRefused form), Nat.add_comm]
  simp

theorem madeFrom_of_mem_entriesOf {e : Entry} (h : e ∈ entriesOf form 0 lines)
    (encoding : Encoding) :
    MadeFrom form encoding lines e.lineNumber (Utf8.encode (e.text encoding false)) := by
  obtain ⟨n, line, hline, hentry⟩ := mem_numbered_iff.1 h
  rw [entryOf?] at hentry
  cases hdecode : form.decode line with
  | error _ => simp [hdecode, Except.toOption] at hentry
  | ok c =>
    obtain rfl : (⟨n + 1, c⟩ : Entry) = e := by simpa [hdecode, Except.toOption] using hentry
    exact ⟨line, c, hline, hdecode, rfl⟩

end

theorem shownNumber_text (encoding : Encoding) (e : Entry) :
    shownNumber encoding (Utf8.encode (e.text encoding true)) = e.lineNumber := by
  rw [shownNumber, Utf8.decodeLossy_encode]
  exact Entry.number_text encoding e.lineNumber e.cell

/-- The lines of an output are the entries in writing. -/
theorem ended_output (o : Options) (input : List UInt8) :
    ended lineFeed (faultless o input).output =
        (entriesOf o.form 0 (linesOf input)).map
          (fun e => Utf8.encode (e.text o.encoding o.verbose)) ∧
      unended lineFeed (faultless o input).output = [] := by
  rw [faultless_eq]
  exact Entry.ended_flatMap_line o.encoding o.verbose _

/-- The exit code tells whether a line was refused. -/
theorem exitCode_run {args : List String} {o : Options} (h : CommandLine.parse args = .ok o)
    (input : List UInt8) :
    (Program.run args input).exitCode =
      if 0 < (summaryOf o.form (linesOf input)).failed then 1 else 0 := by
  have hrun : Program.run args input = Program.ofReport (faultless o input) := by
    rw [Program.run, h]
    rfl
  rw [hrun, faultless_eq, Program.ofReport, summaryOf]
  by_cases hfailed : 0 < (linesOf input).countP (isRefused o.form)
  · simp [hfailed]
  · simp [hfailed]

/-! ## Every run keeps an account -/

/-- **Every line is read or refused**, and that shows in the same way however the output is
presented. -/
theorem exists_account (form : LineForm) (input : List UInt8) :
    ∃ read warnings, Account form input read warnings := by
  let lines := linesOf input
  let es := entriesOf form 0 lines
  have hended (encoding : Encoding) (verbose : Bool) :
      ended lineFeed (faultless ⟨form, encoding, verbose⟩ input).output =
        es.map fun e => Utf8.encode (e.text encoding verbose) :=
    (ended_output ⟨form, encoding, verbose⟩ input).1
  have hread : es.map Entry.lineNumber = numbersOf (fun line => !isRefused form line) 0 lines :=
    map_lineNumber_entriesOf form lines
  have hrefused : (numbered (warning? form) 0 lines).map Record.number =
      numbersOf (isRefused form) 0 lines := map_number_warnings form lines
  refine ⟨es.map Entry.lineNumber, numbered (warning? form) 0 lines, ?_⟩
  constructor
  case outcome => exact fun encoding verbose => congrArg Report.outcome (faultless_eq _ input)
  case warned =>
    intro encoding verbose
    rw [faultless_eq]
    exact warningsOf_recordsOf lines ⟨form, encoding, verbose⟩
  case counted =>
    intro encoding verbose
    refine ⟨?_, (ended_output ⟨form, encoding, verbose⟩ input).2⟩
    rw [hended, List.length_map]
    exact length_entriesOf_add form lines
  case made =>
    intro encoding
    rw [hended, List.forall₂_map_left_iff, List.forall₂_map_right_iff, List.forall₂_same]
    exact fun e he => madeFrom_of_mem_entriesOf form lines he encoding
  case numbered =>
    intro encoding
    rw [hended, hended, List.zipWith_map, List.zipWith_self]
    refine List.map_congr_left fun e _ => ?_
    rw [Utf8.onText_encode, Entry.withNumber_text encoding e.lineNumber]
  case shown =>
    intro encoding
    rw [hended, List.map_map]
    exact List.map_congr_left fun e _ => shownNumber_text encoding e
  case increasing =>
    rw [hread, hrefused]
    exact ⟨pairwise_numbersOf, pairwise_numbersOf⟩
  case disjoint =>
    rw [hread, hrefused]
    exact disjoint_numbersOf
  case all =>
    intro number
    rw [hread, hrefused]
    exact mem_numbersOf_or_iff
  case recorded =>
    intro encoding
    rw [faultless_eq]
    exact map_recordsOf_verbose form lines encoding
  case exitCode => exact fun args encoding verbose h => exitCode_run h input

/-- A letter by itself is no line of digits, so the program ends with an error. -/
theorem exists_account_letter : CommandLine.parse ["-d", "-v"] = .ok ⟨.hex, .human, true⟩ ∧
    (Program.run ["-d", "-v"] [120, 10]).exitCode = 1 := by
  obtain ⟨read, warnings, account⟩ := exists_account .hex [120, 10]
  have hparse : CommandLine.parse ["-d", "-v"] = .ok ⟨.hex, .human, true⟩ := by decide +kernel
  have hfailed : 0 < (summaryOf .hex (linesOf [120, 10])).failed := by decide +kernel
  exact ⟨hparse, by rw [account.exitCode _ _ _ hparse, if_pos hfailed]⟩

end DateSpan.Run
