import DateSpan.Proofs.LineForm
import DateSpan.Proofs.Run.Trace

/-!
# Runs on the columns of an output

The lines that are put out for reading by eye have two columns, and each is an input again. A run
on the digits puts out the same lines as before, and so does a run on the text, if the lines came
from a text; otherwise the bounds are settled in the lines it puts out. In no case is a line
refused: `plainRun_columns`.

Three steps lead there. What is put out is the `writing` of the cells that the lines hold
(`output_plainRun`). The columns of it are the texts and the digits of the cells
(`splitOn_tab_columns`). And a run on such lines puts out what they are read as
(`plainRun_unlines`).
-/

namespace DateSpan.Run

open DateSpan.Stream

/-- The byte between the columns of a line. -/
def tab : UInt8 := 9

/-- One of the fields that tabs set apart in a line, counted from zero. -/
def field (n : Nat) (line : List UInt8) : List UInt8 := (line.splitOn tab).getD n []

/-- The input that is made of one field of each line of an output. -/
def column (n : Nat) (output : List UInt8) : List UInt8 :=
  unlines ((ended lineFeed output).map (field n))

/-- A run that puts out lines for reading by eye, without their numbers. -/
def plainRun (form : LineForm) (input : List UInt8) : Report :=
  faultless ⟨form, .human, false⟩ input

/-- The cells that lines hold, as far as they are not refused. -/
def cellsOf (form : LineForm) (lines : List (List UInt8)) : List Cell :=
  lines.filterMap fun line => (form.decode line).toOption

/-- The lines of cells for reading by eye. -/
def writing (cells : List Cell) : List UInt8 :=
  unlines (cells.map fun v => Utf8.encode (Entry.columns v))

/-! ## Output -/

theorem outputOf_human (form : LineForm) (before : Nat) (lines : List (List UInt8)) :
    outputOf ⟨form, .human, false⟩ before lines = writing (cellsOf form lines) := by
  induction lines generalizing before with
  | nil => rfl
  | cons line lines ih =>
    rw [← List.singleton_append, outputOf_append, outputOf_singleton, ih, entryOf?, cellsOf,
      cellsOf, List.singleton_append, List.filterMap_cons]
    cases form.decode line with
    | error e => rfl
    | ok v => rfl

theorem output_plainRun (form : LineForm) (input : List UInt8) :
    (plainRun form input).output = writing (cellsOf form (linesOf input)) := by
  rw [plainRun, faultless_eq, outputOf_human]

/-! ## Columns -/

/-- The only tab in the line of a cell is the one between its two columns. -/
theorem splitOn_tab_columns (v : Cell) :
    (Utf8.encode (Entry.columns v)).splitOn tab =
      [Utf8.encode v.text.toList, Utf8.encode v.digits] := by
  have hcut : Utf8.encode (Entry.columns v) =
      Utf8.encode v.text.toList ++ tab :: Utf8.encode v.digits := by
    rw [Entry.columns_eq, Utf8.encode_append, Utf8.encode_cons]
    rfl
  rw [hcut, List.splitOn_append_cons_self,
    List.splitOn_eq_singleton (Cell.not_mem_encode_text (by decide) v),
    List.splitOn_eq_singleton (Cell.not_mem_encode_digits (by decide) v),
    List.singleton_append]

theorem ended_writing (cells : List Cell) :
    ended lineFeed (writing cells) = cells.map fun v => Utf8.encode (Entry.columns v) := by
  refine (ended_flatMap fun l hl => ?_).1
  obtain ⟨v, -, rfl⟩ := List.mem_map.1 hl
  exact @Entry.lineFeed_not_mem_text .human false ⟨0, v⟩

theorem column_writing {n : Nat} {w : Cell → List UInt8}
    (h : ∀ v, field n (Utf8.encode (Entry.columns v)) = w v) (cells : List Cell) :
    column n (writing cells) = unlines (cells.map w) := by
  rw [column, ended_writing, List.map_map]
  exact congrArg unlines (List.map_congr_left fun v _ => h v)

/-! ## Runs on columns -/

/-- A run on lines that are each read as a cell puts out those cells. -/
theorem plainRun_unlines {form : LineForm} {w : Cell → List UInt8} {g : Cell → Cell}
    (hw : ∀ v, lineFeed ∉ w v ∧ carriageReturn ∉ w v) (h : ∀ v, form.decode (w v) = .ok (g v))
    (cells : List Cell) :
    plainRun form (unlines (cells.map w)) =
      ⟨.ok ⟨cells.length, 0⟩, [], writing (cells.map g)⟩ := by
  have hlines : linesOf (unlines (cells.map w)) = cells.map w := by
    rw [linesOf_unlines, List.map_map]
    · exact List.map_congr_left fun v _ => dropEnd_of_not_mem (hw v).2
    · intro l hl
      obtain ⟨v, -, rfl⟩ := List.mem_map.1 hl
      exact (hw v).1
  have hrefused : (cells.map w).countP (isRefused form) = 0 := by
    rw [List.countP_eq_zero]
    intro l hl
    obtain ⟨v, -, rfl⟩ := List.mem_map.1 hl
    rw [isRefused_of_ok (h v)]
    exact Bool.false_ne_true
  have hrecords : recordsOf ⟨form, .human, false⟩ 0 (cells.map w) = [] := by
    rw [recordsOf, numbered, List.filterMap_eq_nil_iff]
    rintro ⟨l, n⟩ hl
    obtain ⟨v, -, rfl⟩ := List.mem_map.1 (List.fst_mem_of_mem_zipIdx hl)
    simp only [recordOf?, h v, Bool.false_eq_true, if_false]
  have hcells : cellsOf form (cells.map w) = cells.map g := by
    rw [cellsOf, List.filterMap_map, ← List.filterMap_eq_map]
    congr 1
    funext v
    rw [Function.comp, h v]
    rfl
  rw [plainRun, faultless_eq, hlines, hrefused, hrecords, outputOf_human, hcells, List.length_map]

/-- The cells that were read from texts are settled. -/
theorem map_settle_cellsOf_literal (lines : List (List UInt8)) :
    (cellsOf .literal lines).map (Option.map Range.settle) = cellsOf .literal lines := by
  rw [cellsOf, List.map_filterMap]
  congr 1
  funext line
  cases h : LineForm.literal.decode line with
  | error e => rfl
  | ok v => exact congrArg some (LineForm.settle_of_decode_literal h)

theorem plainRun_texts (cells : List Cell) :
    plainRun .literal (column 0 (writing cells)) =
      ⟨.ok ⟨cells.length, 0⟩, [], writing (cells.map (Option.map Range.settle))⟩ := by
  have hfield (v : Cell) : field 0 (Utf8.encode (Entry.columns v)) =
      Utf8.encode v.text.toList := by
    rw [field, splitOn_tab_columns]
    rfl
  rw [column_writing hfield]
  exact plainRun_unlines
    (fun v => ⟨Cell.not_mem_encode_text (by decide) v, Cell.not_mem_encode_text (by decide) v⟩)
    LineForm.decode_text cells

theorem plainRun_digits (cells : List Cell) :
    plainRun .hex (column 1 (writing cells)) = ⟨.ok ⟨cells.length, 0⟩, [], writing cells⟩ := by
  have hfield (v : Cell) : field 1 (Utf8.encode (Entry.columns v)) = Utf8.encode v.digits := by
    rw [field, splitOn_tab_columns]
    rfl
  have hrun := plainRun_unlines
    (fun v => ⟨Cell.not_mem_encode_digits (by decide) v,
      Cell.not_mem_encode_digits (by decide) v⟩)
    LineForm.decode_digits cells
  rw [List.map_id'] at hrun
  rw [column_writing hfield, hrun]

/-- **The columns of an output are inputs for it.** A run on the digits puts out the same lines
again, whichever form they came from. So does a run on the text, if the lines came from a text.
If they came from digits, a run on the text puts out the lines of the same cells with their bounds
settled. No line is refused. -/
theorem plainRun_columns (input : List UInt8) :
    (∀ form,
      let out := (plainRun form input).output
      plainRun .hex (column 1 out) = ⟨.ok ⟨(ended lineFeed out).length, 0⟩, [], out⟩) ∧
    (let out := (plainRun .literal input).output
     plainRun .literal (column 0 out) = ⟨.ok ⟨(ended lineFeed out).length, 0⟩, [], out⟩) ∧
    (let cells := cellsOf .hex (linesOf input)
     let out := (plainRun .hex input).output
     out = writing cells ∧
      plainRun .literal (column 0 out) =
        ⟨.ok ⟨(ended lineFeed out).length, 0⟩, [],
          writing (cells.map (Option.map Range.settle))⟩) := by
  have hlength (cells : List Cell) : (ended lineFeed (writing cells)).length = cells.length := by
    rw [ended_writing, List.length_map]
  refine ⟨?_, ?_, ?_⟩
  · intro form out
    have hout : out = _ := output_plainRun form input
    rw [hout, hlength, plainRun_digits]
  · intro out
    have hout : out = _ := output_plainRun .literal input
    rw [hout, hlength, plainRun_texts, map_settle_cellsOf_literal]
  · intro cells out
    have hout : out = writing cells := output_plainRun .hex input
    refine ⟨hout, ?_⟩
    rw [hout, hlength, plainRun_texts]

end DateSpan.Run
