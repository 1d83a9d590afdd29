import DateSpan.Main
import DateSpan.Proofs.Calendar.Counting
import DateSpan.Proofs.Data
import DateSpan.Proofs.Decoding
import DateSpan.Proofs.Editing
import DateSpan.Proofs.Entry
import DateSpan.Proofs.EntryJson
import DateSpan.Proofs.Grammar
import DateSpan.Proofs.Grammar.Acceptance
import DateSpan.Proofs.Grammar.Direct
import DateSpan.Proofs.Grammar.Inference
import DateSpan.Proofs.Grammar.Inversion
import DateSpan.Proofs.Grammar.Reading
import DateSpan.Proofs.Grammar.Refusal
import DateSpan.Proofs.Grammar.Writing
import DateSpan.Proofs.HexLine
import DateSpan.Proofs.LineForm
import DateSpan.Proofs.Nesting
import DateSpan.Proofs.Numbering
import DateSpan.Proofs.Ordering
import DateSpan.Proofs.Output
import DateSpan.Proofs.Period
import DateSpan.Proofs.RangeJson
import DateSpan.Proofs.Reachable
import DateSpan.Proofs.Rebuilding
import DateSpan.Proofs.RoundTrip.Bytes
import DateSpan.Proofs.RoundTrip.Canonical
import DateSpan.Proofs.RoundTrip.Text
import DateSpan.Proofs.RoundTrip.Timestamp
import DateSpan.Proofs.Run.Account
import DateSpan.Proofs.Run.Append
import DateSpan.Proofs.Run.Columns
import DateSpan.Proofs.Run.Faults
import DateSpan.Proofs.Run.Loop
import DateSpan.Proofs.Run.Trace
import DateSpan.Proofs.Stream.Lines
import DateSpan.Proofs.Stream.Reader
import DateSpan.Proofs.Stream.Sink
import DateSpan.Proofs.Text.Utf8
import DateSpan.Proofs.Tiling
import DateSpan.Range.Edit
