import ContextFree.BreadthFirst
import ContextFree.CommandLine.Options
import ContextFree.CommandLine.Report
import ContextFree.Cyk.Chart
import ContextFree.Cyk.Entries
import ContextFree.Cyk.Reasons
import ContextFree.Cyk.Span
import ContextFree.Cyk.Table
import ContextFree.Cyk.Trace
import ContextFree.Earley.Chart
import ContextFree.Earley.Item
import ContextFree.Earley.ItemSet
import ContextFree.Earley.Run
import ContextFree.Grammar.Basic
import ContextFree.Grammar.Builder
import ContextFree.Grammar.Error
import ContextFree.Grammar.Example
import ContextFree.Grammar.NameTable
import ContextFree.Grammar.Text
import ContextFree.Language.Derivation
import ContextFree.Language.Leftmost
import ContextFree.Language.SententialForm
import ContextFree.Main
import ContextFree.NormalForm.Binary
import ContextFree.NormalForm.Fresh
import ContextFree.NormalForm.UnitClosure
import ContextFree.Notation.Line
import ContextFree.Notation.Printer
import ContextFree.Notation.Reader
import ContextFree.Notation.Token
import ContextFree.Recognition.Basic
import ContextFree.Recognition.Event
import ContextFree.Recognition.Limits
import ContextFree.Recognition.Memory
import ContextFree.Recognition.Verdict
import ContextFree.Text.Blank
import ContextFree.Text.Lines
import ContextFree.Text.Number
import ContextFree.Proofs.Earley.Deduction
import ContextFree.Proofs.Earley.Run
import ContextFree.Proofs.Earley.Saturation
import ContextFree.Proofs.Earley.Membership
import ContextFree.Proofs.Cyk.BinaryPart
import ContextFree.Proofs.Cyk.Filling
import ContextFree.Proofs.Cyk.Exact
import ContextFree.Proofs.Cyk.Reasons
import ContextFree.Proofs.Cyk.Trace
import ContextFree.Proofs.BreadthFirst
import ContextFree.Proofs.BreadthFirst.Order
import ContextFree.Proofs.Language.Leftmost
import ContextFree.Proofs.Language.Enumeration
import ContextFree.Proofs.NormalForm.UnitClosure
import ContextFree.Proofs.NormalForm.UnitOrder
import ContextFree.Proofs.NormalForm.Binarization
import ContextFree.Proofs.NormalForm.Language
import ContextFree.Proofs.NormalForm.Role
import ContextFree.Proofs.NormalForm.Roles
import ContextFree.Proofs.NormalForm.Renumbering
import ContextFree.Proofs.NormalForm.FixedPoint
import ContextFree.Proofs.Grammar.Obtainable
import ContextFree.Proofs.Agreement
import ContextFree.Proofs.Earley.Validity
import ContextFree.Proofs.Earley.Bound
import ContextFree.Proofs.Earley.Truncation
import ContextFree.Proofs.Earley.Moment
import ContextFree.Proofs.Earley.Report
import ContextFree.Proofs.Earley.Progress
import ContextFree.Proofs.Grammar.Renaming
import ContextFree.Proofs.Earley.Renumbering
import ContextFree.Proofs.Notation.Line
import ContextFree.Proofs.Notation.Token
import ContextFree.Proofs.Text.Lines
import ContextFree.Proofs.Grammar.Resolved
import ContextFree.Proofs.Grammar.Spelling
import ContextFree.Proofs.DefinitionOrder
import ContextFree.Proofs.Notation.Numbering
import ContextFree.Proofs.Notation.Printed
import ContextFree.Proofs.Notation.Readable
import ContextFree.Proofs.Notation.RoundTrip
import ContextFree.Proofs.CommandLine.ExitCode
import ContextFree.Proofs.Cyk.TieBreak
import ContextFree.Proofs.Cyk.Report
import ContextFree.Proofs.Grammar.Representation
import ContextFree.Proofs.Guarded.Cyk
import ContextFree.Proofs.Guarded.Earley
import ContextFree.Proofs.Guarded.Recognition
import ContextFree.Proofs.NormalForm.Size
import ContextFree.Proofs.Cyk.Subchart
import ContextFree.Proofs.Earley.Online
import ContextFree.Proofs.Grammar.Described
import ContextFree.Proofs.Notation.Quoting
import ContextFree.Proofs.Notation.Streams
import ContextFree.Proofs.Notation.Flaw
import ContextFree.Proofs.Notation.Alternatives
import ContextFree.Proofs.Cyk.Recording
import ContextFree.Proofs.Notation.Characters
import ContextFree.Proofs.CommandLine.Groups
import ContextFree.Proofs.Notation.Pattern
import ContextFree.Proofs.Notation.Scanner
import ContextFree.Proofs.NormalForm.FreshNames
import ContextFree.Proofs.Notation.Header
