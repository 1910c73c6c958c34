import Reprint.Text.Position
import Reprint.Text.Source
import Reprint.Text.Blank
import Reprint.Comment
import Reprint.Numeral
import Reprint.Token
import Reprint.Error
import Reprint.Token.Lexer
import Reprint.Tree
import Reprint.Cursor
import Reprint.Reading
import Reprint.Reading.Calls
import Reprint.Printer
import Reprint.Outliner
import Reprint.Walk
import Reprint.Fragment
import Reprint.RoundTrip
import Reprint.CommandLine
import Reprint.Main
import Reprint.Proofs.Derivation
import Reprint.Proofs.Lexemes
import Reprint.Proofs.Conservation
import Reprint.Proofs.WellFormed
import Reprint.Proofs.Layout
import Reprint.Proofs.Relexing
import Reprint.Proofs.Reparse
import Reprint.Proofs.Outcome
import Reprint.Proofs.Grammar
import Reprint.Proofs.Ranges
import Reprint.Proofs.Ownership
import Reprint.Proofs.Cutting
import Reprint.Proofs.Failure
import Reprint.Proofs.Similarity
import Reprint.Proofs.LineBreaks
import Reprint.Proofs.Viability
import Reprint.Proofs.Earliest
import Reprint.Proofs.Carriage
import Reprint.Proofs.Entries
import Reprint.Proofs.Calls
import Reprint.Proofs.Semicolons
import Reprint.Proofs.Joining
import Reprint.Proofs.Validity
import Reprint.Proofs.Positions
import Reprint.Proofs.Lossless
import Reprint.Proofs.Munch
import Reprint.Proofs.LineColumns
import Reprint.Proofs.LexErrors
import Reprint.Proofs.Boundaries
import Reprint.Proofs.Lines
import Reprint.Proofs.OutlineRows
import Reprint.Proofs.Sketches
import Reprint.Proofs.OutlineLines
import Reprint.Proofs.OutlineFaithful
import Reprint.Proofs.Actions
import Reprint.Proofs.Indentation
import Reprint.Proofs.LineAnswers
import Reprint.Proofs.NumeralValues
import Reprint.Proofs.PlainExpr
import Reprint.Proofs.QueueOrder
import Reprint.Proofs.Termination
