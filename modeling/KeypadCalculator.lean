import KeypadCalculator.Binary64.Arithmetic
import KeypadCalculator.Binary64.Basic
import KeypadCalculator.Binary64.Decimal
import KeypadCalculator.Binary64.Numeral
import KeypadCalculator.Binary64.Rounding
import KeypadCalculator.Calendar
import KeypadCalculator.CommandLine.Arguments
import KeypadCalculator.CommandLine.Files
import KeypadCalculator.CommandLine.Repl
import KeypadCalculator.CommandLine.Run
import KeypadCalculator.Display
import KeypadCalculator.Evaluation
import KeypadCalculator.Fault
import KeypadCalculator.Glyph
import KeypadCalculator.History.Age
import KeypadCalculator.History.Archive
import KeypadCalculator.History.Entry
import KeypadCalculator.History.Store
import KeypadCalculator.Json.Reading
import KeypadCalculator.Json.Writing
import KeypadCalculator.Keypad.Admission
import KeypadCalculator.Keypad.Key
import KeypadCalculator.Keypad.Session
import KeypadCalculator.Main
import KeypadCalculator.Operator
import KeypadCalculator.Postfix
import KeypadCalculator.PrefixMinus
import KeypadCalculator.Proofs.Phrase.Alternation
import KeypadCalculator.Proofs.Phrase.Completion
import KeypadCalculator.Proofs.Phrase.Descent
import KeypadCalculator.Proofs.Phrase.Evaluation
import KeypadCalculator.Proofs.Phrase.Grammar
import KeypadCalculator.Proofs.Phrase.Postorder
import KeypadCalculator.Proofs.Token.Literal
import KeypadCalculator.Proofs.Token.Splitting
import KeypadCalculator.Settings.Basic
import KeypadCalculator.Settings.Statement
import KeypadCalculator.Settings.Toml
import KeypadCalculator.Text.Blank
import KeypadCalculator.Text.Clip
import KeypadCalculator.Text.DecimalDigit
import KeypadCalculator.Token
import KeypadCalculator.Proofs.Phrase.Arity
import KeypadCalculator.Proofs.Keypad.Admission
import KeypadCalculator.Proofs.Keypad.Alternation
import KeypadCalculator.Proofs.Keypad.Appending
import KeypadCalculator.Proofs.Keypad.Nesting
import KeypadCalculator.Proofs.Keypad.Language
import KeypadCalculator.Proofs.Keypad.PointsApart
import KeypadCalculator.Proofs.Keypad.Filtering
import KeypadCalculator.Proofs.Phrase.Depth
import KeypadCalculator.Proofs.Phrase.OperandCount
import KeypadCalculator.Proofs.Phrase.OuterParens
import KeypadCalculator.Proofs.Phrase.Adjacency
import KeypadCalculator.Proofs.Phrase.Sentence
import KeypadCalculator.Proofs.Phrase.Suffix
import KeypadCalculator.Proofs.Phrase.Context
import KeypadCalculator.Proofs.Phrase.Isolation
import KeypadCalculator.Proofs.Phrase.Released
import KeypadCalculator.Proofs.Phrase.OperandStack
import KeypadCalculator.Proofs.Binary64.Nearest
import KeypadCalculator.Proofs.Binary64.Numeral
import KeypadCalculator.Proofs.Binary64.Decimal
import KeypadCalculator.Proofs.Display.Settled
import KeypadCalculator.Proofs.Keypad.Settling
import KeypadCalculator.Proofs.Json.RoundTrip
import KeypadCalculator.Proofs.History.Document
import KeypadCalculator.Proofs.History.Contents
import KeypadCalculator.Proofs.History.Reopening
import KeypadCalculator.Proofs.CommandLine.Recording
import KeypadCalculator.Proofs.CommandLine.Runs
import KeypadCalculator.Proofs.History.Recency
import KeypadCalculator.Proofs.Keypad.Editing
import KeypadCalculator.Proofs.Keypad.Leftovers
import KeypadCalculator.Proofs.Keypad.Separation
import KeypadCalculator.Proofs.Token.RoundTrip
import KeypadCalculator.Proofs.Keypad.SecondPoint
import KeypadCalculator.Proofs.Keypad.Replacing
import KeypadCalculator.Proofs.Keypad.Rows
import KeypadCalculator.Proofs.Binary64.Distance
import KeypadCalculator.Proofs.Phrase.Collapsing
import KeypadCalculator.Proofs.Phrase.Height
import KeypadCalculator.Proofs.Phrase.Reordering
import KeypadCalculator.Proofs.Binary64.SevenDigits
import KeypadCalculator.Proofs.Display.TwelvePlaces
import KeypadCalculator.Proofs.Display.ShownAgain
import KeypadCalculator.Proofs.Text.Cutting
import KeypadCalculator.Proofs.Keypad.Typing
import KeypadCalculator.Proofs.Display.Grouping
import KeypadCalculator.Proofs.Binary64.SeventeenDigits
import KeypadCalculator.Proofs.Display.Shape
import KeypadCalculator.Proofs.Display.Notation
import KeypadCalculator.Proofs.Calendar.DayCount
import KeypadCalculator.Proofs.Calendar.DateText
import KeypadCalculator.Proofs.History.Ages
import KeypadCalculator.Proofs.History.Columns
import KeypadCalculator.Proofs.Phrase.Insertion
import KeypadCalculator.Proofs.Binary64.RoundsTo
import KeypadCalculator.Proofs.Token.NumeralText
import KeypadCalculator.Proofs.Binary64.LeadingNumber
import KeypadCalculator.Proofs.CommandLine.Paths
import KeypadCalculator.Proofs.Phrase.Arithmetic
