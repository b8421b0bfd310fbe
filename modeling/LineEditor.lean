import LineEditor.Main
import LineEditor.Text.Printed
import LineEditor.Proofs.Accesses
import LineEditor.Proofs.Regex.Backtracking
import LineEditor.Proofs.Regex.Language
import LineEditor.Proofs.Buffer.Equations
import LineEditor.Proofs.Buffer.Simulation
import LineEditor.Proofs.Buffer.Operations
import LineEditor.Proofs.Buffer.Calls
import LineEditor.Proofs.Session.Commands
import LineEditor.Proofs.Session.Tracking
import LineEditor.Proofs.Session.Visits
import LineEditor.Proofs.Buffer.Position
import LineEditor.Proofs.Buffer.Discipline
import LineEditor.Proofs.Buffer.Substituting
import LineEditor.Proofs.Session.Orderly
import LineEditor.Proofs.Session.Recording
import LineEditor.Proofs.Session.Refusals
import LineEditor.Proofs.Session.Undo
import LineEditor.Proofs.Session.Journal
import LineEditor.Proofs.Regex.Brackets
import LineEditor.Proofs.Regex.Reading
import LineEditor.Proofs.Regex.Termination
import LineEditor.Proofs.Regex.Captures
import LineEditor.Proofs.Regex.Replacing
import LineEditor.Proofs.Regex.Ways
import LineEditor.Proofs.Regex.Shifting
import LineEditor.Proofs.Regex.Enclosing
import LineEditor.Proofs.Regex.WholeMatch
import LineEditor.Proofs.Regex.Quoting
import LineEditor.Proofs.Regex.Unquoted
import LineEditor.Proofs.Regex.Tables
import LineEditor.Proofs.Regex.Sets
import LineEditor.Proofs.Session.Failures
import LineEditor.Proofs.Buffer.Consistency
import LineEditor.Proofs.Session.Invariants
import LineEditor.Proofs.Regex.Bounds
import LineEditor.Proofs.Regex.PatternBounds
import LineEditor.Proofs.Buffer.Bounds
import LineEditor.Proofs.Command.TextBounds
import LineEditor.Proofs.Command.Bounds
import LineEditor.Proofs.Command.Literals
import LineEditor.Proofs.Command.Patterns
import LineEditor.Proofs.Session.Bounds
import LineEditor.Proofs.Session.Consistency
import LineEditor.Proofs.Session.Newlines
import LineEditor.Proofs.Session.UserErrors
import LineEditor.Proofs.Session.Truncation
import LineEditor.Proofs.Session.FailingOutput
import LineEditor.Proofs.Address.Searching
import LineEditor.Proofs.Session.Quitting
import LineEditor.Proofs.Command.Delimiters
import LineEditor.Proofs.Address.Spelling
import LineEditor.Proofs.Address.Sums
import LineEditor.Proofs.Session.Inline
import LineEditor.Proofs.Address.Resolving
import LineEditor.Proofs.Text.Listing
import LineEditor.Proofs.Session.Printing
import LineEditor.Proofs.Text.Splitting
