import SemiThue.CommandLine.Options
import SemiThue.CommandLine.Report
import SemiThue.CommandLine.Run
import SemiThue.CommandLine.Source
import SemiThue.Console
import SemiThue.Declaration
import SemiThue.Event
import SemiThue.Event.Filter
import SemiThue.Machine
import SemiThue.Main
import SemiThue.Program
import SemiThue.Regex
import SemiThue.Regex.Bracket
import SemiThue.Regex.Error
import SemiThue.Regex.Escape
import SemiThue.Regex.Parse
import SemiThue.Rule
import SemiThue.Script
import SemiThue.Tape
import SemiThue.Tape.ChaCha
import SemiThue.Word
import SemiThue.Word.Occurrence
import SemiThue.Word.Slice
import SemiThue.Proofs.Draws
import SemiThue.Proofs.Shuffle
import SemiThue.Proofs.Pass
import SemiThue.Proofs.Soundness
import SemiThue.Proofs.Completeness
import SemiThue.Proofs.Uniformity
import SemiThue.Proofs.Declarations
import SemiThue.Proofs.Lines
import SemiThue.Proofs.Scripts
import SemiThue.Proofs.Grammar
import SemiThue.Proofs.Reparse
import SemiThue.Proofs.Texts
import SemiThue.Proofs.Simulation
import SemiThue.Proofs.Encoding
import SemiThue.Proofs.LineBreaks
import SemiThue.Proofs.Runs
import SemiThue.Proofs.Sources
import SemiThue.Proofs.Terminals
import SemiThue.Proofs.UnreadInput
import SemiThue.Proofs.Commands
import SemiThue.Proofs.StandardInput
import SemiThue.Proofs.Boundaries
import SemiThue.Proofs.Substitutions
import SemiThue.Proofs.Readers
import SemiThue.Proofs.Layouts
import SemiThue.Proofs.Halting
import SemiThue.Proofs.Locality
import SemiThue.Proofs.RuleLines
import SemiThue.Proofs.Characterwise
import SemiThue.Proofs.Weights
import SemiThue.Proofs.Conversion
import SemiThue.Proofs.Increment
import SemiThue.Proofs.Rejection
