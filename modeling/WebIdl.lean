import WebIdl.CommandLine.Commands
import WebIdl.CommandLine.Workspace
import WebIdl.Main
import WebIdl.Proofs.Combining.Lines
import WebIdl.Proofs.Combining.Texts
import WebIdl.Proofs.Dumping.Statements
import WebIdl.Proofs.EscapedNames
import WebIdl.Proofs.KeptTrivia
import WebIdl.Proofs.Lexing.Failures
import WebIdl.Proofs.Lexing.LongestNumerals
import WebIdl.Proofs.Lexing.Standalone
import WebIdl.Proofs.Merging.Increments
import WebIdl.Proofs.Merging.Interleavings
import WebIdl.Proofs.Printing.Agreement
import WebIdl.Proofs.Printing.Blocks
import WebIdl.Proofs.Printing.Columns
import WebIdl.Proofs.Printing.Fields
import WebIdl.Proofs.Printing.Layouts
import WebIdl.Proofs.Printing.Relexing
import WebIdl.Proofs.Printing.Rereading
import WebIdl.Proofs.Printing.Visible
import WebIdl.Proofs.Progress.Places
import WebIdl.Proofs.Progress.Productions
import WebIdl.Proofs.Rendering
import WebIdl.Proofs.Sessions
import WebIdl.Proofs.Sound.Parses
import WebIdl.Proofs.Synonyms
import WebIdl.Proofs.Writing.Types
import WebIdl.Surface
