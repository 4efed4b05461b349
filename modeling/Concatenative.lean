import Concatenative.Arena
import Concatenative.Block
import Concatenative.CommandLine
import Concatenative.Dictionary
import Concatenative.Fault
import Concatenative.Files.Modules
import Concatenative.Files.Path
import Concatenative.Files.Tree
import Concatenative.Handle
import Concatenative.Kind
import Concatenative.Library
import Concatenative.ListText
import Concatenative.Machine
import Concatenative.Machine.Arithmetic
import Concatenative.Machine.Control
import Concatenative.Machine.Inspect
import Concatenative.Machine.Lists
import Concatenative.Machine.Run
import Concatenative.Main
import Concatenative.Module
import Concatenative.Primitive
import Concatenative.Programs
import Concatenative.Proofs.Arithmetic
import Concatenative.Proofs.BuildAndSum
import Concatenative.Proofs.Comparisons
import Concatenative.Proofs.Concatenation
import Concatenative.Proofs.Confinement
import Concatenative.Proofs.Congruence
import Concatenative.Proofs.Depth
import Concatenative.Proofs.Display
import Concatenative.Proofs.Elements
import Concatenative.Proofs.ErrorContainment
import Concatenative.Proofs.Execution
import Concatenative.Proofs.Expansion
import Concatenative.Proofs.Failures
import Concatenative.Proofs.Invocation
import Concatenative.Proofs.Kinds
import Concatenative.Proofs.LibraryWords
import Concatenative.Proofs.LineEditing
import Concatenative.Proofs.LineHistory
import Concatenative.Proofs.Lines
import Concatenative.Proofs.ListLoops
import Concatenative.Proofs.ListOperations
import Concatenative.Proofs.ListWords
import Concatenative.Proofs.Minting
import Concatenative.Proofs.ModuleNames
import Concatenative.Proofs.NormalForm
import Concatenative.Proofs.Powers
import Concatenative.Proofs.Primitives
import Concatenative.Proofs.Quotation
import Concatenative.Proofs.Reachability
import Concatenative.Proofs.Reading
import Concatenative.Proofs.RecursionLimit
import Concatenative.Proofs.References
import Concatenative.Proofs.SessionHistory
import Concatenative.Proofs.SinglePass
import Concatenative.Proofs.StackWords
import Concatenative.Proofs.StateInvariant
import Concatenative.Proofs.Substitution
import Concatenative.Proofs.TerminalSession
import Concatenative.Proofs.Termination
import Concatenative.Proofs.Transcript
import Concatenative.Proofs.Words
import Concatenative.Script
import Concatenative.Session
import Concatenative.Template
import Concatenative.Terminal.Editor
import Concatenative.Terminal.History
import Concatenative.Terminal.Interactive
import Concatenative.Text.Blank
import Concatenative.Text.Decimal
import Concatenative.Text.Pieces
