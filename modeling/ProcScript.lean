import ProcScript.Main
import ProcScript.Proofs.Check.Verdict
import ProcScript.Proofs.Syntax.Acceptance
import ProcScript.Proofs.Syntax.Printing
import ProcScript.Proofs.Calls.Order
import ProcScript.Proofs.Syntax.Independence
import ProcScript.Proofs.Layout
import ProcScript.Proofs.Lexing.Tiling
import ProcScript.Proofs.Check.Modular
import ProcScript.Proofs.Calls.Drawing
import ProcScript.Proofs.Stages
import ProcScript.Proofs.Locations
import ProcScript.Proofs.Calls.Targets
import ProcScript.Proofs.Syntax.Layers
import ProcScript.Proofs.Files
import ProcScript.Proofs.Command.Args
import ProcScript.Proofs.Command.Effects
import ProcScript.Proofs.Json
import ProcScript.Proofs.Command.Presentation
import ProcScript.Proofs.Check.Recording
import ProcScript.Proofs.Syntax.Numbers
import ProcScript.Proofs.Check.Ledger
import ProcScript.Proofs.Check.Mismatches
import ProcScript.Proofs.Check.Duplicates
import ProcScript.Proofs.Calls.Exact
import ProcScript.Proofs.Check.Returns
import ProcScript.Proofs.Syntax.Parting
import ProcScript.Proofs.Annotations
import ProcScript.Proofs.Renaming
import ProcScript.Proofs.Syntax.Leading
import ProcScript.Proofs.Syntax.Malformed
import ProcScript.Proofs.Syntax.Unclosed
import ProcScript.Proofs.Lexing.Munch
import ProcScript.Proofs.Lexing.Restart
import ProcScript.Proofs.Syntax.Moves
import ProcScript.Proofs.Sequence
import ProcScript.Proofs.Check.Names
import ProcScript.Proofs.OneLine
import ProcScript.Proofs.Lexing.Tracking
import ProcScript.Proofs.Lexing.Spaced
import ProcScript.Proofs.Paths
import ProcScript.Proofs.Search
import ProcScript.Proofs.Syntax.Progress
import ProcScript.Proofs.Digraph
import ProcScript.Proofs.Check.Stores
