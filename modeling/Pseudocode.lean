import Pseudocode.Main
import Pseudocode.Proofs.Stream
import Pseudocode.Proofs.Tree.Reference
import Pseudocode.Proofs.Tree.View
import Pseudocode.Proofs.Recovery.Fusion
import Pseudocode.Proofs.Recovery.Slots
import Pseudocode.Proofs.Recovery.Accesses
import Pseudocode.Proofs.Recovery.Canary
import Pseudocode.Proofs.Line.Shown
import Pseudocode.Proofs.Line.Reading
import Pseudocode.Proofs.Coverage
import Pseudocode.Proofs.Tree.Execution
import Pseudocode.Proofs.Text.Hex
import Pseudocode.Proofs.Text.Spelling
import Pseudocode.Proofs.Line.Spelling
import Pseudocode.Proofs.Line.Text
import Pseudocode.Proofs.Line.Operands
import Pseudocode.Proofs.Suppression
import Pseudocode.Proofs.FixedPoint
import Pseudocode.Proofs.Locals
import Pseudocode.Proofs.Recovery.History
import Pseudocode.Proofs.Recovery.Agreement
import Pseudocode.Proofs.Naming
import Pseudocode.Proofs.Symbols
import Pseudocode.Proofs.Painting
import Pseudocode.Proofs.Line.Painted
import Pseudocode.Proofs.Comments
import Pseudocode.Proofs.Line.Nesting
import Pseudocode.Proofs.Text.Braces
import Pseudocode.Proofs.Json.Scan
import Pseudocode.Proofs.Json.Parse
import Pseudocode.Proofs.Command
import Pseudocode.Proofs.Nesting
import Pseudocode.Proofs.Format.Tree
import Pseudocode.Proofs.Recovery.Attachment
import Pseudocode.Proofs.Recovery.Discovery
import Pseudocode.Proofs.Recovery.Guard
import Pseudocode.Proofs.Line.Chain
import Pseudocode.Proofs.Addresses
import Pseudocode.Proofs.Colors
import Pseudocode.Proofs.Safety
import Pseudocode.Proofs.Tree.Validity
import Pseudocode.Proofs.Landings
import Pseudocode.Proofs.Machine.Operand
import Pseudocode.Proofs.Tree.Splicing
import Pseudocode.Proofs.Zeroing
