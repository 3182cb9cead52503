import FlatLisp.Main
import FlatLisp.Cell.Order
import FlatLisp.Proofs.Arena.Chain
import FlatLisp.Proofs.Arena.Course
import FlatLisp.Proofs.Arena.Discipline
import FlatLisp.Proofs.Arena.Holdings
import FlatLisp.Proofs.Arena.MarkStacks
import FlatLisp.Proofs.Arena.Operations
import FlatLisp.Proofs.Arena.Pile
import FlatLisp.Proofs.Arena.Refusal
import FlatLisp.Proofs.Arena.Soundness
import FlatLisp.Proofs.Arena.Stale
import FlatLisp.Proofs.Arena.Tenure
import FlatLisp.Proofs.Cell.Comparison
import FlatLisp.Proofs.Cell.Depiction
import FlatLisp.Proofs.Cell.Order
import FlatLisp.Proofs.Cell.Traversal
import FlatLisp.Proofs.Console.Upkeep
import FlatLisp.Proofs.Guard.Placement
import FlatLisp.Proofs.Guard.Recovery
import FlatLisp.Proofs.Printing.Display
import FlatLisp.Proofs.Printing.Ending
import FlatLisp.Proofs.Printing.Frame
import FlatLisp.Proofs.Printing.Reread
import FlatLisp.Proofs.Printing.Resumption
import FlatLisp.Proofs.Printing.RoundTrip
import FlatLisp.Proofs.Printing.Run
import FlatLisp.Proofs.Printing.Turn
import FlatLisp.Proofs.Printing.WellFormed
import FlatLisp.Proofs.Printing.Work
import FlatLisp.Proofs.Reading.Acceptance
import FlatLisp.Proofs.Reading.Account
import FlatLisp.Proofs.Reading.Completion
import FlatLisp.Proofs.Reading.Layers
import FlatLisp.Proofs.Reading.Missing
import FlatLisp.Proofs.Reading.Need
import FlatLisp.Proofs.Reading.Suspension
import FlatLisp.Proofs.Reading.Termination
import FlatLisp.Proofs.Reading.Undisturbed
import FlatLisp.Proofs.Reading.Value
import FlatLisp.Proofs.Store.Blocks
import FlatLisp.Proofs.Store.Coalesced
import FlatLisp.Proofs.Store.Damaged
import FlatLisp.Proofs.Store.Handling
import FlatLisp.Proofs.Store.Link
import FlatLisp.Proofs.Store.Persistence
import FlatLisp.Proofs.Store.Traffic
import FlatLisp.Proofs.Store.Usage
