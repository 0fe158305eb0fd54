import SlotScript.Config.Variables
import SlotScript.Config.Json
import SlotScript.Machine.Statement
import SlotScript.Version
import SlotScript.Proofs.Arena.Stepwise
import SlotScript.Proofs.Arena.Accounting
import SlotScript.Proofs.Arena.Added
import SlotScript.Proofs.Arena.Reachability
import SlotScript.Proofs.Arena.Closed
import SlotScript.Proofs.Arena.Frame
import SlotScript.Proofs.Machine.Session
import SlotScript.Proofs.Machine.Sound
import SlotScript.Proofs.Machine.Safety
import SlotScript.Proofs.Renaming
import SlotScript.Proofs.Follows
import SlotScript.Proofs.Arena.Mirrored
import SlotScript.Proofs.Arena.Nesting
import SlotScript.Proofs.Arena.Printed
import SlotScript.Proofs.Machine.Mirrored
import SlotScript.Proofs.Machine.Transparency
import SlotScript.Proofs.Machine.Bookkeeping
import SlotScript.Proofs.Machine.Evaluations
import SlotScript.Proofs.Arena.Allocation
import SlotScript.Proofs.Machine.Spending
import SlotScript.Proofs.Arena.Failure
import SlotScript.Proofs.Machine.Failure
import SlotScript.Proofs.Machine.Separation
import SlotScript.Proofs.Machine.Capacity
import SlotScript.Proofs.Arena.Writing
import SlotScript.Proofs.Arena.Sharing
import SlotScript.Proofs.Machine.Sharing
import SlotScript.Proofs.Arena.Collected
import SlotScript.Proofs.Entries
import SlotScript.Proofs.Arena.NewContainer
import SlotScript.Proofs.Elements
import SlotScript.Proofs.Arena.Positions
import SlotScript.Proofs.Numeral.Grammar
import SlotScript.Proofs.Numeral.RoundTrip
import SlotScript.Proofs.Double.Nearest
import SlotScript.Proofs.Numeral.Digits
import SlotScript.Proofs.Numeral.Whole
import SlotScript.Proofs.Numeral.Radix
import SlotScript.Proofs.Numeral.Index
import SlotScript.Proofs.Machine.Bound
import SlotScript.Proofs.Machine.Eager
import SlotScript.Proofs.Comparison
import SlotScript.Proofs.Order
import SlotScript.Proofs.Congruence
import SlotScript.Proofs.Quoted
import SlotScript.Proofs.PartialArray
import SlotScript.Proofs.NameTable
import SlotScript.Proofs.Keys
