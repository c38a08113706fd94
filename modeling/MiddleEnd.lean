import MiddleEnd.Compile
import MiddleEnd.Allocation.Bank
import MiddleEnd.Convention.Aapcs64
import MiddleEnd.Convention.SysV
import MiddleEnd.Proofs.Liveness.Exact
import MiddleEnd.Proofs.Liveness.Least
import MiddleEnd.Proofs.Liveness.Settling
import MiddleEnd.Proofs.Interference
import MiddleEnd.Proofs.Lowering.WellFormed
import MiddleEnd.Proofs.Allocation.Unit
import MiddleEnd.Proofs.Allocation.Compliance
import MiddleEnd.Proofs.Allocation.Target
import MiddleEnd.Proofs.Allocation.Coverage
import MiddleEnd.Proofs.Allocation.FirstFit
import MiddleEnd.Proofs.Allocation.Independence
import MiddleEnd.Proofs.Allocation.Session
import MiddleEnd.Proofs.Execution.Agreement
import MiddleEnd.Proofs.Simulation.Program
import MiddleEnd.Proofs.Simulation.Order
import MiddleEnd.Proofs.Execution.Liveness
import MiddleEnd.Proofs.Lowering.Linear
import MiddleEnd.Proofs.Lowering.Failure
import MiddleEnd.Proofs.Liveness.Temporaries
import MiddleEnd.Proofs.Flow.Malformed
import MiddleEnd.Proofs.Liveness.NextUse
import MiddleEnd.Proofs.Allocation.AnyOrder
import MiddleEnd.Proofs.Allocation.Repetition
import MiddleEnd.Proofs.Lowering.Shape
import MiddleEnd.Proofs.Lowering.Marshalling
import MiddleEnd.Proofs.Allocation.Record
import MiddleEnd.Proofs.Allocation.Returns
import MiddleEnd.Proofs.Allocation.Fusion
import MiddleEnd.Proofs.Digraph.History
import MiddleEnd.Proofs.Flow.Lookup
import MiddleEnd.Proofs.Interference.Consistent
import MiddleEnd.Proofs.Lowering.Scaling
import MiddleEnd.Proofs.Bank.History
import MiddleEnd.Proofs.Bank
import MiddleEnd.Proofs.Bank.History
import MiddleEnd.Proofs.Allocation.Bank
