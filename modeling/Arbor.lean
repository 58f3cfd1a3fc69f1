import Arbor.Arena.Equality
import Arbor.Main
import Arbor.Proofs.Machine.Code
import Arbor.Proofs.Step.Balance
import Arbor.Proofs.Machine.History
import Arbor.Proofs.Machine.Sound
import Arbor.Proofs.Machine.Discipline
import Arbor.Proofs.Evaluation.Basic
import Arbor.Proofs.Evaluation.Calls
import Arbor.Proofs.Evaluation.Nodes
import Arbor.Proofs.Evaluation.Refinement
import Arbor.Proofs.Conflict.Checked
import Arbor.Proofs.Conflict.Typed
import Arbor.Proofs.Evaluation.Safety
import Arbor.Proofs.Arena.Operations
import Arbor.Proofs.Machine.Inputs
import Arbor.Proofs.Machine.Resolution
import Arbor.Proofs.Machine.Reevaluation
import Arbor.Proofs.Renaming.Session
import Arbor.Proofs.Renaming.Failure
import Arbor.Proofs.Machine.Bounded
import Arbor.Proofs.Machine.Clean
import Arbor.Proofs.Machine.Unwinding
import Arbor.Proofs.Typing.Streams
import Arbor.Proofs.Machine.Depth
import Arbor.Proofs.Conflict.Interfaces
import Arbor.Proofs.Renaming.Unborrowed
import Arbor.Proofs.Arena.Parents
import Arbor.Proofs.Conflict.Reported
import Arbor.Proofs.Typing.Transparency
import Arbor.Proofs.Diagnostic.Policy
import Arbor.Proofs.Interner
import Arbor.Proofs.Conflict.Gates
import Arbor.Proofs.Program.Interfaces
import Arbor.Proofs.Arena.Ancestors
import Arbor.Proofs.Machine.Isolation
import Arbor.Proofs.Machine.Aged
import Arbor.Proofs.Machine.Operators
import Arbor.Proofs.Evaluation.Members
import Arbor.Proofs.Typing.Compatibility
import Arbor.Proofs.Arena.Comparison
import Arbor.Proofs.Typing.Unions
import Arbor.Proofs.Typing.Dependence
import Arbor.Proofs.Typing.Instantiation
import Arbor.Proofs.Machine.Attribution
import Arbor.Proofs.Conflict.Repeated
import Arbor.Proofs.Conflict.Order
import Arbor.Proofs.Step.Paths
