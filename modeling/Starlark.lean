import Starlark.Code.Listing
import Starlark.Lower.Program
import Starlark.Machine.Session
import Starlark.Proofs.Code.Persistence
import Starlark.Proofs.Code.Truncation
import Starlark.Proofs.Flow.Positions
import Starlark.Proofs.Flow.Refinement
import Starlark.Proofs.Flow.Totality
import Starlark.Proofs.Lower.Emits
import Starlark.Proofs.Lower.Reach
import Starlark.Proofs.Lower.Translation
import Starlark.Proofs.Lower.Typability
import Starlark.Proofs.Lower.Validity
import Starlark.Proofs.Machine.Limits
import Starlark.Proofs.Machine.Permanence
import Starlark.Proofs.Machine.Recursion
import Starlark.Proofs.Machine.Concealment
import Starlark.Proofs.Machine.Soundness
import Starlark.Text.Hex
import Starlark.Proofs.Direct.Evaluation
import Starlark.Proofs.Direct.Operands
import Starlark.Proofs.Direct.Preservation
import Starlark.Machine.Pool
import Starlark.Proofs.Machine.Pooling
import Starlark.Proofs.Machine.Traceback
import Starlark.Proofs.Direct.Folding
import Starlark.Proofs.Operation.Equivalence
import Starlark.Proofs.Machine.Descent
import Starlark.Proofs.Machine.Binding
import Starlark.Proofs.Operation.Ordering
import Starlark.Proofs.Operation.Overflow
import Starlark.Proofs.Machine.Distinctness
import Starlark.Proofs.Operation.Ranges
import Starlark.Proofs.Direct.Conditions
import Starlark.Proofs.Direct.Calls
import Starlark.Proofs.Direct.Closures
import Starlark.Proofs.Machine.Atomicity
import Starlark.Proofs.Direct.Loading
import Starlark.Proofs.Code.Tiling
import Starlark.Proofs.Machine.Succession
import Starlark.Proofs.Lower.Sharing
