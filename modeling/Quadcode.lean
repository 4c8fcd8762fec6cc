import Quadcode.Main
import Quadcode.Proofs.Eval.Isolation
import Quadcode.Proofs.Flow.ConstantFacts
import Quadcode.Proofs.Flow.Equations
import Quadcode.Proofs.Flow.Frontiers
import Quadcode.Proofs.Flow.LoopForest
import Quadcode.Proofs.Graph.Rejection
import Quadcode.Proofs.Graph.RoundTrip
import Quadcode.Proofs.Interning
import Quadcode.Proofs.Lowering.Correctness
import Quadcode.Proofs.Lowering.Listing
import Quadcode.Proofs.Lowering.Printing
import Quadcode.Proofs.Optimizer.Aliases
import Quadcode.Proofs.Optimizer.CommonSubexpressions
import Quadcode.Proofs.Optimizer.ConstantFolding
import Quadcode.Proofs.Optimizer.CopyPropagation
import Quadcode.Proofs.Optimizer.DeadCode
import Quadcode.Proofs.Optimizer.EmptyFunctions
import Quadcode.Proofs.Optimizer.Fixpoint
import Quadcode.Proofs.Optimizer.InvariantMotion
import Quadcode.Proofs.Optimizer.ParameterPropagation
import Quadcode.Proofs.Optimizer.Tidying
import Quadcode.Proofs.Optimizer.Unrolling
import Quadcode.Proofs.Optimizer.Unswitching
import Quadcode.Proofs.X86.NormalForm
import Quadcode.Proofs.X86.Peephole
import Quadcode.Proofs.X86.Words
