import TritonTvm.Arith.ModularScopes
import TritonTvm.Arith.SolveInequalitySound
import TritonTvm.Arith.SolveEquationExact
import TritonTvm.Contrib.Custody
import TritonTvm.Contrib.Extraction
import TritonTvm.Arith.TransitiveSound
import TritonTvm.Arith.BoundDeducerSound
import TritonTvm.Relax.SingleExit
import TritonTvm.Contrib.BufferPlan
import TritonTvm.Runtime.ArrayCover
import TritonTvm.Runtime.ParallelBarrier
import TritonTvm.Runtime.PooledAllocator
import TritonTvm.Arith.BoundChecks
import TritonTvm.Arith.GlobalNonNeg
import TritonTvm.Arith.SumExprSound
import TritonTvm.Runtime.TokenTreeChain
import TritonTvm.Arith.SmithMatrix
import TritonTvm.Arith.BestRange
import TritonTvm.Arith.ReduceCombiner
import TritonTvm.Relax.MatchCast
import TritonTvm.Arith.IterSum
import TritonTvm.Relax.Placement
import TritonTvm.Arith.ProductAndSum
import TritonTvm.Relax.TopologicalSort
import TritonTvm.Support.Base64
import TritonTvm.Tirx.StorageRewrite
