import LpPresolve.Limits
import LpPresolve.PrintTarget
import LpPresolve.Proofs.Basic.Finiteness
import LpPresolve.Proofs.Basic.Measures
import LpPresolve.Proofs.Basic.Solutions
import LpPresolve.Proofs.Basic.Vertices
import LpPresolve.Proofs.Binary.Equilibration
import LpPresolve.Proofs.Binary.Magnitudes
import LpPresolve.Proofs.Binary.Maxima
import LpPresolve.Proofs.Binary.Packing
import LpPresolve.Proofs.Binary.Powers
import LpPresolve.Proofs.Binary.Rounding
import LpPresolve.Proofs.Binary.Scalars
import LpPresolve.Proofs.Binary.Values
import LpPresolve.Proofs.DenseColumns
import LpPresolve.Proofs.Equilibration.Convergence
import LpPresolve.Proofs.Equilibration.Symmetry
import LpPresolve.Proofs.Exact.Bases
import LpPresolve.Proofs.Exact.Classes
import LpPresolve.Proofs.Exact.Exponents
import LpPresolve.Proofs.Exact.Order
import LpPresolve.Proofs.Exact.Products
import LpPresolve.Proofs.FormMatrix
import LpPresolve.Proofs.Interior.Signs
import LpPresolve.Proofs.Interior.Undefined
import LpPresolve.Proofs.Interior.WarmStart
import LpPresolve.Proofs.Iterates.Evaluation
import LpPresolve.Proofs.Loading
import LpPresolve.Proofs.Optimality.Transfer
import LpPresolve.Proofs.Program.Acceptance
import LpPresolve.Proofs.Rearranged.Loading
import LpPresolve.Proofs.Rearranged.Scaling
import LpPresolve.Proofs.Scaling.Inverse
import LpPresolve.Proofs.Sparse.Adjoint
import LpPresolve.Proofs.Sparse.Augmented
import LpPresolve.Proofs.Sparse.Dense
import LpPresolve.Proofs.Sparse.Slots
import LpPresolve.Proofs.Sparse.Sorted
import LpPresolve.Quality
import LpPresolve.Scalar.Binary
import LpPresolve.Scalar.Extended
import LpPresolve.Text.Record
import LpPresolve.Text.Summary
