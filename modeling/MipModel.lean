import MipModel.Scalar.Binary64
import MipModel.Scalar.Rational
import MipModel.Digest.Sha256
import MipModel.Error
import MipModel.Polynomial.Monomial
import MipModel.Table.Registry
import MipModel.Table.Sorted
import MipModel.Text.Blank
import MipModel.Text.Identifier
import MipModel.Polynomial.Basic
import MipModel.Polynomial.Text
import MipModel.Constraint.Basic
import MipModel.Family.Basic
import MipModel.Variable.Basic
import MipModel.Variable.Interval
import MipModel.Expr.Basic
import MipModel.Expr.Classification
import MipModel.Expr.References
import MipModel.Expr.Text
import MipModel.Expr.Constant
import MipModel.Expr.Evaluation
import MipModel.Linearization.BigM
import MipModel.Linearization.Construct
import MipModel.Linearization.Gadget
import MipModel.Linearization.Naming
import MipModel.Model.Basic
import MipModel.Model.Constrain
import MipModel.Model.Feasibility
import MipModel.Conic.Form
import MipModel.Lp.Text
import MipModel.Solution
import MipModel.Proofs.Building
import MipModel.Proofs.Growth
import MipModel.Proofs.Encoding
import MipModel.Proofs.Numbering
import MipModel.Proofs.Subexpressions
import MipModel.Proofs.Consistency
import MipModel.Proofs.Reachability
import MipModel.Proofs.Atomicity
import MipModel.Proofs.Valuation
import MipModel.Proofs.Interpretation
import MipModel.Proofs.Curvature
import MipModel.Proofs.Compilation
import MipModel.Proofs.Meaning
import MipModel.Proofs.Rows
import MipModel.Proofs.Feasibility
import MipModel.Proofs.Soundness
import MipModel.Proofs.Coverage
import MipModel.Proofs.Completeness
import MipModel.Proofs.Truth
import MipModel.Proofs.Alike
import MipModel.Proofs.Backing
import MipModel.Proofs.Closure
import MipModel.Proofs.History
import MipModel.Proofs.Interchange
import MipModel.Proofs.Repetition
import MipModel.Proofs.Degrees
import MipModel.Proofs.Linearity
import MipModel.Proofs.NormalForms
import MipModel.Proofs.Runs
import MipModel.Proofs.Compression
import MipModel.Proofs.Insertion
import MipModel.Proofs.Matrices
import MipModel.Proofs.Cones
import MipModel.Proofs.DirectReading
import MipModel.Proofs.Reconstruction
import MipModel.Proofs.ByteOrder
import MipModel.Proofs.CanonicalForms
import MipModel.Proofs.RingLaws
import MipModel.Proofs.Emission
import MipModel.Proofs.WholeNumbers
import MipModel.Proofs.NearestIntegers
import MipModel.Proofs.ComputedIndices
import MipModel.Proofs.Domains
import MipModel.Proofs.WrittenDomains
import MipModel.Proofs.PlainExpressions
import MipModel.Proofs.Fingerprints
import MipModel.Proofs.Integrity
import MipModel.Proofs.Identifiers
import MipModel.Proofs.Decoding
import MipModel.Proofs.DerivedConstants
import MipModel.Proofs.FamilyCreation
import MipModel.Proofs.Comparisons
import MipModel.Proofs.NestedLoops
import MipModel.Proofs.CreatedFamilies
import MipModel.Proofs.Lookups
import MipModel.Proofs.WildcardSums
import MipModel.Proofs.Mentions
import MipModel.Proofs.ClosedText
import MipModel.Proofs.Substitution
import MipModel.Proofs.GeneratedNames
import MipModel.Proofs.Acceptance
import MipModel.Proofs.Dependence
import MipModel.Proofs.ConstantExpressions
import MipModel.Proofs.Assembly
import MipModel.Proofs.RaisedErrors
import MipModel.Proofs.Contexts
import MipModel.Proofs.FailurePaths
import MipModel.Proofs.Unrolling
