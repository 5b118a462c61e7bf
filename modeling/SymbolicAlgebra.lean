import SymbolicAlgebra.Angle
import SymbolicAlgebra.Arithmetic
import SymbolicAlgebra.Combinatorics
import SymbolicAlgebra.CommandLine.Console
import SymbolicAlgebra.CommandLine.Options
import SymbolicAlgebra.Decimal.Arithmetic
import SymbolicAlgebra.Decimal.Basic
import SymbolicAlgebra.Decimal.Circular
import SymbolicAlgebra.Decimal.Elementary
import SymbolicAlgebra.Decimal.Text
import SymbolicAlgebra.Definition.Basic
import SymbolicAlgebra.Definition.Flags
import SymbolicAlgebra.Definition.Library
import SymbolicAlgebra.Definition.Record
import SymbolicAlgebra.Definition.Table
import SymbolicAlgebra.Double.Basic
import SymbolicAlgebra.Double.Complex
import SymbolicAlgebra.Double.Elementary
import SymbolicAlgebra.Double.Shortest
import SymbolicAlgebra.Evaluation
import SymbolicAlgebra.Expansion
import SymbolicAlgebra.Expr.Basic
import SymbolicAlgebra.Fault
import SymbolicAlgebra.Files.Directory
import SymbolicAlgebra.Files.Path
import SymbolicAlgebra.Json.Fault
import SymbolicAlgebra.Json.Reader
import SymbolicAlgebra.Kernel.Basic
import SymbolicAlgebra.Kernel.Construct
import SymbolicAlgebra.Kernel.Flatten
import SymbolicAlgebra.Kernel.Validation
import SymbolicAlgebra.Main
import SymbolicAlgebra.Number.Arithmetic
import SymbolicAlgebra.Number.Basic
import SymbolicAlgebra.Number.Functions
import SymbolicAlgebra.Number.Power
import SymbolicAlgebra.Number.Text
import SymbolicAlgebra.Order
import SymbolicAlgebra.Raw
import SymbolicAlgebra.Rewriting.Line
import SymbolicAlgebra.Rewriting.Pattern
import SymbolicAlgebra.Rewriting.Rule
import SymbolicAlgebra.Rewriting.RuleFile
import SymbolicAlgebra.Rewriting.Spec
import SymbolicAlgebra.Session.Basic
import SymbolicAlgebra.Session.Completion
import SymbolicAlgebra.Sexpr.Reader
import SymbolicAlgebra.Sexpr.Token
import SymbolicAlgebra.Text.Blank
import SymbolicAlgebra.Text.Digit
import SymbolicAlgebra.Text.Lines
import SymbolicAlgebra.Text.Lowercase
import SymbolicAlgebra.Text.Printable
import SymbolicAlgebra.Text.Quoted
import SymbolicAlgebra.Text.Range
import SymbolicAlgebra.Text.Word
import SymbolicAlgebra.Truth
import SymbolicAlgebra.Types.Lattice
import SymbolicAlgebra.Types.Signature
import SymbolicAlgebra.Proofs.Calculation
import SymbolicAlgebra.Proofs.Expansion
import SymbolicAlgebra.Proofs.DoubleOrder
import SymbolicAlgebra.Proofs.NumberText
import SymbolicAlgebra.Proofs.Arrangement
import SymbolicAlgebra.Proofs.Building
import SymbolicAlgebra.Proofs.Comparison
import SymbolicAlgebra.Proofs.NormalForm
import SymbolicAlgebra.Proofs.Quotients
import SymbolicAlgebra.Proofs.Termination
import SymbolicAlgebra.Proofs.Truth
import SymbolicAlgebra.Proofs.Validity
import SymbolicAlgebra.Proofs.Matching
import SymbolicAlgebra.Proofs.RootRewriting
import SymbolicAlgebra.Proofs.TreeRewriting
import SymbolicAlgebra.Proofs.OperandOrder
import SymbolicAlgebra.Proofs.CanonicalRewriting
import SymbolicAlgebra.Proofs.Persistence
import SymbolicAlgebra.Proofs.Inference
import SymbolicAlgebra.Proofs.Footprint
import SymbolicAlgebra.Proofs.Refusal
import SymbolicAlgebra.Proofs.Undefined
import SymbolicAlgebra.Proofs.ResultTypes
import SymbolicAlgebra.Proofs.TwoPhase
import SymbolicAlgebra.Proofs.Gaussian
import SymbolicAlgebra.Proofs.Overflow
import SymbolicAlgebra.Proofs.ExtendedOrder
import SymbolicAlgebra.Proofs.Currency
import SymbolicAlgebra.Proofs.Literals
import SymbolicAlgebra.Proofs.Balance
import SymbolicAlgebra.Proofs.Printing
import SymbolicAlgebra.Proofs.Coherence
import SymbolicAlgebra.Proofs.Rebuilding
import SymbolicAlgebra.Proofs.Survival
import SymbolicAlgebra.Proofs.ZeroPower
import SymbolicAlgebra.Proofs.Lanes
import SymbolicAlgebra.Proofs.Objections
import SymbolicAlgebra.Proofs.Roots
import SymbolicAlgebra.Proofs.Positions
import SymbolicAlgebra.Proofs.RationalPowers
import SymbolicAlgebra.Proofs.Rechecking
import SymbolicAlgebra.Proofs.FlooredModulo
import SymbolicAlgebra.Proofs.SignatureText
import SymbolicAlgebra.Proofs.Records
import SymbolicAlgebra.Proofs.TypeChecks
import SymbolicAlgebra.Proofs.InclusionOnce
import SymbolicAlgebra.Proofs.InclusionEnd
import SymbolicAlgebra.Proofs.Writing
import SymbolicAlgebra.Proofs.TextCuts
import SymbolicAlgebra.Proofs.RuleText
import SymbolicAlgebra.Proofs.BrokenRules
import SymbolicAlgebra.Proofs.Scripts
import SymbolicAlgebra.Proofs.FailedLines
import SymbolicAlgebra.Proofs.ComplexValue
import SymbolicAlgebra.Proofs.ComplexProduct
import SymbolicAlgebra.Proofs.ComplexSum
import SymbolicAlgebra.Proofs.ImaginaryFactor
import SymbolicAlgebra.Proofs.Compositions
import SymbolicAlgebra.Proofs.Flattening
import SymbolicAlgebra.Proofs.KeyTuples
import SymbolicAlgebra.Proofs.PascalTable
import SymbolicAlgebra.Proofs.PiSeries
