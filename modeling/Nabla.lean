import Nabla.About
import Nabla.Arithmetic
import Nabla.Compiled
import Nabla.Decimal.Cut
import Nabla.Decimal.Dyadic
import Nabla.Decimal.Printer
import Nabla.Decimal.Reader
import Nabla.Decimal.Shortest
import Nabla.Error
import Nabla.Expr.Basic
import Nabla.Expr.Derivative
import Nabla.Expr.Eval
import Nabla.Expr.Json
import Nabla.Expr.Simplify
import Nabla.Expr.Subst
import Nabla.Expr.Text
import Nabla.Fault
import Nabla.Field
import Nabla.Function
import Nabla.Jacobian
import Nabla.Json.Basic
import Nabla.Json.Convert
import Nabla.Json.Equality
import Nabla.Json.Printer
import Nabla.Json.Reader
import Nabla.Json.Text
import Nabla.Lambda.Basic
import Nabla.Lambda.Json
import Nabla.Log.Basic
import Nabla.Log.Entry
import Nabla.NdArray
import Nabla.NdArray.Interp
import Nabla.NdArray.Text
import Nabla.NdArray.Walk
import Nabla.Program.Basic
import Nabla.Program.Code
import Nabla.Session.Basic
import Nabla.Session.Log
import Nabla.Session.Terms
import Nabla.Settings
import Nabla.Table
import Nabla.Text.Blank
import Nabla.Text.Digit
import Nabla.Text.Printable
import Nabla.Text.Quoted
import Nabla.Value.Basic
import Nabla.Value.Calculus
import Nabla.Value.Equality
import Nabla.Proofs.Double.Bits
import Nabla.Proofs.Double.Real
import Nabla.Proofs.RealValue
import Nabla.Proofs.Tree
import Nabla.Proofs.Differentiation
import Nabla.Proofs.Sequence
import Nabla.Proofs.Code
import Nabla.Proofs.Simplification
import Nabla.Proofs.NormalForm
import Nabla.Proofs.Alike
import Nabla.Proofs.FullSimplification
import Nabla.Proofs.Numbers
import Nabla.Proofs.CompiledEvaluation
import Nabla.Proofs.SparseLayout
import Nabla.Proofs.SparseJacobian
import Nabla.Proofs.Double.Void
import Nabla.Proofs.JacobianPattern
import Nabla.Proofs.Double.Rounding
import Nabla.Proofs.Double.Scientific
import Nabla.Proofs.ShortestDecimal
import Nabla.Proofs.NumberText
import Nabla.Proofs.JsonText
import Nabla.Proofs.RoundTrip
import Nabla.Proofs.FieldOperators
import Nabla.Proofs.Vocabulary
import Nabla.Proofs.Keys
import Nabla.Proofs.RecordGrammar
import Nabla.Proofs.Transformations
import Nabla.Proofs.HigherDerivatives
import Nabla.Proofs.MixedPartials
import Nabla.Proofs.Reports
import Nabla.Proofs.FieldPipeline
import Nabla.Proofs.Substitution
import Nabla.Proofs.Broadcasting
import Nabla.Proofs.PointwiseEvaluation
import Nabla.Proofs.Grammar
import Nabla.Proofs.Lexemes
import Nabla.Proofs.EmittedText
import Nabla.Proofs.Double.Zeros
import Nabla.Proofs.ConstantFolding
import Nabla.Proofs.FirstOffence
import Nabla.Proofs.FrozenVariables
import Nabla.Proofs.AffineSystems
import Nabla.Proofs.EqualTrees
import Nabla.Proofs.PowerSpellings
import Nabla.Proofs.StackedComponents
import Nabla.Proofs.CurlDivergence
import Nabla.Proofs.PassDepth
import Nabla.Proofs.SettingsReading
import Nabla.Proofs.LogGroups
import Nabla.Proofs.LogHistory
