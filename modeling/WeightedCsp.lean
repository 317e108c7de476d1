import WeightedCsp.Ascending
import WeightedCsp.Binary
import WeightedCsp.Cli.Command
import WeightedCsp.Cli.Options
import WeightedCsp.Cli.Run
import WeightedCsp.Comparator
import WeightedCsp.Constraint.Basic
import WeightedCsp.Constraint.Build
import WeightedCsp.Constraint.Violation
import WeightedCsp.Csp.Compile
import WeightedCsp.Csp.Expr
import WeightedCsp.Csp.Session
import WeightedCsp.Decimal
import WeightedCsp.Decimal.Shortest
import WeightedCsp.Domain
import WeightedCsp.Encoding.Order
import WeightedCsp.Encoding.PseudoBoolean
import WeightedCsp.Encoding.Totalizer
import WeightedCsp.Fault
import WeightedCsp.Formulation.Basic
import WeightedCsp.Formulation.Names
import WeightedCsp.Formulation.Translator
import WeightedCsp.Instance.Basic
import WeightedCsp.Instance.OfModel
import WeightedCsp.Instance.Text
import WeightedCsp.Literal
import WeightedCsp.LocalSearch
import WeightedCsp.MagicSquare
import WeightedCsp.Main
import WeightedCsp.Method.LocalOnly
import WeightedCsp.Method.Optimizer
import WeightedCsp.Method.Phase
import WeightedCsp.Method.Report
import WeightedCsp.Method.Strategy
import WeightedCsp.Method.Tiers
import WeightedCsp.Method.TwoStep
import WeightedCsp.Method.WeightedSum
import WeightedCsp.Model
import WeightedCsp.ModelError
import WeightedCsp.NameMap
import WeightedCsp.Places
import WeightedCsp.Proofs.Constraint.Penalty
import WeightedCsp.Proofs.Constraint.Violation
import WeightedCsp.Proofs.Csp.Acceptance
import WeightedCsp.Proofs.Csp.Assuming
import WeightedCsp.Proofs.Csp.Batch
import WeightedCsp.Proofs.Csp.Bounds
import WeightedCsp.Proofs.Csp.Comparison
import WeightedCsp.Proofs.Csp.Entries
import WeightedCsp.Proofs.Csp.Formula
import WeightedCsp.Proofs.Csp.History
import WeightedCsp.Proofs.Csp.Labels
import WeightedCsp.Proofs.Csp.Nnf
import WeightedCsp.Proofs.Csp.Normalizing
import WeightedCsp.Proofs.Csp.Rollback
import WeightedCsp.Proofs.Csp.Session
import WeightedCsp.Proofs.Csp.Shifting
import WeightedCsp.Proofs.Csp.Statement
import WeightedCsp.Proofs.Csp.Tables
import WeightedCsp.Proofs.Decimal
import WeightedCsp.Proofs.Encoding.Canonical
import WeightedCsp.Proofs.Encoding.Failures
import WeightedCsp.Proofs.Encoding.Growth
import WeightedCsp.Proofs.Encoding.Order
import WeightedCsp.Proofs.Encoding.PseudoBoolean
import WeightedCsp.Proofs.Encoding.Rebounding
import WeightedCsp.Proofs.Encoding.Settling
import WeightedCsp.Proofs.Encoding.Shifting
import WeightedCsp.Proofs.Encoding.Staircase
import WeightedCsp.Proofs.Encoding.Supply
import WeightedCsp.Proofs.Encoding.Totalizer
import WeightedCsp.Proofs.Faults
import WeightedCsp.Proofs.Formulation.Clashes
import WeightedCsp.Proofs.Formulation.Declarations
import WeightedCsp.Proofs.Formulation.Entities
import WeightedCsp.Proofs.Formulation.Extension
import WeightedCsp.Proofs.Formulation.Fresh
import WeightedCsp.Proofs.Formulation.Memory
import WeightedCsp.Proofs.Formulation.Names
import WeightedCsp.Proofs.Formulation.Sums
import WeightedCsp.Proofs.Formulation.Tiers
import WeightedCsp.Proofs.Formulation.Translation
import WeightedCsp.Proofs.Formulation.Translator
import WeightedCsp.Proofs.Instance.Charges
import WeightedCsp.Proofs.Instance.Entering
import WeightedCsp.Proofs.Instance.Extremes
import WeightedCsp.Proofs.Instance.Gates
import WeightedCsp.Proofs.Instance.Reading
import WeightedCsp.Proofs.Log.Layout
import WeightedCsp.Proofs.Log.Lines
import WeightedCsp.Proofs.Log.Seconds
import WeightedCsp.Proofs.Method.Bisection
import WeightedCsp.Proofs.Method.Calls
import WeightedCsp.Proofs.Method.Compiling
import WeightedCsp.Proofs.Method.Descent
import WeightedCsp.Proofs.Method.Ending
import WeightedCsp.Proofs.Method.Formulating
import WeightedCsp.Proofs.Method.Incumbent
import WeightedCsp.Proofs.Method.Moves
import WeightedCsp.Proofs.Method.Naming
import WeightedCsp.Proofs.Method.Report
import WeightedCsp.Proofs.Method.Scores
import WeightedCsp.Proofs.Method.Tiers
import WeightedCsp.Proofs.Method.Totals
import WeightedCsp.Proofs.Method.TwoStep
import WeightedCsp.Proofs.Method.Verdicts
import WeightedCsp.Proofs.Method.WarmStart
import WeightedCsp.Proofs.Method.WeightedSum
import WeightedCsp.Proofs.Model
import WeightedCsp.Proofs.Random.Stream
import WeightedCsp.Proofs.Registry
import WeightedCsp.Proofs.Roster.Building
import WeightedCsp.Proofs.Roster.Drawing
import WeightedCsp.Proofs.Roster.Labels
import WeightedCsp.Proofs.Roster.Meaning
import WeightedCsp.Proofs.Roster.Planning
import WeightedCsp.Proofs.Roster.Schedule
import WeightedCsp.Proofs.Rounding
import WeightedCsp.Random.ChaCha
import WeightedCsp.Random.Draws
import WeightedCsp.Random.Stream
import WeightedCsp.Roster.Basic
import WeightedCsp.Roster.Model
import WeightedCsp.Roster.Random
import WeightedCsp.Sat.Backend
import WeightedCsp.Sat.Kernel
import WeightedCsp.Sat.Scripted
import WeightedCsp.Sat.Search
import WeightedCsp.SolverLog
import WeightedCsp.Text.Blank
import WeightedCsp.Variable
import WeightedCsp.Word
