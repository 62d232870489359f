import HybridAutomata.Automaton.Basic
import HybridAutomata.Automaton.Validity
import HybridAutomata.Command
import HybridAutomata.Component.Basic
import HybridAutomata.Component.Path
import HybridAutomata.Component.Validity
import HybridAutomata.Context
import HybridAutomata.Continuization.Basic
import HybridAutomata.Continuization.Clock
import HybridAutomata.Continuization.Estimate
import HybridAutomata.Continuization.EventTriggered
import HybridAutomata.Continuization.SamplingLoop
import HybridAutomata.Continuization.Start
import HybridAutomata.Continuization.TimeTriggered
import HybridAutomata.Continuization.Windows
import HybridAutomata.Decimal.Binary64
import HybridAutomata.Decimal.Double
import HybridAutomata.Decimal.Notation
import HybridAutomata.Decimal.Numeral
import HybridAutomata.Decimal.Shortest
import HybridAutomata.Dynamics.RungeKutta
import HybridAutomata.Dynamics.TimeGrid
import HybridAutomata.Dynamics.Trajectory
import HybridAutomata.Dynamics.Tube
import HybridAutomata.Dynamics.VectorField
import HybridAutomata.Estimation.Estimator
import HybridAutomata.Estimation.RegionBox
import HybridAutomata.Expr.Basic
import HybridAutomata.Expr.Derivative
import HybridAutomata.Expr.Eval
import HybridAutomata.Expr.Parser
import HybridAutomata.Expr.Perturbed
import HybridAutomata.Expr.Printer
import HybridAutomata.Expr.Range
import HybridAutomata.Expr.Simplify
import HybridAutomata.Expr.Token
import HybridAutomata.Failure
import HybridAutomata.Fault
import HybridAutomata.Interval
import HybridAutomata.Main
import HybridAutomata.Model.Basic
import HybridAutomata.Model.Generate
import HybridAutomata.Model.Graph
import HybridAutomata.Model.Printer
import HybridAutomata.Model.Validity
import HybridAutomata.Names
import HybridAutomata.Option.Grammar
import HybridAutomata.Option.Reader
import HybridAutomata.Pass.Basic
import HybridAutomata.Pass.Builtin
import HybridAutomata.Pass.Registry
import HybridAutomata.Scalar
import HybridAutomata.Text.Blank
import HybridAutomata.Text.ControlSequence
import HybridAutomata.Text.Quoted
import HybridAutomata.Text.Unseen
import HybridAutomata.Transform.Cone
import HybridAutomata.Transform.Constants
import HybridAutomata.Transform.Flatten
import HybridAutomata.Transform.Jumps
import HybridAutomata.Transform.ModeNames
import HybridAutomata.Transform.Product
import HybridAutomata.Transform.Simplified
import HybridAutomata.Transform.TimeScale
import HybridAutomata.Transform.Unsatisfiable
import HybridAutomata.Proofs.Automaton.Cone
import HybridAutomata.Proofs.Automaton.Coordinates
import HybridAutomata.Proofs.Automaton.Formulas
import HybridAutomata.Proofs.Automaton.Rules
import HybridAutomata.Proofs.Automaton.Runs
import HybridAutomata.Proofs.Comparisons
import HybridAutomata.Proofs.Component.Constants
import HybridAutomata.Proofs.Component.DroppedConstants
import HybridAutomata.Proofs.Component.Paths
import HybridAutomata.Proofs.Component.Rules
import HybridAutomata.Proofs.Component.Runs
import HybridAutomata.Proofs.Continuization.Clock
import HybridAutomata.Proofs.Continuization.Elimination
import HybridAutomata.Proofs.Continuization.Estimate
import HybridAutomata.Proofs.Continuization.EventTriggered
import HybridAutomata.Proofs.Continuization.Faults
import HybridAutomata.Proofs.Continuization.HeldLaw
import HybridAutomata.Proofs.Continuization.InlinedLaws
import HybridAutomata.Proofs.Continuization.Integrity
import HybridAutomata.Proofs.Continuization.JoinedRanges
import HybridAutomata.Proofs.Continuization.LoopRemoval
import HybridAutomata.Proofs.Continuization.Margins
import HybridAutomata.Proofs.Continuization.SampledIntegrity
import HybridAutomata.Proofs.Continuization.SamplingError
import HybridAutomata.Proofs.Continuization.SamplingLoop
import HybridAutomata.Proofs.Continuization.Structure
import HybridAutomata.Proofs.Continuization.TimeTriggered
import HybridAutomata.Proofs.Continuization.WindowRuns
import HybridAutomata.Proofs.Decimal.DoubleOrder
import HybridAutomata.Proofs.Decimal.Doubles
import HybridAutomata.Proofs.Decimal.WrittenNumbers
import HybridAutomata.Proofs.Doubles.Arithmetic
import HybridAutomata.Proofs.Doubles.Powers
import HybridAutomata.Proofs.Doubles.Ranges
import HybridAutomata.Proofs.Doubles.Tubes
import HybridAutomata.Proofs.Doubles.Intervals
import HybridAutomata.Proofs.Doubles.Patterns
import HybridAutomata.Proofs.Doubles.Decimals
import HybridAutomata.Proofs.Doubles.ShortestDecimals
import HybridAutomata.Proofs.Doubles.ReadBack
import HybridAutomata.Proofs.Dynamics.AffineFields
import HybridAutomata.Proofs.Dynamics.Extension
import HybridAutomata.Proofs.Dynamics.Grid
import HybridAutomata.Proofs.Dynamics.Rates
import HybridAutomata.Proofs.Dynamics.Trajectories
import HybridAutomata.Proofs.Estimation.BoundingBox
import HybridAutomata.Proofs.Estimation.Observer
import HybridAutomata.Proofs.Estimation.Simulation
import HybridAutomata.Proofs.Exact.Containment
import HybridAutomata.Proofs.Exact.Differentiation
import HybridAutomata.Proofs.Exact.Hulls
import HybridAutomata.Proofs.Exact.LargeExponents
import HybridAutomata.Proofs.Exact.Laws
import HybridAutomata.Proofs.Exact.Meaning
import HybridAutomata.Proofs.Exact.Polynomials
import HybridAutomata.Proofs.Exact.Powers
import HybridAutomata.Proofs.Exact.Ranges
import HybridAutomata.Proofs.Exact.Scalars
import HybridAutomata.Proofs.Exact.UndefinedTerms
import HybridAutomata.Proofs.Expr.Chains
import HybridAutomata.Proofs.Expr.Connectives
import HybridAutomata.Proofs.Expr.DerivativeNames
import HybridAutomata.Proofs.Expr.Grammar
import HybridAutomata.Proofs.Expr.Lookahead
import HybridAutomata.Proofs.Expr.Lookups
import HybridAutomata.Proofs.Expr.Names
import HybridAutomata.Proofs.Expr.Parsing
import HybridAutomata.Proofs.Expr.Parts
import HybridAutomata.Proofs.Expr.Positions
import HybridAutomata.Proofs.Expr.Precedence
import HybridAutomata.Proofs.Expr.ReadNumbers
import HybridAutomata.Proofs.Expr.Reading
import HybridAutomata.Proofs.Expr.Refusals
import HybridAutomata.Proofs.Expr.Reparse
import HybridAutomata.Proofs.Expr.Replacement
import HybridAutomata.Proofs.Expr.RoundTrip
import HybridAutomata.Proofs.Expr.Scanning
import HybridAutomata.Proofs.Expr.SimplifiedLiterals
import HybridAutomata.Proofs.Expr.SimplifiedNames
import HybridAutomata.Proofs.Expr.Sorts
import HybridAutomata.Proofs.Expr.Spelling
import HybridAutomata.Proofs.Expr.Substitution
import HybridAutomata.Proofs.Flatten.Factors
import HybridAutomata.Proofs.Flatten.Integrity
import HybridAutomata.Proofs.Flatten.Interleaving
import HybridAutomata.Proofs.Flatten.Merging
import HybridAutomata.Proofs.Flatten.Names
import HybridAutomata.Proofs.Flatten.Places
import HybridAutomata.Proofs.Flatten.Products
import HybridAutomata.Proofs.Flatten.Renaming
import HybridAutomata.Proofs.Flatten.SimpleNames
import HybridAutomata.Proofs.Flatten.Spaces
import HybridAutomata.Proofs.Flatten.States
import HybridAutomata.Proofs.Flatten.Steps
import HybridAutomata.Proofs.Model.Evaluation
import HybridAutomata.Proofs.Model.GraphLabels
import HybridAutomata.Proofs.Model.ImpossibleModes
import HybridAutomata.Proofs.Model.ModeNames
import HybridAutomata.Proofs.Model.NameLengths
import HybridAutomata.Proofs.Model.PlainJumps
import HybridAutomata.Proofs.Model.Reduction
import HybridAutomata.Proofs.Model.Rewriting
import HybridAutomata.Proofs.Model.Rules
import HybridAutomata.Proofs.Model.ScaledTime
import HybridAutomata.Proofs.Model.SimplifiedNumbers
import HybridAutomata.Proofs.Pass.Pipelines
