import Stimulus.Diagram.Reach
import Stimulus.Solver.Solution
import Stimulus.Enumeration
import Stimulus.Text.Quoted
import Stimulus.Decimal.Plain
import Stimulus.Decimal.Reader
import Stimulus.Field.Description
import Stimulus.Field.Workspace
import Stimulus.Literal
import Stimulus.Expr.Printer
import Stimulus.Expr.Formula
import Stimulus.Operand.Statement
import Stimulus.Model
import Stimulus.Randomizer
import Stimulus.Proofs.Randomizer.Uniform
import Stimulus.Proofs.Randomizer.Meaning
import Stimulus.Proofs.Randomizer.Failures
import Stimulus.Proofs.Connectives
import Stimulus.Proofs.Solver.Requests
import Stimulus.Proofs.Solver.Comparisons
import Stimulus.Proofs.Lowering.SingleBit
import Stimulus.Proofs.Lowering.Layouts
import Stimulus.Proofs.Lowering.Exhaustion
import Stimulus.Proofs.Lowering.Membership
import Stimulus.Proofs.Field.Actions
import Stimulus.Proofs.Model.Bindings
import Stimulus.Proofs.Operand.Outlines
import Stimulus.Proofs.Runs.Sampling
import Stimulus.Proofs.Runs.Greedy
import Stimulus.Proofs.Runs.Forgetting
import Stimulus.Proofs.Runs.Division
import Stimulus.Proofs.Runs.Sizes
import Stimulus.Proofs.Runs.Selection
import Stimulus.Proofs.Solver.LinearComparisons
import Stimulus.Proofs.Lowering.Conjunction
import Stimulus.Proofs.Lowering.Traversal
import Stimulus.Proofs.Randomizer.Variables
import Stimulus.Proofs.Lowering.FieldTerms
import Stimulus.Proofs.Field.Enumerated
import Stimulus.Proofs.TwosComplement.Inverse
import Stimulus.Proofs.Diagram.Recursion
import Stimulus.Proofs.Runs.Termination
import Stimulus.Proofs.Operand.Membership
