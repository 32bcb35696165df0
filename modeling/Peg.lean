import Peg.Program
import Peg.Main
import Peg.Proofs.Captures
import Peg.Proofs.Snapshots
import Peg.Proofs.Forest
import Peg.Proofs.Matchers
import Peg.Proofs.Scope
import Peg.Proofs.Backtracking
import Peg.Proofs.Bookkeeping
import Peg.Proofs.Semantics
import Peg.Proofs.Simulation
import Peg.Proofs.Tasks
import Peg.Proofs.Soundness
import Peg.Proofs.Completeness
import Peg.Proofs.Adequacy
import Peg.Proofs.TokenQueue
import Peg.Proofs.Programs
import Peg.Proofs.Visibility
import Peg.Proofs.Termination
import Peg.Proofs.CallLimit
import Peg.Proofs.ActiveCalls
import Peg.Proofs.LeftRecursion
import Peg.Proofs.Json.Accepted
import Peg.Proofs.Rulewise
import Peg.Proofs.Associativity
import Peg.Proofs.Lookaheads
import Peg.Proofs.RuleKinds
import Peg.Proofs.Silencing
import Peg.Proofs.Extension
import Peg.Proofs.WellFormed
import Peg.Proofs.Moments
import Peg.Proofs.RuneBoundaries
import Peg.Proofs.Calc.Trees
import Peg.Proofs.Calc.Soundness
import Peg.Proofs.Calc.Renderings
import Peg.Proofs.Calc.Completeness
import Peg.Proofs.Calc.Evaluation
import Peg.Proofs.Errors
import Peg.Proofs.Endings
import Peg.Proofs.Attempts
import Peg.Proofs.Expectations
import Peg.Proofs.Progress
import Peg.Proofs.AttemptPerRule
import Peg.Proofs.FurthestFailure
import Peg.Proofs.Phrases
import Peg.Proofs.Printing
import Peg.Proofs.Traversal
import Peg.Proofs.Occurrences
import Peg.Proofs.Separators
import Peg.Proofs.Scanning
import Peg.Proofs.Resynchronisation
import Peg.Proofs.CharacterLiterals
import Peg.Proofs.Folding
import Peg.Proofs.Lines
import Peg.Proofs.PrintedForests
import Peg.Proofs.Locations
import Peg.Proofs.SeparateAttempts
import Peg.Proofs.RuleNames
