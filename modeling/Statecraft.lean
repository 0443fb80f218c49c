import Statecraft.Main
import Statecraft.Code.Builder
import Statecraft.Double.Read
import Statecraft.Proofs.Run
import Statecraft.Proofs.Layout
import Statecraft.Proofs.Situation
import Statecraft.Proofs.Meaning
import Statecraft.Proofs.Expression
import Statecraft.Proofs.Body
import Statecraft.Proofs.Declarations
import Statecraft.Proofs.Sections
import Statecraft.Proofs.Agreement
import Statecraft.Proofs.Balance
import Statecraft.Proofs.Blocks
import Statecraft.Proofs.Compilation
import Statecraft.Proofs.StackSafety
import Statecraft.Proofs.ProgramGrammar
import Statecraft.Proofs.WellFormed
import Statecraft.Proofs.ReaderMoves
import Statecraft.Proofs.Termination
import Statecraft.Proofs.StrayReports
import Statecraft.Proofs.Recovery
import Statecraft.Proofs.Printing
import Statecraft.Proofs.CurrentSection
import Statecraft.Proofs.GraphMoves
import Statecraft.Proofs.Reachability
import Statecraft.Proofs.Warnings
import Statecraft.Proofs.Acceptance
import Statecraft.Proofs.Preservation
import Statecraft.Proofs.StoredValues
import Statecraft.Proofs.Rearrangement
import Statecraft.Proofs.Nesting
import Statecraft.Proofs.Diagnostics
import Statecraft.Proofs.Recording
import Statecraft.Proofs.Placement
import Statecraft.Proofs.Session
import Statecraft.Proofs.Liveness
import Statecraft.Proofs.CodeShape
import Statecraft.Proofs.FoldNormalForm
import Statecraft.Proofs.FixedPoint
import Statecraft.Proofs.CycleLocations
import Statecraft.Proofs.Statements
import Statecraft.Proofs.Numbering
import Statecraft.Proofs.Relevance
import Statecraft.Proofs.ExpressionReports
import Statecraft.Proofs.LongestMatch
import Statecraft.Proofs.Building
import Statecraft.Proofs.Breadth
import Statecraft.Proofs.Locality
import Statecraft.Proofs.Repetition
import Statecraft.Proofs.FirstMatch
import Statecraft.Proofs.Labelling
import Statecraft.Proofs.Evaluation
import Statecraft.Proofs.Flow
import Statecraft.Proofs.StackCheck
