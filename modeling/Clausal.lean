import Clausal.ClauseEditor
import Clausal.Main
import Clausal.Workbench
import Clausal.Proofs.BottomUp
import Clausal.Proofs.NegationNormalForm
import Clausal.Proofs.MultiplyingOut
import Clausal.Proofs.NestedMerging
import Clausal.Proofs.ConversionRounds
import Clausal.Proofs.ReferenceClauses
import Clausal.Proofs.ClauseTruth
import Clausal.Proofs.ArityCheck
import Clausal.Proofs.OneRound
import Clausal.Proofs.SolverModels
import Clausal.Proofs.DimacsReading
import Clausal.Proofs.KeptPromises
import Clausal.Proofs.PolarityOccurrences
import Clausal.Proofs.Renaming
import Clausal.Proofs.Contexts
import Clausal.Proofs.PositivePositions
import Clausal.Proofs.AbsorbedPasses
import Clausal.Proofs.OperandOrder
import Clausal.Proofs.DenseNumbering
import Clausal.Proofs.PassEvaluation
import Clausal.Proofs.LexicographicProduct
import Clausal.Proofs.NegationDepth
import Clausal.Proofs.FirstOffender
import Clausal.Proofs.MergedFormulas
import Clausal.Proofs.Regrouping
import Clausal.Proofs.Copying
import Clausal.Proofs.PartialAssignments
import Clausal.Proofs.BracketedItems
import Clausal.Proofs.ConstructorReading
import Clausal.Proofs.InfixReading
import Clausal.Proofs.VisitingOrder
import Clausal.Proofs.LiteralWords
import Clausal.Proofs.LoadedClauses
import Clausal.Proofs.OutputFormats
import Clausal.Proofs.PlainRewriting
import Clausal.Proofs.RewritingOrder
import Clausal.Proofs.CommandOutcomes
