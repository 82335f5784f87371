import Lowering.Main
import Lowering.Container.Printer
import Lowering.Proofs.CallOrder
import Lowering.Proofs.CallSites
import Lowering.Proofs.CommandOutcomes
import Lowering.Proofs.ContainerHistories
import Lowering.Proofs.ContainerTexts
import Lowering.Proofs.FunctionIndependence
import Lowering.Proofs.IdleLoops
import Lowering.Proofs.Iteration
import Lowering.Proofs.LiteralPlacement
import Lowering.Proofs.LiteralTokens
import Lowering.Proofs.MoveRestriction
import Lowering.Proofs.MoveSafety
import Lowering.Proofs.MutationPermission
import Lowering.Proofs.NameResolution
import Lowering.Proofs.NumeralTokens
import Lowering.Proofs.Ownership
import Lowering.Proofs.PrintedLines
import Lowering.Proofs.ProgramLayout
import Lowering.Proofs.ProgramOutputs
import Lowering.Proofs.Reborrowing
import Lowering.Proofs.ReturnAnalysis
import Lowering.Proofs.RootRetention
import Lowering.Proofs.SharedArguments
import Lowering.Proofs.Unambiguity
import Lowering.Proofs.FieldSets
import Lowering.Proofs.SortedSearch
import Lowering.Proofs.DeclaredTypes
import Lowering.Proofs.AnnotatedLiterals
import Lowering.Proofs.IndentationLaws
import Lowering.Proofs.ScopeHistories
