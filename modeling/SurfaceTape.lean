import SurfaceTape.CommandLine.Report
import SurfaceTape.Main
import SurfaceTape.Proofs.Meaning
import SurfaceTape.Proofs.DepthFirst
import SurfaceTape.Proofs.Folding
import SurfaceTape.Proofs.AxisUnification
import SurfaceTape.Proofs.Rewriting
import SurfaceTape.Proofs.FieldMeaning
import SurfaceTape.Proofs.CodeLayout
import SurfaceTape.Proofs.LoweringMeaning
import SurfaceTape.Proofs.SlotDiscipline
import SurfaceTape.Proofs.Compilation
import SurfaceTape.Proofs.CheckedRuns
import SurfaceTape.Proofs.Growth
import SurfaceTape.Proofs.RenumberedPasses
import SurfaceTape.Proofs.RenumberedCode
import SurfaceTape.Proofs.StoredForm
import SurfaceTape.Proofs.AxisSharing
import SurfaceTape.Proofs.PassOrder
import SurfaceTape.Proofs.SlotDemand
import SurfaceTape.Proofs.SimplificationCost
import SurfaceTape.Proofs.Ladder
import SurfaceTape.Proofs.NormalForm
import SurfaceTape.Proofs.RuleNesting
import SurfaceTape.Proofs.LoweringFailures
import SurfaceTape.Proofs.SlotOptimality
import SurfaceTape.Proofs.Visiting
import SurfaceTape.Proofs.FoldCalls
import SurfaceTape.Proofs.AxisReplacement
import SurfaceTape.Proofs.InstructionStream
import SurfaceTape.Proofs.ConstantFolding
import SurfaceTape.Proofs.SimplifiedSize
import SurfaceTape.Proofs.Words
import SurfaceTape.Proofs.SourceLanguage
import SurfaceTape.Proofs.SourceReading
import SurfaceTape.Proofs.InstructionWords
import SurfaceTape.Proofs.CheckOutcome
import SurfaceTape.Proofs.SlotOccupancy
