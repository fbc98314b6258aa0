import Monolith.Function.Builder
import Monolith.Main
import Monolith.Proofs.CallGraph.PlanOrder
import Monolith.Proofs.CallGraph.Searches
import Monolith.Proofs.Code.BuiltFunctions
import Monolith.Proofs.Code.ConstantNodes
import Monolith.Proofs.Code.ConstantPlaces
import Monolith.Proofs.Code.Meaning
import Monolith.Proofs.Code.ReplacedFunctions
import Monolith.Proofs.ControlFlow.ImmediateDominators
import Monolith.Proofs.ControlFlow.RetreatingEdges
import Monolith.Proofs.Flattening.EarlyRejections
import Monolith.Proofs.Flattening.FlattenedAgain
import Monolith.Proofs.Flattening.FlattenedModule
import Monolith.Proofs.Flattening.LoggedTexts
import Monolith.Proofs.Flattening.Passes
import Monolith.Proofs.Flattening.PhiSources
import Monolith.Proofs.Flattening.PoisonCallees
import Monolith.Proofs.Flattening.ReportedChanges
import Monolith.Proofs.Flattening.SafeFlattening
import Monolith.Proofs.Flattening.SelfCalls
import Monolith.Proofs.Flattening.StackSlots
import Monolith.Proofs.Globals.BuriedMentions
import Monolith.Proofs.Globals.ElementAlignment
import Monolith.Proofs.Globals.LocalizedModule
import Monolith.Proofs.Globals.MaterializedValues
import Monolith.Proofs.Globals.ResolvedOwners
import Monolith.Proofs.Inlining.Body
import Monolith.Proofs.Inlining.Calls
import Monolith.Proofs.Inlining.Chains
import Monolith.Proofs.Inlining.Ends
import Monolith.Proofs.Inlining.FirstOrder
import Monolith.Proofs.Inlining.Flow
import Monolith.Proofs.Inlining.Forced
import Monolith.Proofs.Inlining.Form
import Monolith.Proofs.Inlining.HoistedAllocas
import Monolith.Proofs.Inlining.Knowledge
import Monolith.Proofs.Inlining.Meaning
import Monolith.Proofs.Inlining.PhiChoices
import Monolith.Proofs.Inlining.Phis
import Monolith.Proofs.Inlining.StaticAllocas
import Monolith.Proofs.Inlining.Steps
import Monolith.Proofs.Inlining.Values
import Monolith.Proofs.Inlining.VerifiedCallers
import Monolith.Proofs.Inlining.WaitingCalls
import Monolith.Proofs.Json.LoadedAgain
import Monolith.Proofs.Json.StoredModules
import Monolith.Proofs.Module.Census
import Monolith.Proofs.Module.NameLookups
import Monolith.Proofs.Pruning.UnusedEntities
import Monolith.Proofs.Text.DelimitedTexts
import Monolith.Proofs.Text.OperandTexts
import Monolith.Proofs.Text.RecordedTexts
import Monolith.Proofs.Ty.ExactLayout
import Monolith.Proofs.Verify.DefectChecks
import Monolith.Proofs.Verify.WellFormed
import Monolith.Proofs.Verify.WellFormedModule
