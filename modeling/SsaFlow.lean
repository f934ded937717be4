import SsaFlow.Diagnostic.Basic
import SsaFlow.Diagnostic.Queue
import SsaFlow.Dominator.Build
import SsaFlow.Dominator.Chain
import SsaFlow.Dominator.Tree
import SsaFlow.Error
import SsaFlow.Graph.Basic
import SsaFlow.Graph.Block
import SsaFlow.Graph.DepthFirst
import SsaFlow.Graph.Edge
import SsaFlow.Graph.Edit
import SsaFlow.Graph.IdSet
import SsaFlow.Graph.Instr
import SsaFlow.Graph.Jump
import SsaFlow.Graph.Order
import SsaFlow.Graph.Phi
import SsaFlow.Graph.Reach
import SsaFlow.Graph.Value
import SsaFlow.Lowering.Flatten
import SsaFlow.Lowering.Statement
import SsaFlow.Pipeline
import SsaFlow.Proofs.Acceptance
import SsaFlow.Proofs.Assembled
import SsaFlow.Proofs.Behaviour
import SsaFlow.Proofs.BigStep
import SsaFlow.Proofs.CaseNumbers
import SsaFlow.Proofs.ChainTable
import SsaFlow.Proofs.CheckedPaths
import SsaFlow.Proofs.CodeLayout
import SsaFlow.Proofs.DeadPieces
import SsaFlow.Proofs.DeadRegions
import SsaFlow.Proofs.DefinitionChain
import SsaFlow.Proofs.Delivery
import SsaFlow.Proofs.DominatorTree
import SsaFlow.Proofs.EvaluationOrder
import SsaFlow.Proofs.Execution
import SsaFlow.Proofs.Exploration
import SsaFlow.Proofs.Frontier
import SsaFlow.Proofs.Idempotence
import SsaFlow.Proofs.IndexRange
import SsaFlow.Proofs.Interning
import SsaFlow.Proofs.Linked
import SsaFlow.Proofs.LiveSets
import SsaFlow.Proofs.LivenessDominance
import SsaFlow.Proofs.Lowered
import SsaFlow.Proofs.LoweredCode
import SsaFlow.Proofs.LoweringSteps
import SsaFlow.Proofs.Machine
import SsaFlow.Proofs.MergePoints
import SsaFlow.Proofs.OpenBlocks
import SsaFlow.Proofs.Ordered
import SsaFlow.Proofs.Outcome
import SsaFlow.Proofs.PassFrames
import SsaFlow.Proofs.PathLiveness
import SsaFlow.Proofs.PhiPlacement
import SsaFlow.Proofs.PhiWorklist
import SsaFlow.Proofs.Predecessors
import SsaFlow.Proofs.Pruned
import SsaFlow.Proofs.ReachableList
import SsaFlow.Proofs.Reaching
import SsaFlow.Proofs.RecursiveSearch
import SsaFlow.Proofs.Renaming
import SsaFlow.Proofs.Renumbering
import SsaFlow.Proofs.ReversePostorder
import SsaFlow.Proofs.Rules
import SsaFlow.Proofs.SameFlow
import SsaFlow.Proofs.SameTree
import SsaFlow.Proofs.Sequencing
import SsaFlow.Proofs.Settled
import SsaFlow.Proofs.Shadows
import SsaFlow.Proofs.Simulation
import SsaFlow.Proofs.Sites
import SsaFlow.Proofs.SourceSpans
import SsaFlow.Proofs.SsaForm
import SsaFlow.Proofs.StaleOrder
import SsaFlow.Proofs.SwitchDispatch
import SsaFlow.Proofs.Temporaries
import SsaFlow.Proofs.UnboundReads
import SsaFlow.Proofs.Unresolved
import SsaFlow.Proofs.Unrewired
import SsaFlow.Proofs.VersionNumbers
import SsaFlow.Proofs.Walk
import SsaFlow.Proofs.WellFormed
import SsaFlow.Prune.Basic
import SsaFlow.Prune.Collapse
import SsaFlow.Prune.Region
import SsaFlow.Source.Draft
import SsaFlow.Source.Fingerprint
import SsaFlow.Source.Name
import SsaFlow.Source.NameTable
import SsaFlow.Source.NodeTable
import SsaFlow.Source.Operator
import SsaFlow.Source.Span
import SsaFlow.Source.Tree
import SsaFlow.Ssa.Check
import SsaFlow.Ssa.DefinitionSites
import SsaFlow.Ssa.Liveness
import SsaFlow.Ssa.PhiPlacement
import SsaFlow.Ssa.Renaming
