import MSV.Lib.APInt
import MSV.Lib.FMap
import MSV.Lib.Run
import MSV.IR.Syntax
import MSV.Range.Value
import MSV.Range.Transfer
import MSV.Range.TransferProof
import MSV.Infer.AnalysisState
import MSV.Dataflow.Engine
import MSV.Dataflow.Moves
import MSV.Dataflow.Coverage
import MSV.Dataflow.WorkListProof
import MSV.Range.Verdict
import MSV.Range.VerdictProof
import MSV.Range.CoverageProof
import MSV.Range.MergeProof
import MSV.Range.FixpointProof
import MSV.SLH.MachineIR
import MSV.SLH.Harden
import MSV.SLH.MarkerProof
import MSV.SLH.BlockPlan
import MSV.SLH.PlanProof
import MSV.SLH.WalkProof
import MSV.SLH.FilterProof
import MSV.SLH.DebugProof
import MSV.SLH.VariantTiming
import MSV.SLH.ControlFlow
import MSV.SLH.PredState
import MSV.SLH.SplitEdgeProof
import MSV.SLH.PredStateProof
import MSV.SLH.FenceProof
import MSV.SLH.InsertedCode
import MSV.Lib.HighBits
import MSV.SLH.CallState
import MSV.SLH.CallStateProof
import MSV.Lib.Loop
import MSV.SLH.IndirectBranch
import MSV.SLH.IndirectProof
import MSV.SLH.BlockCode
import MSV.SLH.BlockCodeProof
import MSV.SLH.BlockWalk
import MSV.SLH.BlockRun
import MSV.SLH.CriticalEdge
import MSV.Lib.WrappedRange
import MSV.Lib.CheckedSearch
import MSV.SafeStack.Uses
import MSV.SafeStack.UsesProof
import MSV.Lib.Regions
import MSV.SafeStack.Frames
import MSV.SafeStack.FramesProof
import MSV.Lib.PathSearch
import MSV.Lib.QueueSearch
import MSV.PDG.CallGraph
import MSV.Range.MarkersProof
import MSV.Infer.ClosureProof
import MSV.Heap.Uriah
import MSV.Heap.DataGuard
import MSV.Heap.CompatibleType
import MSV.Heap.DynCastProof
import MSV.Heap.AliasProof
import MSV.Taint.Taint
import MSV.Taint.TaintProof
import MSV.Taint.DisciplineProof
import MSV.Lib.SparseBits
import MSV.Range.Tagging
import MSV.Range.SummaryProof
import MSV.Infer.Sizes
import MSV.Infer.SizeProof
import MSV.Range.RawVerdictProof
import MSV.Lib.Explore
import MSV.Window.OutOfWindow
import MSV.Window.Paths
import MSV.Window.WindowProof
import MSV.Window.ExploreProof
import MSV.Window.HaltProof
import MSV.Window.RecursionProof
import MSV.Window.Distance
import MSV.Range.VisitProof
import MSV.Range.MemoryProof
import MSV.Lib.Residue
import MSV.Range.CastProof
import MSV.Lib.Box
import MSV.Range.GuardProof
import MSV.Range.BinOPProof
import MSV.Infer.Variables
import MSV.Lib.SetFamily
import MSV.Lib.StackSearch
import MSV.Lib.Breadth
import MSV.Lib.Dominance
import MSV.PDG.Graph
import MSV.PDG.Reach
import MSV.PDG.ControlDependency
import MSV.PDG.DataDependency
import MSV.PDG.AliasEdgeProof
import MSV.Range.TerminationProof
import MSV.Range.RequeueProof
import MSV.Range.PathConditionProof
import MSV.Lib.Worklist
import MSV.Window.Agenda
import MSV.Window.SurveyProof
import MSV.Window.OrderProof
import MSV.Range.JoinProof
import MSV.Heap.CursorProof
import MSV.Taint.StoreProof
import MSV.Range.AllocChainProof
import MSV.Range.OffsetProof
import MSV.Infer.SVFSize
import MSV.Infer.PropagationProof
import MSV.Infer.IndexProof
import MSV.Range.EndsProof
import MSV.Range.EndsRunProof
import MSV.Heap.DowncastProof
import MSV.Heap.NonAliased
