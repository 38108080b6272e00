import LibPetri.Basis.Activities
import LibPetri.Basis.BinaryHeap
import LibPetri.Basis.Bitset
import LibPetri.Basis.BoundMatrix
import LibPetri.Basis.Budgets
import LibPetri.Basis.ClearingSteps
import LibPetri.Basis.ClosedMatrix
import LibPetri.Basis.Commutation
import LibPetri.Basis.Delimited
import LibPetri.Basis.DepthFirst
import LibPetri.Basis.Elimination
import LibPetri.Basis.FirstRepeat
import LibPetri.Basis.Forests
import LibPetri.Basis.Histories
import LibPetri.Basis.MinQueue
import LibPetri.Basis.Multiplicity
import LibPetri.Basis.OrderedMap
import LibPetri.Basis.Picking
import LibPetri.Basis.Prog
import LibPetri.Basis.Runs
import LibPetri.Basis.Semiflows
import LibPetri.Basis.Simplex
import LibPetri.Basis.Siphons
import LibPetri.Basis.SlashPaths
import LibPetri.Basis.Smt
import LibPetri.Basis.Walks
import LibPetri.Basis.WitnessSearch
import LibPetri.Basis.Worklist
import LibPetri.Core.CodePointOrder
import LibPetri.Core.Net
import LibPetri.Debug.DebugEventStore
import LibPetri.Debug.DebugProtocolHandler
import LibPetri.Export.ClusterBuilder
import LibPetri.Export.Graph
import LibPetri.Runtime.BitmapNetExecutor
import LibPetri.Runtime.CompiledNet
import LibPetri.Runtime.ExecuteLoop
import LibPetri.Runtime.Executor
import LibPetri.Runtime.ExecutorSupport
import LibPetri.Runtime.Marking
import LibPetri.Runtime.MatchEngine
import LibPetri.Runtime.PrecompiledNet
import LibPetri.Runtime.PrecompiledNetExecutor
import LibPetri.Verification.AbstractReplayer
import LibPetri.Verification.BoundedRun
import LibPetri.Verification.BranchOutcomes
import LibPetri.Verification.CertificateChecker
import LibPetri.Verification.Dbm
import LibPetri.Verification.FlatNet
import LibPetri.Verification.GraphDecision
import LibPetri.Verification.GraphRoute
import LibPetri.Verification.InFlight
import LibPetri.Verification.LinearBound
import LibPetri.Verification.MarkingState
import LibPetri.Verification.NameMarking
import LibPetri.Verification.OpenNet
import LibPetri.Verification.OpenNetPredicate
import LibPetri.Verification.OutputChecks
import LibPetri.Verification.PInvariantComputer
import LibPetri.Verification.Reaping
import LibPetri.Verification.Refinements
import LibPetri.Verification.ReplaySearch
import LibPetri.Verification.SccAnalyzer
import LibPetri.Verification.ScgVerifier
import LibPetri.Verification.SlotBoundLp
import LibPetri.Verification.SmtEncoder
import LibPetri.Verification.SmtRoute
import LibPetri.Verification.SmtVerifier
import LibPetri.Verification.StateClassGraph
import LibPetri.Verification.StateEquationPhase
import LibPetri.Verification.StateSpaceCache
import LibPetri.Verification.StructuralCheck
import LibPetri.Verification.StubbornSets
import LibPetri.Verification.TimePetriNetAnalyzer
import LibPetri.Verified.Agreement
import LibPetri.Verified.AmbiguousOutputs
import LibPetri.Verified.AwaitWork
import LibPetri.Verified.Backends
import LibPetri.Verified.BoundedRuns
import LibPetri.Verified.Certificates
import LibPetri.Verified.ClockRestarts
import LibPetri.Verified.Closure
import LibPetri.Verified.ClusterPrefixes
import LibPetri.Verified.ClusterTrees
import LibPetri.Verified.CodePoints
import LibPetri.Verified.Coherence
import LibPetri.Verified.CoherentRuns
import LibPetri.Verified.Commoner
import LibPetri.Verified.Compositions
import LibPetri.Verified.ConservationLaws
import LibPetri.Verified.Construction
import LibPetri.Verified.Consumption
import LibPetri.Verified.ContractRoutes
import LibPetri.Verified.CountRuns
import LibPetri.Verified.CounterexamplePaths
import LibPetri.Verified.Deduplication
import LibPetri.Verified.Deposits
import LibPetri.Verified.DuplicateOutputs
import LibPetri.Verified.Enablement
import LibPetri.Verified.Encodings
import LibPetri.Verified.EnumeratedRuns
import LibPetri.Verified.EventPromises
import LibPetri.Verified.ExactConsumption
import LibPetri.Verified.ExactPartitions
import LibPetri.Verified.Firing
import LibPetri.Verified.FlatRuns
import LibPetri.Verified.Flattening
import LibPetri.Verified.GhostEdges
import LibPetri.Verified.GraphClasses
import LibPetri.Verified.GraphContracts
import LibPetri.Verified.HostCalls
import LibPetri.Verified.IncrementalMatcher
import LibPetri.Verified.Independence
import LibPetri.Verified.Interleaving
import LibPetri.Verified.JoinRuns
import LibPetri.Verified.LandedOutcomes
import LibPetri.Verified.LawfulStore
import LibPetri.Verified.LegibleKeys
import LibPetri.Verified.LiveFeeds
import LibPetri.Verified.LivenessAnalysis
import LibPetri.Verified.MarkingCaches
import LibPetri.Verified.MarkingEquation
import LibPetri.Verified.MarkingTexts
import LibPetri.Verified.MatchCaches
import LibPetri.Verified.MatchSelection
import LibPetri.Verified.MatcherRuns
import LibPetri.Verified.NameKeys
import LibPetri.Verified.OutcomePlaces
import LibPetri.Verified.OutputClaims
import LibPetri.Verified.OutputValidation
import LibPetri.Verified.Outside
import LibPetri.Verified.Precompilation
import LibPetri.Verified.PreparedRuns
import LibPetri.Verified.ProvenRuns
import LibPetri.Verified.Reachable
import LibPetri.Verified.Reaping
import LibPetri.Verified.ReducedGraph
import LibPetri.Verified.Refinements
import LibPetri.Verified.ReplaySearches
import LibPetri.Verified.RestingRuns
import LibPetri.Verified.RunCoherence
import LibPetri.Verified.SeedMarkings
import LibPetri.Verified.Semiflows
import LibPetri.Verified.SlotBounds
import LibPetri.Verified.SlotPresolve
import LibPetri.Verified.Snapshots
import LibPetri.Verified.SparseTableau
import LibPetri.Verified.SplitNets
import LibPetri.Verified.SplitRuns
import LibPetri.Verified.StateEquations
import LibPetri.Verified.StateSpaceReuse
import LibPetri.Verified.StronglyConnected
import LibPetri.Verified.Supplies
import LibPetri.Verified.TerminalRewrite
import LibPetri.Verified.TerminalStop
import LibPetri.Verified.TimedClasses
import LibPetri.Verified.TokenConservation
import LibPetri.Verified.TokenGame
import LibPetri.Verified.TokenInvariants
import LibPetri.Verified.TokenRuns
import LibPetri.Verified.UntimedGraph
import LibPetri.Verified.Verdicts
import LibPetri.Verified.Violations
import LibPetri.Verified.WakeUps
import LibPetri.Verified.WeightedCounts
import LibPetri.Verified.ZoneKeys
import LibPetri.Verified.ZoneSuccessors
import LibPetri.Verified.ZoneUnits
import LibPetri.Verified.Zones
