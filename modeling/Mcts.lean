import Mcts.Program
import Mcts.Dense
import Mcts.Environments
import Mcts.Nodes
import Mcts.Engine
import Mcts.Worklist
import Mcts.Arena
import Mcts.Rerooting
import Mcts.SearchRun
import Mcts.ArenaInvariant
import Mcts.Updates
import Mcts.Recomputation
import Mcts.ValueBounds
import Mcts.Walks
import Mcts.Selection
import Mcts.Backup
import Mcts.Expansion
import Mcts.Turns
import Mcts.Transposition
import Mcts.Ledger
import Mcts.Trees
import Mcts.TreeSearch
import Mcts.MeanValues
import Mcts.Queues
import Mcts.SlotProtocol
import Mcts.SlotOwnership
import Mcts.SlotSteps
import Mcts.SlotWork
import Mcts.SlotSafety
import Mcts.Opening
import Mcts.OpeningOnce
import Mcts.Regions
import Mcts.Slots
import Mcts.Handler
import Mcts.Collecting
import Mcts.MarkDone
import Mcts.Rows
import Mcts.BatchLayout
import Mcts.BatchedInference
import Mcts.KeptGraph
import Mcts.Descent
import Mcts.QueueRuns
import Mcts.PolicyTarget
import Mcts.PruningRule
import Mcts.NoiseScope
import Mcts.Flights
import Mcts.Simulations
import Mcts.ShortReplies
import Mcts.ForcedPlayouts
import Mcts.Unpacking
import Mcts.Orchestrator
import Mcts.Promotions
import Mcts.Rounds
import Mcts.Unkilled
import Mcts.Restarts
import Mcts.Episodes
import Mcts.Trajectories
import Mcts.Curriculum
import Mcts.EvalReward
import Mcts.RoundRobin
import Mcts.Holdout
import Mcts.Shards
import Mcts.Sentinels
import Mcts.Resizing
import Mcts.Proportions
import Mcts.RootPrior
import Mcts.Cycles
import Mcts.LockedObjects
import Mcts.RingLocks
import Mcts.Schedules
import Mcts.SlotProgress
import Mcts.SlotService
import Mcts.KeyedTables
import Mcts.EvaluatorRuns
import Mcts.PlainSearch
import Mcts.ActionChoice
import Mcts.GatherPool
import Mcts.ServedSearch
import Mcts.EpisodeRuns
import Mcts.GatherCalls
import Mcts.Comparisons
import Mcts.SolutionRows
import Mcts.HandlerRuns
import Mcts.HandlerTraffic
import Mcts.Tiling
import Mcts.SelfPlay
import Mcts.SelfPlayRuns
import Mcts.TrainingTargets
