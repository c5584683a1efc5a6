import HeaderRelay.Channel.Routing
import HeaderRelay.Config.Document
import HeaderRelay.Consensus.TxResult
import HeaderRelay.Json.Parser
import HeaderRelay.Schedule.Scheduler
import HeaderRelay.Sim.Network
import HeaderRelay.Sim.Strategy
import HeaderRelay.Sync.Batched
import HeaderRelay.Sync.Bitcoin
import HeaderRelay.Sync.Machine
import HeaderRelay.Sync.Proving
import HeaderRelay.Sync.Sequential
import HeaderRelay.Telemetry.Settings
import HeaderRelay.Wire.Bitcoin
import HeaderRelay.Proofs.Conduct
import HeaderRelay.Proofs.Faults
import HeaderRelay.Proofs.Prompt
import HeaderRelay.Proofs.Recording
import HeaderRelay.Proofs.Selection
import HeaderRelay.Proofs.InclusionRule
import HeaderRelay.Proofs.ConsensusPeers
import HeaderRelay.Proofs.BitcoinContract
import HeaderRelay.Proofs.BitcoinWalk
import HeaderRelay.Proofs.BitcoinSync
import HeaderRelay.Proofs.BitcoinRuns
import HeaderRelay.Proofs.BitcoinRollback
import HeaderRelay.Proofs.SequentialSync
import HeaderRelay.Proofs.SequentialRuns
import HeaderRelay.Proofs.BatchedSync
import HeaderRelay.Proofs.BatchedRuns
import HeaderRelay.Proofs.BatchedCadence
import HeaderRelay.Proofs.EngineAgreement
import HeaderRelay.Proofs.BitcoinTree
import HeaderRelay.Proofs.BitcoinBinding
import HeaderRelay.Proofs.ConsensusTree
import HeaderRelay.Proofs.ConsensusBinding
import HeaderRelay.Proofs.Deadlines
import HeaderRelay.Proofs.Exchanges
import HeaderRelay.Proofs.Padding
import HeaderRelay.Proofs.LayeredReads
import HeaderRelay.Proofs.LayeredPauses
import HeaderRelay.Proofs.BoundedCalls
import HeaderRelay.Proofs.BitcoinDeadlines
import HeaderRelay.Proofs.Progress
import HeaderRelay.Proofs.EngineViews
import HeaderRelay.Proofs.RunPaths
import HeaderRelay.Proofs.Submissions
import HeaderRelay.Proofs.ConsensusSubmissions
import HeaderRelay.Proofs.BitcoinSubmissions
import HeaderRelay.Proofs.ChannelExecutions
import HeaderRelay.Proofs.EngineSubmissions
import HeaderRelay.Proofs.Races
import HeaderRelay.Proofs.PlayedRaces
import HeaderRelay.Proofs.BatchedRaces
import HeaderRelay.Proofs.SequentialRaces
import HeaderRelay.Proofs.ForeignEntries
import HeaderRelay.Proofs.BatchContinuity
import HeaderRelay.Proofs.QueueOrder
import HeaderRelay.Proofs.AttestedFlushes
import HeaderRelay.Proofs.ConsensusDeadlines
import HeaderRelay.Proofs.Breakdowns
import HeaderRelay.Proofs.QuantizedCalls
import HeaderRelay.Proofs.TaskMetrics
import HeaderRelay.Proofs.AcceptedHeaders
import HeaderRelay.Proofs.CommittedResults
import HeaderRelay.Proofs.MissingBranch
import HeaderRelay.Proofs.RetryScripts
import HeaderRelay.Proofs.SchedulerPacing
import HeaderRelay.Proofs.CheckedHeights
import HeaderRelay.Proofs.BoundedWalk
import HeaderRelay.Proofs.PlannedBatches
import HeaderRelay.Proofs.ProofRequests
import HeaderRelay.Proofs.Base64Texts
import HeaderRelay.Proofs.FlagPauses
import HeaderRelay.Proofs.HexTexts
import HeaderRelay.Proofs.ProofShapes
import HeaderRelay.Proofs.ProofTexts
import HeaderRelay.Proofs.BitcoinLevels
import HeaderRelay.Proofs.ConsensusCuts
