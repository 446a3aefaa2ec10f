import FailStar.Foundations.Reachability
import FailStar.Foundations.OrderedMap
import FailStar.JobServer.Containers
import FailStar.JobServer.Model
import FailStar.JobServer.Steps
import FailStar.JobServer.Mutex
import FailStar.JobServer.Ownership
import FailStar.JobServer.Delivery
import FailStar.JobServer.Completion
import FailStar.JobServer.Resend
import FailStar.JobServer.Deadlock
import FailStar.Foundations.HopChain
import FailStar.Foundations.FirstMin
import FailStar.Trace.Event
import FailStar.Util.MemoryMap
import FailStar.Sal.Listener
import FailStar.Trace.TracingPlugin
import FailStar.SmartHops.TraceReader
import FailStar.SmartHops.Algorithm
import FailStar.SmartHops.Navigation
import FailStar.SmartHops.InjectionPoint
import FailStar.SmartHops.SpinChains
import FailStar.Foundations.DefUse
import FailStar.ImportTrace.Importer
import FailStar.ImportTrace.EquivalenceClasses
import FailStar.SmartHops.Replay
import FailStar.Foundations.Intervals
import FailStar.ImportTrace.SanityChecks
import FailStar.Foundations.Timeline
import FailStar.ImportTrace.TimeAxis
import FailStar.ImportTrace.TraceTime
import FailStar.ImportTrace.Lanes
import FailStar.SmartHops.ForbiddenHops
import FailStar.Foundations.Roulette
import FailStar.Util.SumTree
import FailStar.Foundations.SwapRemove
import FailStar.Sal.ListenerManager
import FailStar.Sal.Dispatch
import FailStar.Sal.Trigger
import FailStar.JobServer.WorkloadIds
import FailStar.JobClient.Exchange
import FailStar.JobClient.Ends
import FailStar.JobClient.Pairing
import FailStar.Foundations.Attempt
import FailStar.ImportTrace.AdvancedMemory
import FailStar.Foundations.Delay
import FailStar.ImportTrace.MemoryRows
import FailStar.ImportTrace.DelayedEntries
import FailStar.ImportTrace.LateStart
import FailStar.Foundations.Oracle
import FailStar.ImportTrace.FailedImports
import FailStar.ImportTrace.RecordedTimes
import FailStar.Foundations.Table
import FailStar.PruneTrace.BasicPruner
import FailStar.PruneTrace.SamplingPruner
import FailStar.PruneTrace.IncrementalSampling
import FailStar.Campaign.DatabaseCampaign
import FailStar.Foundations.Blocks
import FailStar.PruneTrace.BasicBlockPruner
import FailStar.Foundations.Numerals
import FailStar.Util.MemoryMapFile
import FailStar.Foundations.InputStream
import FailStar.Plugins.Checkpoint
import FailStar.Util.ProtoStream
import FailStar.Foundations.ChainCosts
import FailStar.SmartHops.Costs
import FailStar.SmartHops.OptimalChains
import FailStar.SmartHops.Checkpoints
import FailStar.SmartHops.Rollback
import FailStar.SmartHops.CheckpointFile
import FailStar.ImportTrace.BranchOutcomes
import FailStar.ImportTrace.JumpHistory
import FailStar.PruneTrace.FESamplingPruner
import FailStar.Util.SumTreeIterator
import FailStar.ImportTrace.CompleteRows
import FailStar.PruneTrace.CallRegionPruner
import FailStar.PruneTrace.RegionWeights
import FailStar.Foundations.Odometer
import FailStar.Util.DatabaseProtobufAdapter
import FailStar.Foundations.LowBits
import FailStar.PruneTrace.RandomNumbers
import FailStar.Efw.DatabaseExperiment
import FailStar.JobServer.FairPicks
import FailStar.Util.CapstoneDisassembler
import FailStar.Util.InsertMultiple
import FailStar.Efw.RegisterFaults
import FailStar.Foundations.CNumbers
import FailStar.Util.MemoryMapLines
import FailStar.ConvertTrace.Gem5Converter
import FailStar.ConvertTrace.DumpConverter
import FailStar.Foundations.LexicalPath
import FailStar.Util.DwarfReader
import FailStar.Foundations.FaultSpace
import FailStar.ImportTrace.FaultClasses
import FailStar.SmartHops.ExactCosts
