import HarvestMoE.Lib.Run
import HarvestMoE.Lib.Rows
import HarvestMoE.Config
import HarvestMoE.Schedule
import HarvestMoE.Weights
import HarvestMoE.Residency
import HarvestMoE.KvPool
import HarvestMoE.Lib.Regions
import HarvestMoE.KvContract
import HarvestMoE.Lib.Loops
import HarvestMoE.Lookahead
import HarvestMoE.AttentionFutures
import HarvestMoE.DecodeMachine
import HarvestMoE.Pipeline
import HarvestMoE.Admission
import HarvestMoE.Serve
import HarvestMoE.Answers
import HarvestMoE.ServeFailure
import HarvestMoE.ExpertTracker
import HarvestMoE.Reallocation
import HarvestMoE.MoveEffects
import HarvestMoE.SlotOwnership
import HarvestMoE.ExpertMapping
import HarvestMoE.ExpertContents
import HarvestMoE.ReallocationBatch
import HarvestMoE.BatchLedger
import HarvestMoE.Lib.Streams
import HarvestMoE.Lib.Places
import HarvestMoE.Relay
import HarvestMoE.PageParity
import HarvestMoE.SlotPrefetch
import HarvestMoE.EngineStreams
import HarvestMoE.LineReuse
import HarvestMoE.PageReuse
import HarvestMoE.HiddenHandoff
import HarvestMoE.SlotReuse
import HarvestMoE.Prefill
import HarvestMoE.AdmissionCapacity
import HarvestMoE.Lib.StreamSides
import HarvestMoE.MoveStreams
import HarvestMoE.BlockTable
import HarvestMoE.PagedKvCache
import HarvestMoE.FlashDecode
import HarvestMoE.ExpertPage
import HarvestMoE.Lib.BlockSums
import HarvestMoE.FusedMoe
import HarvestMoE.LastToken
import HarvestMoE.CostModel
import HarvestMoE.Lib.UnimodalSearch
import HarvestMoE.RooflineSearch
import HarvestMoE.LaunchServer
import HarvestMoE.Dispatcher
import HarvestMoE.BatchOrder
import HarvestMoE.Lib.While
import HarvestMoE.NbUbSearch
import HarvestMoE.LaunchLengths
import HarvestMoE.MicroBatchSizes
import HarvestMoE.AbortedRequests
import HarvestMoE.LengthLimits
import HarvestMoE.StopConditions
import HarvestMoE.Lib.PrefixMass
import HarvestMoE.Lib.PyNum
import HarvestMoE.TopPTopK
import HarvestMoE.SamplingChecks
import HarvestMoE.MoveOutcomes
import HarvestMoE.ReallocationHandlers
import HarvestMoE.RequestLifecycle
import HarvestMoE.Lib.Mutex
import HarvestMoE.TrackerSync
import HarvestMoE.FusedLaunch
import HarvestMoE.CheckpointDispatch
import HarvestMoE.CheckpointLoad
import HarvestMoE.PagedMemory
import HarvestMoE.PagedCapacity
import HarvestMoE.PagedCpuAttention
import HarvestMoE.RegisteredRequests
import HarvestMoE.KvCacheConfig
import HarvestMoE.StreamChunks
import HarvestMoE.KvHeads
import HarvestMoE.PortAllocation
import HarvestMoE.Lib.Cuts
import HarvestMoE.DecodeSlots
import HarvestMoE.Lib.IntBits
import HarvestMoE.BlockSizes
import HarvestMoE.Lib.Attention
import HarvestMoE.ContextAttention
import HarvestMoE.CausalLM
import HarvestMoE.Generation
import HarvestMoE.CpuDecode
import HarvestMoE.AnsweredOnce
import HarvestMoE.MessagePath
import HarvestMoE.ParallelLinear
import HarvestMoE.ParallelAttention
import HarvestMoE.ExpertResults
import HarvestMoE.ModelSimulation
import HarvestMoE.ParallelModel
import HarvestMoE.OwnPrompt
import HarvestMoE.ClientTexts
import HarvestMoE.KvCoverage
