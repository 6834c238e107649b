import ExecutionPlatform.Foundations.Words
import ExecutionPlatform.Foundations.Machine
import ExecutionPlatform.Foundations.Threaded
import ExecutionPlatform.Foundations.ProbeTable
import ExecutionPlatform.Foundations.MachineFloat
import ExecutionPlatform.Foundations.Hyperbolic
import ExecutionPlatform.Foundations.ExtendedReal
import ExecutionPlatform.Foundations.DelimitedText
import ExecutionPlatform.Foundations.ShiftXor
import ExecutionPlatform.Foundations.ByteMemory
import ExecutionPlatform.Foundations.Rounding
import ExecutionPlatform.Foundations.Streams
import ExecutionPlatform.Core.SlabAllocator
import ExecutionPlatform.Core.OrderBook
import ExecutionPlatform.Core.SlabSessions
import ExecutionPlatform.Core.SlabBytes
import ExecutionPlatform.Core.ReferenceBook
import ExecutionPlatform.Core.IdIndex
import ExecutionPlatform.Core.IndexChurn
import ExecutionPlatform.Core.LevelQueue
import ExecutionPlatform.Core.BookInvariant
import ExecutionPlatform.Core.SoldOut
import ExecutionPlatform.Core.BookMatching
import ExecutionPlatform.Core.BookRefinement
import ExecutionPlatform.Core.BookGuarantees
import ExecutionPlatform.Core.BookPrices
import ExecutionPlatform.Core.SpscRing
import ExecutionPlatform.Core.SpscInterleaving
import ExecutionPlatform.Core.SpscObservers
import ExecutionPlatform.Core.MatchingBook
import ExecutionPlatform.Core.BookSymmetry
import ExecutionPlatform.Core.BookLedger
import ExecutionPlatform.Core.BookConservation
import ExecutionPlatform.Core.BookCommutation
import ExecutionPlatform.Core.OrderSlicing
import ExecutionPlatform.Core.MarketImpact
import ExecutionPlatform.Core.QueueFairness
import ExecutionPlatform.External.TelemetryEvent
import ExecutionPlatform.External.EventRelay
import ExecutionPlatform.External.IpcKdbLogger
import ExecutionPlatform.External.CsvRow
import ExecutionPlatform.Exec.TelemetryPublisher
import ExecutionPlatform.Exec.TapeGaps
import ExecutionPlatform.Exec.Delivery
import ExecutionPlatform.Exec.TapePipeline
import ExecutionPlatform.Exec.Strategy
import ExecutionPlatform.Exec.AlmgrenChriss
import ExecutionPlatform.Exec.AlmgrenChrissUrgency
import ExecutionPlatform.Exec.FrontLoading
import ExecutionPlatform.Exec.Vwap
import ExecutionPlatform.Exec.CumulativeRounding
import ExecutionPlatform.Exec.TwapLimit
import ExecutionPlatform.Exec.RlPolicy
import ExecutionPlatform.Exec.ParentExecution
import ExecutionPlatform.Bindings.SimEnv
import ExecutionPlatform.Bindings.TelemetryTape
import ExecutionPlatform.Bindings.SimTracking
import ExecutionPlatform.Bindings.SimSteps
import ExecutionPlatform.Bindings.SimRefinement
import ExecutionPlatform.Bindings.Episode
import ExecutionPlatform.Bindings.BookHistory
import ExecutionPlatform.Bindings.EpisodeAccount
import ExecutionPlatform.Bindings.RewardIdentity
import ExecutionPlatform.Bindings.EpisodeIndependence
import ExecutionPlatform.Bindings.EpisodeLedger
import ExecutionPlatform.Bindings.StandingLiquidity
import ExecutionPlatform.Bindings.MarketEnvelope
import ExecutionPlatform.Bindings.Inventory
import ExecutionPlatform.Bindings.Observation
import ExecutionPlatform.Bindings.SlabGuard
import ExecutionPlatform.Main.SimRunner
import ExecutionPlatform.Main.WorkloadLoop
import ExecutionPlatform.Bindings.TapeBudget
import ExecutionPlatform.Main.WorkloadReport
import ExecutionPlatform.Cockpit.EvalSweep
import ExecutionPlatform.Cockpit.TwapBaseline
import ExecutionPlatform.Train.Supervisor
import ExecutionPlatform.Train.Workers
import ExecutionPlatform.Foundations.Numerals
import ExecutionPlatform.Main.CommandLine
