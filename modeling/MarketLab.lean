import MarketLab.MarketData.BufferRelease
import MarketLab.MarketData.Numbering
import MarketLab.MarketData.Replica
import MarketLab.MarketData.ViewReference
import MarketLab.MarketData.Publisher
import MarketLab.MarketData.Reordering
import MarketLab.Matching.Conservation
import MarketLab.Matching.TimePriority
import MarketLab.Matching.Uncrossed
import MarketLab.Matching.PriceTimeReference
import MarketLab.Matching.Determinism
import MarketLab.Matching.FilledKeys
import MarketLab.Matching.IncrementalStream
import MarketLab.Matching.SymbolIsolation
import MarketLab.Matching.Termination
import MarketLab.Matching.Mirror
import MarketLab.Replay.ScenarioLoad
import MarketLab.Replay.Tokenization
import MarketLab.Runtime.Linearizable
import MarketLab.Runtime.Shutdown
import MarketLab.Replay.JsonLines
import MarketLab.Runtime.Sequential
import MarketLab.Replay.FileReplay
import MarketLab.Replay.DirectoryReplay
import MarketLab.Replay.CommandLine
import MarketLab.MarketData.ListenerRuns
import MarketLab.MarketData.ListenerOutcome
import MarketLab.MarketData.SimulatorRuns
import MarketLab.MarketData.LoadDelivery
import MarketLab.MarketData.ListenerCommandLine
import MarketLab.MarketData.SimulatorCommandLine
import MarketLab.MarketData.SimulatorExit
import MarketLab.Runtime.Quiescence
import MarketLab.Matching.UntradedOrders
