import LibSwitch.Address
import LibSwitch.BridgeCommands
import LibSwitch.BridgeGrammar
import LibSwitch.BridgeLoad
import LibSwitch.BridgeLocals
import LibSwitch.BridgePaths
import LibSwitch.ByteBuffer
import LibSwitch.ByteOrder
import LibSwitch.CText
import LibSwitch.CliRelay
import LibSwitch.ClientComm
import LibSwitch.ClientMain
import LibSwitch.Common
import LibSwitch.DeviceLinking
import LibSwitch.DumpedRules
import LibSwitch.ExitHandler
import LibSwitch.FileLines
import LibSwitch.FilterActions
import LibSwitch.FilterAddresses
import LibSwitch.FilterBounds
import LibSwitch.FilterDevices
import LibSwitch.FilterGrammar
import LibSwitch.FilterOutcomes
import LibSwitch.FilterRule
import LibSwitch.FilterSpelling
import LibSwitch.FilterSteps
import LibSwitch.FilterTwins
import LibSwitch.FilterWords
import LibSwitch.FiniteGraph
import LibSwitch.FlowContents
import LibSwitch.FlowDump
import LibSwitch.FlowFilter
import LibSwitch.FlowLoad
import LibSwitch.FlowRenaming
import LibSwitch.FlowTypes
import LibSwitch.ForkedMemory
import LibSwitch.Framing
import LibSwitch.HandlerSpecs
import LibSwitch.Handlers
import LibSwitch.InputEnd
import LibSwitch.KeyedStore
import LibSwitch.ListRuns
import LibSwitch.Listener
import LibSwitch.LoadDepth
import LibSwitch.LoadEnds
import LibSwitch.LoadedModules
import LibSwitch.LongLines
import LibSwitch.MainProcess
import LibSwitch.MessageDispatch
import LibSwitch.ModuleLoad
import LibSwitch.NumberDelivery
import LibSwitch.Numeral
import LibSwitch.OrderlyShutdown
import LibSwitch.PointerTable
import LibSwitch.ProcessPool
import LibSwitch.ProcessTree
import LibSwitch.ProcessViews
import LibSwitch.Reactive
import LibSwitch.ReplyBounds
import LibSwitch.RepositoryHalts
import LibSwitch.RequestSafety
import LibSwitch.Requests
import LibSwitch.Routing
import LibSwitch.RuleScripts
import LibSwitch.RuleTable
import LibSwitch.SampleClient
import LibSwitch.SessionEnd
import LibSwitch.SessionMemory
import LibSwitch.SessionSurvival
import LibSwitch.Sessions
import LibSwitch.Shutdown
import LibSwitch.ShutdownProgress
import LibSwitch.SockComm
import LibSwitch.StubLibraries
import LibSwitch.StubPrints
import LibSwitch.SwitchQuery
import LibSwitch.TrailingNewline
