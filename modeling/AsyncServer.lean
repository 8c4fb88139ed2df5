import AsyncServer.Transition
import AsyncServer.WhileLoop
import AsyncServer.Agenda
import AsyncServer.Timer
import AsyncServer.TimerWheel
import AsyncServer.TimerFiring
import AsyncServer.FiberExclusion
import AsyncServer.Epoll
import AsyncServer.EpollMirror
import AsyncServer.Hook
import AsyncServer.HookRuns
import AsyncServer.HookTimeout
import AsyncServer.HookWaiter
import AsyncServer.TimerCount
import AsyncServer.CString
import AsyncServer.Descriptors
import AsyncServer.Fragments
import AsyncServer.HttpFraming
import AsyncServer.HttpResponseParser
import AsyncServer.ParsedBytes
import AsyncServer.RequestGrammar
import AsyncServer.RequestRoundTrip
import AsyncServer.ResponseFraming
import AsyncServer.TimerDeletion
import AsyncServer.EdgeNotifications
import AsyncServer.TaskQueue
import AsyncServer.IdleTicks
import AsyncServer.Shutdown
import AsyncServer.FiberLifetime
import AsyncServer.ReusedDescriptors
import AsyncServer.KeepAlive
import AsyncServer.ServletDispatch
import AsyncServer.TimerPeriod
import AsyncServer.TimerConservation
import AsyncServer.ThreadNumbers
import AsyncServer.Milliseconds
import AsyncServer.UnlockedSlot
import AsyncServer.ErrorNotifications
import AsyncServer.SlotHistory
import AsyncServer.DescriptorIndices
import AsyncServer.UpdateLog
import AsyncServer.FdMap
import AsyncServer.IoFunc
import AsyncServer.DueTicks
import AsyncServer.LogFormatter
import AsyncServer.LogPattern
import AsyncServer.PercentEscapes
import AsyncServer.Address
import AsyncServer.PathDispatch
import AsyncServer.Separator
import AsyncServer.ResponseStructure
import AsyncServer.WaitTime
import AsyncServer.PoolGrowth
import AsyncServer.HeaderMap
import AsyncServer.SharedBlocks
import AsyncServer.SerialisedRequests
import AsyncServer.ParserSane
