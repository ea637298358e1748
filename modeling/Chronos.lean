import Chronos.Server.HandshakeSafety
import Chronos.Server.UpdatePolicy
import Chronos.Server.UpdateThreads
import Chronos.Server.AdmissionControl
import Chronos.Server.SamplingPeriods
import Chronos.Server.Shutdown
import Chronos.Server.Liveness
import Chronos.Server.RefreshProgress
import Chronos.Server.Connection
import Chronos.Benchmark.Resolution
import Chronos.Benchmark.Leaks
import Chronos.Benchmark.HandleLeaks
import Chronos.Orders.Exchange
import Chronos.Orders.Restarts
import Chronos.Orders.Holdings
import Chronos.Orders.Interleaving
import Chronos.Orders.LookupErrors
import Chronos.Orders.Returning
import Chronos.Orders.Accounts
import Chronos.Orders.InitialLoad
import Chronos.Server.Stream
import Chronos.Server.Conversation
import Chronos.Server.ConversationProgress
import Chronos.Server.StartBarrier
import Chronos.Server.Trace
import Chronos.Server.Listener
import Chronos.Client.Numbering
import Chronos.Client.Coverage
import Chronos.Client.CacheLookups
import Chronos.Client.ClientConnection
import Chronos.Client.UserThread
import Chronos.Client.QuotesFile
import Chronos.Client.Service
import Chronos.Reports.SampleLog
import Chronos.Reports.TraceCsv
import Chronos.Reports.TableItems
import Chronos.TimeSums
