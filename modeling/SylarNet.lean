import SylarNet.AddressOrder
import SylarNet.AddressSubnets
import SylarNet.Base64Decoder
import SylarNet.ByteArrayClear
import SylarNet.ByteArrayFiles
import SylarNet.ByteArrayStrings
import SylarNet.ClientHeaders
import SylarNet.FiberLifeCycle
import SylarNet.FileRemoval
import SylarNet.FixedTransfers
import SylarNet.HexStrings
import SylarNet.HmacHash
import SylarNet.HookConnect
import SylarNet.HookDescriptors
import SylarNet.HookFcntl
import SylarNet.HookSleeps
import SylarNet.HostLookup
import SylarNet.HttpAttributes
import SylarNet.HttpBodies
import SylarNet.HttpChunkBounds
import SylarNet.HttpMethods
import SylarNet.IOManagerInterest
import SylarNet.Ipv6Text
import SylarNet.JsonEscape
import SylarNet.LogDefines
import SylarNet.LoggerFormatters
import SylarNet.NetcatRelay
import SylarNet.PoolRequests
import SylarNet.ProcessStat
import SylarNet.QuickHash
import SylarNet.SchedulerStopping
import SylarNet.SemaphoreHandover
import SylarNet.ServerConfs
import SylarNet.ServletDispatch
import SylarNet.SslSocket
import SylarNet.StringReplacement
import SylarNet.StringSplits
import SylarNet.SylarConfig
import SylarNet.TimerResults
import SylarNet.TimerWakeup
import SylarNet.TtcpSession
import SylarNet.UptimeFormat
import SylarNet.UriCreation
import SylarNet.WebSocketBounds
import SylarNet.WebSocketSending
import SylarNet.WebSocketSync
import SylarNet.WorkerGroups
