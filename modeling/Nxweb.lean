import Nxweb.Bytes
import Nxweb.Chunked.Message
import Nxweb.Chunked.Decoder
import Nxweb.Chunked.DecoderCorrectness
import Nxweb.Chunked.Encoder
import Nxweb.Http.Message
import Nxweb.ServerProto.State
import Nxweb.ServerProto.ResponseBody
import Nxweb.ServerProto.ResponseBodyCorrectness
import Nxweb.Lib.LexicalPath
import Nxweb.Lib.CString
import Nxweb.Uri.Path
import Nxweb.Uri.PathCorrectness
import Nxweb.Modules.Sendfile
import Nxweb.Uri.FilePath
import Nxweb.Uri.FilePathPieces
import Nxweb.Uri.QueryParameters
import Nxweb.Modules.ProxyCacheKey
import Nxweb.Server.SelectHandler
import Nxweb.Lib.Machine
import Nxweb.Proxy.Request
import Nxweb.Server.SelectHandlerUndo
import Nxweb.Proxy.SingleResponse
import Nxweb.Chunked.Monitor
import Nxweb.Buffer.IBuffer
import Nxweb.ServerProto.RequestBody
import Nxweb.ServerProto.RequestBodySpec
import Nxweb.ServerProto.RequestHeaders
import Nxweb.ServerProto.RequestBodyFraming
import Nxweb.ServerProto.RequestMessage
import Nxweb.ServerProto.DataOut
import Nxweb.ServerProto.ResponseOutput
import Nxweb.ServerProto.OutputFraming
import Nxweb.Server.BodyToMemory
import Nxweb.Server.Connection
import Nxweb.Server.BodyConsumed
import Nxweb.Server.ConnectionSync
import Nxweb.Server.KeepAliveSync
import Nxweb.ServerProto.HeaderSplit
import Nxweb.ClientProto.State
import Nxweb.ClientProto.Transfer
import Nxweb.ClientProto.Delivery
import Nxweb.ClientProto.ResponseFraming
import Nxweb.ClientProto.UntilClose
import Nxweb.Lib.Ring
import Nxweb.Lib.Decimal
import Nxweb.Lib.Calendar
import Nxweb.Http.ResponseText
import Nxweb.Http.ResponseRoundTrip
import Nxweb.Http.Text
import Nxweb.Http.Date
import Nxweb.Http.DateBuffer
import Nxweb.Http.HeaderName
import Nxweb.Buffer.RBuffer
import Nxweb.Buffer.RBufferFifo
import Nxweb.Proxy.DeadEnd
import Nxweb.Server.SubrequestTree
import Nxweb.Server.TreeClosing
import Nxweb.Server.RequestFinalizers
import Nxweb.Server.FinalizedOnce
import Nxweb.Filters.TemplateLoader
import Nxweb.Filters.TemplateIsolation
import Nxweb.Http.HeaderBlock
import Nxweb.Http.HeaderLines
import Nxweb.Http.RequestText
import Nxweb.Http.RequestRoundTrip
import Nxweb.Lib.DList
import Nxweb.Lib.Memory
import Nxweb.Memory.Pool
import Nxweb.Memory.PoolIntegrity
import Nxweb.Memory.NxBuffer
import Nxweb.Memory.BufferIntegrity
import Nxweb.Memory.ArenaRoom
import Nxweb.Http.HeaderRoom
import Nxweb.Event.Timers
import Nxweb.Event.TimerQueues
import Nxweb.Cache.MemCache
import Nxweb.Cache.CacheConsistency
import Nxweb.Event.Streams
import Nxweb.Event.StreamWakeups
import Nxweb.Event.Messages
import Nxweb.Event.MessageDelivery
import Nxweb.Server.ConnectionTimers
import Nxweb.Uri.PathNormalisation
import Nxweb.Lib.Traced
import Nxweb.Uri.PathAccess
import Nxweb.Chunked.MonitorEquivalence
import Nxweb.Chunked.SizeArithmetic
import Nxweb.Filters.TemplateAccounting
import Nxweb.Proxy.Pool
import Nxweb.Proxy.PoolAccounting
import Nxweb.Filters.FileCache
import Nxweb.Filters.FileCacheCondition
import Nxweb.Filters.FileCacheRevalidation
import Nxweb.Buffer.Streamer
import Nxweb.Buffer.StreamerOrder
import Nxweb.Server.Workers
import Nxweb.Server.WorkerSync
import Nxweb.Server.WorkerHandOff
import Nxweb.Lib.Fairness
import Nxweb.Server.WorkerProgress
import Nxweb.Http.RequestLength
import Nxweb.Buffer.IBufferLimit
import Nxweb.Proxy.ConditionalRequest
import Nxweb.ClientProto.InterimResponse
import Nxweb.Proxy.DirectAnswer
import Nxweb.Templates.Scanner
import Nxweb.Templates.Parser
import Nxweb.Templates.Rendering
import Nxweb.Templates.TableBounds
import Nxweb.Lib.BoundedRecursion
import Nxweb.Lib.PostOrder
import Nxweb.Templates.FileTree
import Nxweb.Templates.Termination
import Nxweb.Templates.Outline
import Nxweb.Templates.OutlineMatches
import Nxweb.Templates.ContextMatches
import Nxweb.Templates.Resolution
import Nxweb.Templates.Inheritance
import Nxweb.Templates.PlainTemplate
import Nxweb.Templates.TagRemoval
import Nxweb.Filters.CacheDisk
import Nxweb.Filters.FileCacheRoundTrip
import Nxweb.Filters.SsiVariables
import Nxweb.Filters.SsiDirective
import Nxweb.Filters.SsiText
import Nxweb.Http.GzipNegotiation
import Nxweb.Lib.PairSearch
import Nxweb.Templates.ScannerAccess
import Nxweb.Buffer.FileReader
import Nxweb.Http.DateAccess
import Nxweb.Server.UniqueId
import Nxweb.Chunked.OneShot
import Nxweb.Chunked.Extensions
import Nxweb.Chunked.OneShotCorrectness
import Nxweb.Chunked.OneShotTermination
import Nxweb.Filters.ImageCommand
import Nxweb.Filters.ImageCommandCanonical
import Nxweb.Memory.BufferFrame
import Nxweb.Filters.ImageSignature
import Nxweb.Json.Parser
import Nxweb.Json.Grammar
import Nxweb.Json.Scanning
import Nxweb.Json.Parsing
import Nxweb.Json.InBounds
import Nxweb.Json.Errno
import Nxweb.Json.Value
import Nxweb.Json.Faithful
import Nxweb.Http.CaseCompare
import Nxweb.Server.AccessLog
import Nxweb.Server.AccessLogRecords
import Nxweb.Lib.RecentRing
import Nxweb.Proxy.BackendClock
import Nxweb.Event.TimerReturn
import Nxweb.Server.WorkerCensus
import Nxweb.Lib.BoundedFifo
import Nxweb.Server.QueueTemplate
import Nxweb.Lib.OpenAddressing
import Nxweb.Cache.AlignHash
import Nxweb.Cache.AlignHashTable
import Nxweb.Cache.AlignHashResize
import Nxweb.Cache.AlignHashMap
import Nxweb.Lib.BlockChain
import Nxweb.Filters.Sha1
import Nxweb.Filters.Sha1Digest
import Nxweb.Filters.FileCacheRace
import Nxweb.Filters.GzipStream
import Nxweb.ClientProto.ChunkedDelivery
import Nxweb.ServerProto.ForwardedBody
import Nxweb.ServerProto.RequestSplit
