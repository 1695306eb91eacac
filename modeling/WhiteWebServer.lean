import WhiteWebServer.Lib.Machine
import WhiteWebServer.Lib.Storage
import WhiteWebServer.BufferQueue
import WhiteWebServer.HttpRequest
import WhiteWebServer.ParseStream
import WhiteWebServer.Chunking
import WhiteWebServer.Forwarding
import WhiteWebServer.HttpResponse
import WhiteWebServer.HttpConn
import WhiteWebServer.WireRequest
import WhiteWebServer.Pipelining
import WhiteWebServer.Transmission
import WhiteWebServer.Lib.HeapOrder
import WhiteWebServer.HeapTimer
import WhiteWebServer.TimerMap
import WhiteWebServer.TimerExpiry
import WhiteWebServer.AsyncLogger
import WhiteWebServer.HttpServer
import WhiteWebServer.StaticTokens
import WhiteWebServer.ProxyTokens
import WhiteWebServer.ConnRuns
import WhiteWebServer.ParseSafety
import WhiteWebServer.Isolation
import WhiteWebServer.Recovery
import WhiteWebServer.Lib.LexicalPath
import WhiteWebServer.Traversal
import WhiteWebServer.ProxyWaits
import WhiteWebServer.Descriptors
import WhiteWebServer.Relay
import WhiteWebServer.Lib.Files
import WhiteWebServer.LogFile
import WhiteWebServer.LoggerShutdown
import WhiteWebServer.ThreadPool
import WhiteWebServer.BodyBytes
import WhiteWebServer.HeaderLines
import WhiteWebServer.Suspended
import WhiteWebServer.Persistence
import WhiteWebServer.FormSegments
import WhiteWebServer.PendingBytes
import WhiteWebServer.Lib.Lease
import WhiteWebServer.Mappings
import WhiteWebServer.Lib.Orbit
import WhiteWebServer.FormLoop
import WhiteWebServer.ParseProgress
import WhiteWebServer.ResponseSplitting
import WhiteWebServer.StatusContent
import WhiteWebServer.BackendLoss
import WhiteWebServer.ConfigParser
import WhiteWebServer.ErrorText
import WhiteWebServer.SubtreeRepair
import WhiteWebServer.TimerFaults
import WhiteWebServer.TimerIndex
import WhiteWebServer.TimerOrder
import WhiteWebServer.TimerSubscripts
import WhiteWebServer.Answers
import WhiteWebServer.Clients
import WhiteWebServer.Logging
import WhiteWebServer.SerialClient
import WhiteWebServer.PooledServer
import WhiteWebServer.Site
import WhiteWebServer.IdleTimers
import WhiteWebServer.UserCount
