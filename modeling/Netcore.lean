import Netcore.Basic
import Netcore.Lib.OrderedMap
import Netcore.Multipart.Form
import Netcore.Lib.Delimiter
import Netcore.Multipart.Scanner
import Netcore.Multipart.Simulation
import Netcore.Multipart.RoundTrip
import Netcore.Multipart.Safety
import Netcore.Http.Pico
import Netcore.Http.Request
import Netcore.Http.Response
import Netcore.Connection
import Netcore.Server
import Netcore.Connection.Trace
import Netcore.Http.Header
import Netcore.Http.Buffer
import Netcore.Server.BodyBounds
import Netcore.Server.Segmentation
import Netcore.Server.TextBody
import Netcore.Http.FieldName
import Netcore.Connection.Fields
import Netcore.Server.FormBody
import Netcore.Websocket.Wire
import Netcore.Connection.Frames
import Netcore.Server.WsFrames
import Netcore.Server.Fragments
import Netcore.Lib.LexicalPath
import Netcore.Server.StaticFiles
import Netcore.EventLoop
import Netcore.Socket.Send
import Netcore.Socket.RawConnection
import Netcore.Websocket.Manager
import Netcore.Socket.Writen
import Netcore.Cache
import Netcore.Multipart.PartData
import Netcore.Multipart.Chunking
import Netcore.Server.Downloads
import Netcore.Server.FormErrors
import Netcore.Cache.Sharding
import Netcore.HeapTimer
import Netcore.LockFreeQueue
import Netcore.LockFreeQueue.Tickets
import Netcore.LockFreeQueue.Delivery
import Netcore.Server.Answers
import Netcore.Server.Replies
import Netcore.EventLoop.Timeouts
import Netcore.ThreadPool
import Netcore.Uuid
import Netcore.Websocket.Registry
import Netcore.Client
import Netcore.Http.WellFormed
import Netcore.Multipart.HeaderValues
import Netcore.Client.Uploads
import Netcore.Http.PercentEncoding
import Netcore.Http.QueryParams
import Netcore.Websocket.Codec
import Netcore.Websocket.Unmasking
import Netcore.Websocket.ConnectionSend
import Netcore.Connection.CloseFrames
import Netcore.Server.UrlencodedBody
import Netcore.Http.Metadata
import Netcore.Server.BodyCounter
import Netcore.Multipart.FalseLeads
import Netcore.HeapTimer.Accesses
import Netcore.HeapTimer.Ticks
import Netcore.Lib.Utf8
import Netcore.Websocket.Utf8
import Netcore.Http.Serialization
import Netcore.Socket.Recv
import Netcore.Http.Cookies
import Netcore.Http.Routing
import Netcore.Server.UploadFiles
import Netcore.Lib.Loops
import Netcore.Connection.FeedLoops
import Netcore.HttpCache
import Netcore.Acceptor
import Netcore.Http.Disposition
import Netcore.Connection.Boundary
import Netcore.Lib.ChunkedCoding
import Netcore.Connection.ChunkedDownloads
import Netcore.Lib.IteratedHash
import Netcore.Lib.SecureHash
import Netcore.Websocket.Sha1
import Netcore.Lib.Sextets
import Netcore.Http.Base64
import Netcore.Http.PicoResponse
import Netcore.Client.Responses
import Netcore.Client.Uri
import Netcore.Client.Exchange
import Netcore.Client.Requests
import Netcore.Websocket.Handshake
import Netcore.Websocket.Session
import Netcore.Lib.Numerals
import Netcore.Http.Itoa
import Netcore.Client.ItoaJeaiii
import Netcore.Http.Sessions
import Netcore.Client.SessionCookies
import Netcore.Client.Posts
import Netcore.Client.Downloads
import Netcore.Connection.DecodedDownloads
import Netcore.Server.Aspects
