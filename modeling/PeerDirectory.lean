import PeerDirectory.Lib.CharArray
import PeerDirectory.Lib.Delimited
import PeerDirectory.Lib.DoWhile
import PeerDirectory.Lib.Heap
import PeerDirectory.Lib.KeyedList
import PeerDirectory.Lib.Lease
import PeerDirectory.Lib.Memory
import PeerDirectory.Lib.Mutex
import PeerDirectory.Lib.Parts
import PeerDirectory.Lib.Recency
import PeerDirectory.Lib.Run
import PeerDirectory.Lib.Text
import PeerDirectory.Lib.Xdr
import PeerDirectory.Server.List
import PeerDirectory.Server.ListFacts
import PeerDirectory.Server.LockedList
import PeerDirectory.Server.Lines
import PeerDirectory.Server.Messages
import PeerDirectory.Server.Fields
import PeerDirectory.Server.Servidor
import PeerDirectory.Server.Request
import PeerDirectory.Server.Replies
import PeerDirectory.Server.HandlerSystem
import PeerDirectory.Server.Connections
import PeerDirectory.Server.StoredStrings
import PeerDirectory.Server.AuditLog
import PeerDirectory.Server.Rpc
import PeerDirectory.Server.ResponseNodes
import PeerDirectory.Server.Commute
import PeerDirectory.Server.CutShort
import PeerDirectory.Server.Leftover
import PeerDirectory.Server.LazyInit
import PeerDirectory.Server.Handlers
import PeerDirectory.Server.AcceptLoop
import PeerDirectory.Server.RpcClient
import PeerDirectory.Directory.Basic
import PeerDirectory.Directory.Connected
import PeerDirectory.Directory.Abstraction
import PeerDirectory.Directory.Refinement
import PeerDirectory.Directory.Publications
import PeerDirectory.Directory.Addresses
import PeerDirectory.Server.HeapList
import PeerDirectory.Server.HeapShape
import PeerDirectory.Server.HeapRuns
import PeerDirectory.Server.HeapDestroy
import PeerDirectory.Client.Protocol
import PeerDirectory.Client.Response
import PeerDirectory.Client.Receiving
import PeerDirectory.Client.Requests
import PeerDirectory.Client.ListContent
import PeerDirectory.Client.Session
import PeerDirectory.Client.Threads
import PeerDirectory.Client.MainThread
import PeerDirectory.Client.Listener
import PeerDirectory.Client.GetFile
import PeerDirectory.Client.PeerListener
import PeerDirectory.Client.ListUsers
import PeerDirectory.Client.GetFileSockets
import PeerDirectory.Client.ResultCodes
import PeerDirectory.Client.Shell
import PeerDirectory.Network.Calls
import PeerDirectory.Network.Basic
import PeerDirectory.Network.Agreement
import PeerDirectory.Network.Copying
import PeerDirectory.Directory.Views
import PeerDirectory.Directory.Observations
import PeerDirectory.Server.History
import PeerDirectory.Directory.Latest
import PeerDirectory.Server.Accounts
import PeerDirectory.Server.OwnCalls
import PeerDirectory.Server.Finishing
import PeerDirectory.Server.Serializable
import PeerDirectory.Network.Concurrent
import PeerDirectory.Client.CutReplies
import PeerDirectory.Client.Answered
import PeerDirectory.Lib.LockedThreads
import PeerDirectory.Server.HeapCode
import PeerDirectory.Server.HeapSections
import PeerDirectory.Server.HeapThreads
