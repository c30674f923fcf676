import Torrentkino.Lib.Memory
import Torrentkino.Lib.Strides
import Torrentkino.Lib.Segments
import Torrentkino.Lib.Decimal
import Torrentkino.Lib.CString
import Torrentkino.Lib.BigEndian
import Torrentkino.Lib.DnsWire
import Torrentkino.Lib.Cuts
import Torrentkino.Lib.Heap
import Torrentkino.Lib.Chain
import Torrentkino.Lib.Chase
import Torrentkino.Lib.Simulation
import Torrentkino.Lib.Network
import Torrentkino.Lib.Recent
import Torrentkino.Lib.Sorted
import Torrentkino.Lib.Walk
import Torrentkino.Lib.BlockHash
import Torrentkino.Lib.Sha1
import Torrentkino.Lib.Shares
import Torrentkino.Lib.Watchdog
import Torrentkino.Shr.Config
import Torrentkino.Shr.Ip
import Torrentkino.Shr.Hash
import Torrentkino.Shr.HashMem
import Torrentkino.Shr.List
import Torrentkino.Shr.ListRefine
import Torrentkino.Shr.Str
import Torrentkino.Shr.Utf8
import Torrentkino.Shr.File
import Torrentkino.Shr.Table
import Torrentkino.Shr.Index
import Torrentkino.Shr.Sequence
import Torrentkino.Shr.Random
import Torrentkino.Dns.Dns
import Torrentkino.Dns.Response
import Torrentkino.Dns.SameName
import Torrentkino.Dns.Name
import Torrentkino.Dns.Query
import Torrentkino.Dns.QueryForm
import Torrentkino.Dns.Header
import Torrentkino.Dns.ReadName
import Torrentkino.Dns.Client
import Torrentkino.Dns.Nss
import Torrentkino.P2p.Ben
import Torrentkino.P2p.BenParse
import Torrentkino.P2p.BenLiteral
import Torrentkino.P2p.BenGrammar
import Torrentkino.P2p.BenRoundTrip
import Torrentkino.P2p.BenNode
import Torrentkino.P2p.BenHeap
import Torrentkino.P2p.NodeUdp
import Torrentkino.P2p.Sha1
import Torrentkino.P2p.Distance
import Torrentkino.P2p.Bucket
import Torrentkino.P2p.BucketSplit
import Torrentkino.P2p.Neighbourhood
import Torrentkino.P2p.NeighbourhoodInv
import Torrentkino.P2p.AnyMatch
import Torrentkino.P2p.Time
import Torrentkino.P2p.Value
import Torrentkino.P2p.Cache
import Torrentkino.P2p.Recency
import Torrentkino.P2p.ValueInv
import Torrentkino.P2p.CacheInv
import Torrentkino.P2p.Token
import Torrentkino.P2p.Lookup
import Torrentkino.P2p.Transaction
import Torrentkino.P2p.SendUdp
import Torrentkino.P2p.Main
import Torrentkino.P2p.Resolver
import Torrentkino.P2p.Request
import Torrentkino.P2p.Reply
import Torrentkino.P2p.Krpc
import Torrentkino.P2p.ReplyAddress
import Torrentkino.P2p.Announce
import Torrentkino.P2p.Cron
import Torrentkino.P2p.LookupOrder
import Torrentkino.P2p.Daemon
import Torrentkino.P2p.Act
import Torrentkino.P2p.TokenLife
import Torrentkino.P2p.Messages
import Torrentkino.P2p.Stored
import Torrentkino.P2p.Talks
import Torrentkino.P2p.Liveness
import Torrentkino.P2p.Aes
import Torrentkino.P2p.Network
import Torrentkino.P2p.NetAddresses
import Torrentkino.P2p.TransactionInv
import Torrentkino.P2p.ExpireWalk
import Torrentkino.P2p.LookupQueries
import Torrentkino.P2p.LookupThreads
import Torrentkino.P2p.TableAddresses
import Torrentkino.P2p.KnownAddress
import Torrentkino.P2p.SplitLoop
import Torrentkino.P2p.Quiet
import Torrentkino.P2p.LookupName
import Torrentkino.P2p.OneResponse
import Torrentkino.P2p.QuestionEcho
import Torrentkino.P2p.ResponseFormat
import Torrentkino.P2p.ClientAnswer
import Torrentkino.P2p.Renew
import Torrentkino.Web.Mime
import Torrentkino.Web.NodeTcp
import Torrentkino.Web.Http
import Torrentkino.Web.SendTcp
import Torrentkino.Web.Answer
import Torrentkino.Web.Tcp
import Torrentkino.Web.Pipeline
import Torrentkino.Web.ContentLength
import Torrentkino.Web.WholeAnswer
import Torrentkino.Web.Containment
import Torrentkino.Web.Transfer
import Torrentkino.Web.Worker
import Torrentkino.Web.WorkerSafe
import Torrentkino.Web.WorkerRun
import Torrentkino.Web.RangeSpec
import Torrentkino.Web.RangeParts
import Torrentkino.Web.UrlDecode
import Torrentkino.Web.RecvBuf
