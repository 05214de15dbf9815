import KTorrent.Bcodec.BDecoder
import KTorrent.Bcodec.BEncoder
import KTorrent.Bcodec.BNode
import KTorrent.Bcodec.LengthPrefix
import KTorrent.Bcodec.Narrow
import KTorrent.Bcodec.Progress
import KTorrent.Bcodec.RoundTrip
import KTorrent.Bcodec.Slices
import KTorrent.Bcodec.Strings
import KTorrent.Datachecker.DataChecker
import KTorrent.Datachecker.MultiDataChecker
import KTorrent.Datachecker.SingleDataChecker
import KTorrent.Datachecker.Soundness
import KTorrent.Dht.BucketLaw
import KTorrent.Dht.Database
import KTorrent.Dht.KBucket
import KTorrent.Dht.KBucketTable
import KTorrent.Dht.KClosestNodesSearch
import KTorrent.Dht.Key
import KTorrent.Dht.KeyArithmetic
import KTorrent.Dht.RPCMsg
import KTorrent.Dht.RPCRoundTrip
import KTorrent.Dht.RPCServer
import KTorrent.Dht.SplitLoss
import KTorrent.Dht.TableLaw
import KTorrent.Dht.Task
import KTorrent.Dht.TaskLaw
import KTorrent.Dht.TokenLife
import KTorrent.Diskio.ChunkBytes
import KTorrent.Diskio.ChunkCache
import KTorrent.Diskio.ChunkManager
import KTorrent.Diskio.DataFiles
import KTorrent.Diskio.DndAreas
import KTorrent.Diskio.ExcludedBytes
import KTorrent.Diskio.Exclusion
import KTorrent.Diskio.ExclusionLaw
import KTorrent.Diskio.IndexFile
import KTorrent.Diskio.MultiFileCache
import KTorrent.Diskio.WantedChunks
import KTorrent.Diskio.WantedLaw
import KTorrent.Download.BytesAgree
import KTorrent.Download.BytesLaw
import KTorrent.Download.ChunkDownload
import KTorrent.Download.ChunkSelector
import KTorrent.Download.CurrentChunks
import KTorrent.Download.DownloadedBytes
import KTorrent.Download.Downloader
import KTorrent.Download.GrabBalance
import KTorrent.Download.GrabCalls
import KTorrent.Download.GuiltyPeer
import KTorrent.Download.HashStored
import KTorrent.Download.HttpBody
import KTorrent.Download.HttpConnection
import KTorrent.Download.Packet
import KTorrent.Download.Received
import KTorrent.Download.RequestAgree
import KTorrent.Download.RequestBooks
import KTorrent.Download.RequestCalls
import KTorrent.Download.RequestLaw
import KTorrent.Download.Restart
import KTorrent.Download.RestartLaw
import KTorrent.Download.SelectLaw
import KTorrent.Download.SelectRangeLaw
import KTorrent.Download.SelectorLaw
import KTorrent.Download.SelectorList
import KTorrent.Download.WebSeed
import KTorrent.Download.WebSeedLaw
import KTorrent.Download.WebSeedRanges
import KTorrent.Lib.BigEndian
import KTorrent.Lib.Binary64
import KTorrent.Lib.Blocks
import KTorrent.Lib.Buffer
import KTorrent.Lib.ByteFile
import KTorrent.Lib.Extents
import KTorrent.Lib.FiniteMap
import KTorrent.Lib.IndexLoop
import KTorrent.Lib.KeyStream
import KTorrent.Lib.KeyedList
import KTorrent.Lib.MarkedSum
import KTorrent.Lib.OrderedSet
import KTorrent.Lib.Pattern
import KTorrent.Lib.Pieces
import KTorrent.Lib.Ranges
import KTorrent.Lib.ReverseIndex
import KTorrent.Lib.Ring
import KTorrent.Lib.RoundRobin
import KTorrent.Lib.Run
import KTorrent.Lib.SlidingMinimum
import KTorrent.Lib.Smallest
import KTorrent.Lib.UpperBound
import KTorrent.Lib.Words
import KTorrent.Magnet.MagnetLink
import KTorrent.Magnet.MetadataDownload
import KTorrent.Magnet.MetadataExchange
import KTorrent.Mse.AnswererStream
import KTorrent.Mse.AuthenticateBase
import KTorrent.Mse.EncryptedAuthenticate
import KTorrent.Mse.EncryptedPacketSocket
import KTorrent.Mse.EncryptedServerAuthenticate
import KTorrent.Mse.Functions
import KTorrent.Mse.InitiatorLaw
import KTorrent.Mse.InitiatorStages
import KTorrent.Mse.InitiatorStream
import KTorrent.Mse.KeyAgreement
import KTorrent.Mse.RC4Encryptor
import KTorrent.Mse.ReinsertedData
import KTorrent.Mse.ResponderLaw
import KTorrent.Mse.ResponderStages
import KTorrent.Mse.SplitHandshake
import KTorrent.Net.Address
import KTorrent.Net.GlobalLimit
import KTorrent.Net.GroupBudget
import KTorrent.Net.LimitBroken
import KTorrent.Net.LimitedTurns
import KTorrent.Net.NetworkThread
import KTorrent.Net.PacketOrder
import KTorrent.Net.PacketSocket
import KTorrent.Net.SocketGroup
import KTorrent.Net.Socks
import KTorrent.Net.SocksReplies
import KTorrent.Net.StreamSocket
import KTorrent.Peer.Availability
import KTorrent.Peer.ChunkCounter
import KTorrent.Peer.ConnectionLimit
import KTorrent.Peer.FastAnswers
import KTorrent.Peer.FramesHanded
import KTorrent.Peer.Framing
import KTorrent.Peer.Interest
import KTorrent.Peer.InterestLaw
import KTorrent.Peer.PacketReader
import KTorrent.Peer.PeerDownloader
import KTorrent.Peer.PeerManager
import KTorrent.Peer.PeerUploader
import KTorrent.Peer.PexDifferences
import KTorrent.Peer.PexReceived
import KTorrent.Peer.RequestQueue
import KTorrent.Peer.SeededChunk
import KTorrent.Peer.SendChunk
import KTorrent.Peer.SuperSeeder
import KTorrent.Peer.SuperSeeding
import KTorrent.Peer.UTMetaData
import KTorrent.Peer.UTPex
import KTorrent.Torrent.ChokeAlgorithm
import KTorrent.Torrent.ChunkParts
import KTorrent.Torrent.ChunkPos
import KTorrent.Torrent.FileStreamLaw
import KTorrent.Torrent.FileStreamRead
import KTorrent.Torrent.Load
import KTorrent.Torrent.LoadLayout
import KTorrent.Torrent.PieceVisits
import KTorrent.Torrent.TorrentFile
import KTorrent.Torrent.TorrentFileStream
import KTorrent.Torrent.Walkers
import KTorrent.Tracker.AnnounceReply
import KTorrent.Tracker.CurrentTracker
import KTorrent.Tracker.HTTPTracker
import KTorrent.Tracker.HonestTimeouts
import KTorrent.Tracker.PendingEvent
import KTorrent.Tracker.TrackerManager
import KTorrent.Tracker.UDPTracker
import KTorrent.Util.AcquireLaw
import KTorrent.Util.BitSet
import KTorrent.Util.BitSetCount
import KTorrent.Util.BitSetLaw
import KTorrent.Util.CircularBuffer
import KTorrent.Util.Constants
import KTorrent.Util.Endian
import KTorrent.Util.FairSharing
import KTorrent.Util.ResourceManager
import KTorrent.Utp.CloseCheck
import KTorrent.Utp.Connection
import KTorrent.Utp.ConnectionSteps
import KTorrent.Utp.DelayMinimum
import KTorrent.Utp.DelayOffset
import KTorrent.Utp.DelayWindow
import KTorrent.Utp.EndOfStream
import KTorrent.Utp.FastRetransmit
import KTorrent.Utp.FlowControl
import KTorrent.Utp.HalfClose
import KTorrent.Utp.InFlight
import KTorrent.Utp.InOrderDelivery
import KTorrent.Utp.LocalWindow
import KTorrent.Utp.LossRule
import KTorrent.Utp.NoReset
import KTorrent.Utp.PacketBuffer
import KTorrent.Utp.PacketParser
import KTorrent.Utp.RemoteWindow
import KTorrent.Utp.SackComplete
import KTorrent.Utp.SelectiveAck
import KTorrent.Utp.SentStream
import KTorrent.Utp.SeqNr
import KTorrent.Utp.Server
import KTorrent.Utp.UnreadBytes
import KTorrent.Utp.WindowGain
import KTorrent.Utp.WindowLayout
import KTorrent.Utp.WindowNumbers
import KTorrent.Utp.WindowSlots
import KTorrent.Utp.WindowUse
