import Chromium.Runs
import Chromium.Tiling
import Chromium.CommandTokens
import Chromium.FencedAllocator
import Chromium.FencedAllocatorRuns
import Chromium.Segments
import Chromium.FencedAllocatorSizes
import Chromium.MappedMemory
import Chromium.MappedMemoryRuns
import Chromium.RingBuffer
import Chromium.RingBufferRuns
import Chromium.TransactionCoordinator
import Chromium.CommandRing
import Chromium.CommandRingRuns
import Chromium.CommandBufferService
import Chromium.CommandBufferHelper
import Chromium.HelperTokens
import Chromium.HelperTokenRuns
import Chromium.Cursor
import Chromium.LevelDBTransaction
import Chromium.LevelDBTransactionRuns
import Chromium.CritBit
import Chromium.FreeList
import Chromium.StrikeRegister
import Chromium.StrikeRegisterLayout
import Chromium.StrikeRegisterRuns
import Chromium.StrikeRegisterSet
import Chromium.Comparator
import Chromium.IDBCoding
import Chromium.IDBCodingOrder
import Chromium.IDBKeyCompare
import Chromium.IDBIndexData
import Chromium.TaggedTrees
import Chromium.IDBKeyReading
import Chromium.IDBKeyParsing
import Chromium.IDBKeyRoundTrip
import Chromium.IDBRangeKeys
import Chromium.BlockFiles
import Chromium.BlockFilesRuns
import Chromium.Bpf
import Chromium.BpfVerifier
import Chromium.CodeGen
import Chromium.HttpChunkedDecoder
import Chromium.Digraph
import Chromium.DnsAddressList
import Chromium.DnsName
import Chromium.DnsRecordParser
import Chromium.SpdyPriorityForest
import Chromium.PrefixReader
import Chromium.WebSocketFrame
import Chromium.WebSocketFrameParser
import Chromium.XorSum
import Chromium.QuicEntropy
import Chromium.SortedMap
import Chromium.QuicStreamSequencer
import Chromium.WebSocketChannel
import Chromium.WebSocketChannelRuns
import Chromium.WireFormat
import Chromium.QuicFramer
import Chromium.QuicFrameSegments
import Chromium.QuicFramerRoundTrip
import Chromium.QuicAckFrames
import Chromium.IpcChannelReader
import Chromium.ListOrder
import Chromium.UniquePosition
import Chromium.UniquePositionInsert
import Chromium.UrlPattern
import Chromium.UrlPatternContainment
import Chromium.UrlPatternOverlap
import Chromium.UrlUnescape
import Chromium.UrlEscape
import Chromium.PrioritizedDispatcher
import Chromium.SeekableBufferRuns
import Chromium.MojoRawChannel
import Chromium.MojoMessagePipe
import Chromium.MojoChannelRuns
import Chromium.MojoPipeDelivery
import Chromium.SchedulerStateMachine
import Chromium.SchedulerRuns
import Chromium.QuicFecGroup
import Chromium.QuicFecRecovery
import Chromium.QuicWireNumbers
import Chromium.IcuUtf
import Chromium.StringNumber
import Chromium.JsonParser
import Chromium.JsonText
import Chromium.JsonParserAccepts
import Chromium.JsonWriter
import Chromium.JsonParserReads
import Chromium.JsonUnambiguous
import Chromium.JsonGrammar
import Chromium.PrefixSet
import Chromium.ChunkRange
import Chromium.ByteMemory
import Chromium.WebSocketMasking
import Chromium.HttpChunkedBodies
import Chromium.WeightedChoice
import Chromium.SpdyPrioritySelection
import Chromium.WebSocketBasicStream
import Chromium.WebSocketBasicStreamRuns
import Chromium.WebSocketNullData
import Chromium.KeyedCancellation
import Chromium.SafeBrowsingStore
import Chromium.SafeBrowsingSubs
import Chromium.QuicPacketCreator
import Chromium.QuicPacketSizes
import Chromium.QuicPacketPacking
import Chromium.LinearProbing
import Chromium.VisitedLinkTable
import Chromium.VisitedLinkMaster
import Chromium.Enumeration
import Chromium.GfxRect
import Chromium.TilingData
import Chromium.TilingDataIterator
import Chromium.Positional
import Chromium.UrlCanonIP
import Chromium.TabStripMoves
import Chromium.SafeSprintfFormat
import Chromium.NumberConversionExact
import Chromium.PartialDataRuns
import Chromium.MediaRanges
import Chromium.JsonWriterOmits
import Chromium.FileDescriptorShuffleRuns
import Chromium.RelativeJumps
import Chromium.RelativeJumpRuns
import Chromium.DiskCacheBitmap
import Chromium.PrefixTrie
import Chromium.BreadthFirst
import Chromium.SubstringSetMatcher
import Chromium.SubstringSetTree
import Chromium.SubstringSetFailures
import Chromium.SubstringSetRuns
