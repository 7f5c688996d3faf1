import Dcpp.SegmentSet
import Dcpp.Library.Chunks
import Dcpp.Library.HashTree
import Dcpp.MerkleTree
import Dcpp.TigerTree
import Dcpp.MerkleCheckOutputStream
import Dcpp.TreeCheck
import Dcpp.AdcCommand
import Dcpp.AdcRoundTrip
import Dcpp.BufferedSocket
import Dcpp.ClientManager
import Dcpp.ConnectionAccounting
import Dcpp.Direction
import Dcpp.DirectoryListing
import Dcpp.DoneSet
import Dcpp.Download
import Dcpp.DownloadRun
import Dcpp.ItemProgress
import Dcpp.Library.Incremental
import Dcpp.Library.Index
import Dcpp.QueueConsistent
import Dcpp.QueueInvariant
import Dcpp.ReaderAbsorbs
import Dcpp.ReaderChunks
import Dcpp.ReaderDocuments
import Dcpp.ReaderExtends
import Dcpp.ReaderStreams
import Dcpp.ShareList
import Dcpp.SimpleXMLRoundTrip
import Dcpp.SocketFraming
import Dcpp.HashData
import Dcpp.HashIndex
import Dcpp.HashPauser
import Dcpp.HashRebuild
import Dcpp.HasherQueue
import Dcpp.QueueFile
import Dcpp.SavedFiles
import Dcpp.UploadManager
import Dcpp.UploadSlots
import Dcpp.AdcInfo
import Dcpp.AdcUsers
import Dcpp.BackgroundWorker
import Dcpp.BloomFilter
import Dcpp.ChunkSize
import Dcpp.NextSegment
import Dcpp.PrepareFile
import Dcpp.ShareFiles
import Dcpp.ShareIndexed
import Dcpp.ShareSearch
import Dcpp.TreeDownload
import Dcpp.DownloadLife
import Dcpp.DownloadLifeCycle
import Dcpp.RunningSegments
import Dcpp.ShareFilter
import Dcpp.MyNick
import Dcpp.BloomRequest
import Dcpp.AdcSearch
import Dcpp.NoCaseString
import Dcpp.SearchResults
import Dcpp.VirtualPath
import Dcpp.RealPath
import Dcpp.ValidateMessage
import Dcpp.ValidateFileName
import Dcpp.EncodeURI
import Dcpp.Base32
import Dcpp.Utf8WellFormed
import Dcpp.SanitizeUtf8
import Dcpp.StringCompare
import Dcpp.DecodeUrl
import Dcpp.FormatTime
import Dcpp.StringSearchMatch
import Dcpp.ToDOS
import Dcpp.Sudp
import Dcpp.ThrottleManager
import Dcpp.HttpConnection
import Dcpp.ListLoader
import Dcpp.ListContents
import Dcpp.FilterList
import Dcpp.PartialLists
import Dcpp.ListMerging
import Dcpp.NmdcInRange
import Dcpp.NmdcSearch
import Dcpp.ResultRoundTrip
import Dcpp.FinishedTotals
import Dcpp.TaggerNesting
import Dcpp.SdExRoundTrip
import Dcpp.SdExFunctions
import Dcpp.SdExCapture
import Dcpp.SdExPositions
import Dcpp.SFVReader
import Dcpp.SdExParserEnds
import Dcpp.BDCTextRanges
import Dcpp.StringSearchCore
import Dcpp.BufferedOutput
import Dcpp.HasherProgress
import Dcpp.ADLSearchListing
import Dcpp.FindSubStringUtf8
import Dcpp.ReaderSuffixes
import Dcpp.ReaderUncut
import Dcpp.WrittenDocuments
import Dcpp.HashLoader
import Dcpp.HashIndexRoundTrip
import Dcpp.HashReload
import Dcpp.FileListMarkup
import Dcpp.FileListEntries
import Dcpp.FileListRoundTrip
import Dcpp.PartOfShare
import Dcpp.ShareBrowsing
import Dcpp.QueueLoader
import Dcpp.QueueRoundTrip
import Dcpp.TigerTable
import Dcpp.TigerHash
import Dcpp.TigerCollisions
import Dcpp.HttpDownload
import Dcpp.SocketSending
import Dcpp.SocketDelivery
