import DeepFinder.Lib.Bytes
import DeepFinder.Lib.Bits
import DeepFinder.Lib.Leb128
import DeepFinder.Lib.Run
import DeepFinder.Lib.OrderedMap
import DeepFinder.Lib.Chunks
import DeepFinder.Lib.RobinHood
import DeepFinder.Lib.OperatorGrammar
import DeepFinder.Lib.AssocMap
import DeepFinder.Core.Basic
import DeepFinder.Core.StrSlice
import DeepFinder.Content.Wal
import DeepFinder.Content.Bincode
import DeepFinder.Index.OverlayStore
import DeepFinder.Core.Trigram
import DeepFinder.Core.TurboPFor
import DeepFinder.Core.HashTable
import DeepFinder.Core.Lowercase
import DeepFinder.Core.Utf8
import DeepFinder.Core.Records
import DeepFinder.Core.Db
import DeepFinder.Core.DbRoundTrip
import DeepFinder.Core.Query
import DeepFinder.Core.Accepts
import DeepFinder.Core.Candidate
import DeepFinder.Core.Varint
import DeepFinder.Content.Fold
import DeepFinder.Content.Shard
import DeepFinder.Content.ShardRoundTrip
import DeepFinder.Content.Overlay
import DeepFinder.Content.OverlayVersion
import DeepFinder.Content.OverlayMap
import DeepFinder.Content.Lines
import DeepFinder.Core.Scope
import DeepFinder.Core.BoolQuery
import DeepFinder.Ipc.Proto
import DeepFinder.Ipc.Filter
import DeepFinder.Ipc.Bfs
import DeepFinder.Ipc.SizeArg
import DeepFinder.Daemon.Shards
import DeepFinder.Daemon.Query
import DeepFinder.Daemon.Transparency
import DeepFinder.Daemon.Search
import DeepFinder.Daemon.Layers
import DeepFinder.Ipc.Wire
import DeepFinder.Index.Registry
import DeepFinder.Daemon.Answers
import DeepFinder.Daemon.RegexMode
import DeepFinder.Daemon.Verbatim
import DeepFinder.Daemon.LineMode
import DeepFinder.Daemon.ModeAgreement
import DeepFinder.Daemon.ContentTransparency
import DeepFinder.Daemon.HeldDocs
import DeepFinder.Daemon.LimitCuts
import DeepFinder.Daemon.LimitPaths
import DeepFinder.Daemon.Protocol
import DeepFinder.Daemon.Reproducible
import DeepFinder.Daemon.Limits
import DeepFinder.Lib.FileTree
import DeepFinder.Lib.UnixPath
import DeepFinder.Core.Subtree
import DeepFinder.Index.Walk
import DeepFinder.Cli.DirectScan
import DeepFinder.Daemon.Watch
import DeepFinder.Daemon.BuildMarker
import DeepFinder.Index.Atomicity
import DeepFinder.Index.Publish
import DeepFinder.Daemon.Server
import DeepFinder.Daemon.Handles
import DeepFinder.Daemon.Reload
import DeepFinder.Daemon.Reads
import DeepFinder.Daemon.Compaction
import DeepFinder.Daemon.Effects
import DeepFinder.Daemon.Healing
import DeepFinder.Core.CodecChecks
import DeepFinder.Content.TableReaders
import DeepFinder.Core.Returns
import DeepFinder.Core.DbCorrupt
import DeepFinder.Content.ShardCorrupt
import DeepFinder.Content.TableWalks
import DeepFinder.Core.CaseSensitive
import DeepFinder.Index.Streaming
import DeepFinder.Index.ShardSizes
import DeepFinder.Daemon.FrameLimit
import DeepFinder.Lib.Glob
import DeepFinder.Ipc.Glob
import DeepFinder.Content.WalCut
import DeepFinder.Daemon.CompactionTrigger
import DeepFinder.Core.Grammar
import DeepFinder.Lib.Lines
import DeepFinder.Lib.Keyed
import DeepFinder.Content.ContextBlock
import DeepFinder.Content.Matches
import DeepFinder.Daemon.LineHits
import DeepFinder.Daemon.RegexDocids
import DeepFinder.Daemon.Basename
import DeepFinder.Lib.Gapped
import DeepFinder.Ipc.Regex
import DeepFinder.Ipc.RegexPlaces
import DeepFinder.Ipc.RegexAtom
import DeepFinder.Ipc.ExprGrammar
import DeepFinder.Cli.Highlight
import DeepFinder.Cli.Fallback
import DeepFinder.Lib.LastMatch
import DeepFinder.Index.Ignore
import DeepFinder.Lib.Document
import DeepFinder.Lib.QuotedText
import DeepFinder.Index.ConfigEdits
import DeepFinder.Lib.WhileLoop
import DeepFinder.Ipc.GlobLoop
import DeepFinder.Lib.Interleaving
import DeepFinder.Core.BlockCache
import DeepFinder.Lib.Codec
import DeepFinder.Lib.Framed
import DeepFinder.Ipc.StandardWire
import DeepFinder.Ipc.LengthDelimited
import DeepFinder.Ipc.Transport
import DeepFinder.Cli.Session
import DeepFinder.Lib.Channel
import DeepFinder.Index.Pipeline
import DeepFinder.Lib.Replace
import DeepFinder.Index.HotSwap
import DeepFinder.Lib.FileLock
import DeepFinder.Daemon.Singleton
import DeepFinder.Daemon.Terminal
import DeepFinder.Index.FilenameBuild
import DeepFinder.Content.Lossy
import DeepFinder.Cli.Rows
import DeepFinder.Daemon.Scan
import DeepFinder.Daemon.OverlayHandle
import DeepFinder.Daemon.WatchLoop
import DeepFinder.Daemon.WatchedSearch
import DeepFinder.Index.FileSource
