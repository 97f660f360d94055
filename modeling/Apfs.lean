import Apfs.Block.Basic
import Apfs.Block.Cache
import Apfs.Block.Device
import Apfs.Block.Reader
import Apfs.Block.Stream
import Apfs.Bytes
import Apfs.Checked
import Apfs.Checksum.Adler32
import Apfs.Checksum.Crc32c
import Apfs.Checksum.Fletcher64
import Apfs.Compression.BitReader
import Apfs.Compression.Consumption
import Apfs.Compression.Decoded
import Apfs.Compression.File
import Apfs.Compression.InPlace.WordReader
import Apfs.Compression.InPlace.CodeTable
import Apfs.Compression.InPlace.Inflate
import Apfs.Compression.InPlace.Method
import Apfs.Compression.Inflate
import Apfs.Compression.Lzfse
import Apfs.Compression.Method
import Apfs.Compression.PrefixCode
import Apfs.Compression.ResourceFork
import Apfs.Compression.Zlib
import Apfs.Directory.Key
import Apfs.Directory.Layout
import Apfs.Directory.Lookup
import Apfs.Error
import Apfs.Identifier
import Apfs.Layout
import Apfs.Name.CodePoints
import Apfs.Name.Compare
import Apfs.Name.Fold
import Apfs.Name.Hash
import Apfs.Object.Header
import Apfs.Object.TypeWord
import Apfs.ObjectMap.Basic
import Apfs.ObjectMap.Layout
import Apfs.ObjectMap.Resolver
import Apfs.Proofs.Block.Steady
import Apfs.Proofs.Compression.BitStream
import Apfs.Proofs.Compression.WordReader
import Apfs.Proofs.Compression.SameReading
import Apfs.Proofs.Compression.CanonicalCode
import Apfs.Proofs.Compression.CodeTable
import Apfs.Proofs.Compression.TableDecoding
import Apfs.Proofs.Compression.DeflateFormat
import Apfs.Proofs.Compression.DynamicCodes
import Apfs.Proofs.Compression.Grammar
import Apfs.Proofs.ObjectMap.Resolver
import Apfs.Proofs.ObjectMap.Versions
import Apfs.Proofs.ObjectMap.WrittenMap
import Apfs.Proofs.Tree.Children
import Apfs.Proofs.Tree.Descent
import Apfs.Proofs.Tree.DepthLimit
import Apfs.Proofs.Tree.Floor
import Apfs.Proofs.Tree.Probes
import Apfs.Proofs.Tree.Scan
import Apfs.Proofs.Tree.Storage
import Apfs.Proofs.Tree.Indexing
import Apfs.Proofs.Tree.WrittenTree
import Apfs.Proofs.Tree.Walk
import Apfs.Record.Key
import Apfs.Settings
import Apfs.SpaceManager.ChunkInfo
import Apfs.Text.Hex
import Apfs.Text.Lowercase
import Apfs.Tree.Basic
import Apfs.Tree.CheckedNode
import Apfs.Tree.Layout
import Apfs.Tree.Node
import Apfs.Tree.NodeContents
import Apfs.Tree.Search
import Apfs.Volume.Lock
import Apfs.Proofs.Compression.CodedBlocks
import Apfs.Proofs.Compression.Streams
import Apfs.Proofs.Compression.Truncation
import Apfs.Proofs.Compression.SmallerOutput
import Apfs.Proofs.Compression.Trailer
import Apfs.Proofs.Compression.InPlaceSteps
import Apfs.Proofs.Compression.InPlaceBlocks
import Apfs.Proofs.Compression.InPlaceStreams
import Apfs.Proofs.Compression.CallerBuffer
import Apfs.Proofs.Name.Encodings
import Apfs.Proofs.Name.Order
import Apfs.Proofs.Directory.KeyOrder
import Apfs.Proofs.Directory.Lookup
import Apfs.Proofs.Directory.HashedKeys
import Apfs.Proofs.Block.Agreement
import Apfs.Proofs.Tree.Agreement
import Apfs.Proofs.Block.Cache
import Apfs.Proofs.Block.CacheOrder
import Apfs.Proofs.Block.CacheRuns
import Apfs.Proofs.Session.Basic
import Apfs.Proofs.Session.Agreement
import Apfs.Proofs.Session.Caches
import Apfs.Proofs.Session.Verification
import Apfs.Proofs.ObjectMap.Commits
import Apfs.Proofs.Bytes.Pieces
import Apfs.Proofs.Bytes.Folds
import Apfs.Proofs.Layout.Lossless
import Apfs.Proofs.Layout.Fields
import Apfs.Proofs.Layout.Structures
import Apfs.Proofs.Checksum.RunningSums
import Apfs.Proofs.Checksum.Fletcher64
import Apfs.Proofs.Checksum.Crc32c
import Apfs.Proofs.Checksum.Adler32
import Apfs.Proofs.Checksum.ClosedForm
import Apfs.Proofs.Object.Corruption
import Apfs.Proofs.Object.Sealing
import Apfs.Proofs.Tree.Writing
import Apfs.Proofs.Tree.WrittenNode
import Apfs.Proofs.Tree.Areas
import Apfs.Proofs.Checked
import Apfs.Proofs.Tree.CheckedReading
import Apfs.Proofs.Compression.ForkLayout
import Apfs.Proofs.Compression.ForkDecoding
import Apfs.Proofs.Name.Sequences
import Apfs.Proofs.Name.Reading
import Apfs.Proofs.Name.Iteration
import Apfs.Proofs.Name.LazyComparison
import Apfs.Proofs.Directory.ByteOrder
import Apfs.Proofs.Directory.QueryEncodings
import Apfs.Proofs.Directory.KeyEncoding
import Apfs.Proofs.Block.StreamReading
import Apfs.Proofs.SpaceManager.ChunkInfoBlocks
import Apfs.Proofs.Compression.MethodFrame
import Apfs.Proofs.Compression.LengthTokens
import Apfs.Proofs.Compression.DynamicHeads
