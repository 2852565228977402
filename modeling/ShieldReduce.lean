import ShieldReduce.ConstVar
import ShieldReduce.Lib.Bytes
import ShieldReduce.Lib.Loop
import ShieldReduce.Lib.CopyInsert
import ShieldReduce.Lib.BackCopy
import ShieldReduce.Lib.Words
import ShieldReduce.Lib.UMap
import ShieldReduce.Edelta.Htable
import ShieldReduce.Edelta.Units
import ShieldReduce.Edelta.Gear
import ShieldReduce.Edelta.Encode
import ShieldReduce.Edelta.RoundTrip
import ShieldReduce.Edelta.Locals
import ShieldReduce.Edelta.DecodeBuffer
import ShieldReduce.Edelta.EncodeBuffer
import ShieldReduce.Edelta.BaseLink
import ShieldReduce.Util.ContainerId
import ShieldReduce.Enclave.Keys
import ShieldReduce.Lib.Stream
import ShieldReduce.Comm.SslConnect
import ShieldReduce.Store.Types
import ShieldReduce.Store.Database
import ShieldReduce.Store.Persist
import ShieldReduce.Store.IndexFiles
import ShieldReduce.Lib.Tiling
import ShieldReduce.Lib.Catalog
import ShieldReduce.Store.Container
import ShieldReduce.Enclave.Env
import ShieldReduce.Enclave.FreqState
import ShieldReduce.System.State
import ShieldReduce.System.Upload
import ShieldReduce.System.Offline
import ShieldReduce.System.Restore
import ShieldReduce.Invariant.Placement
import ShieldReduce.Invariant.Deltas
import ShieldReduce.System.Run
import ShieldReduce.Invariant.Session
import ShieldReduce.Invariant.Batch
import ShieldReduce.Invariant.Ledger
import ShieldReduce.Invariant.Upload
import ShieldReduce.Guarantee.Interrupted
import ShieldReduce.Invariant.Restoring
import ShieldReduce.Guarantee.Reupload
import ShieldReduce.Guarantee.RoundTrip
import ShieldReduce.System.DataSender
import ShieldReduce.Guarantee.Framing
import ShieldReduce.Invariant.Rebase
import ShieldReduce.Invariant.Pairs
import ShieldReduce.Invariant.Compaction
import ShieldReduce.Invariant.Offline
import ShieldReduce.Invariant.Extends
import ShieldReduce.Lib.LruCache
import ShieldReduce.Util.ReadCache
import ShieldReduce.Guarantee.Capping
import ShieldReduce.Guarantee.InOrder
import ShieldReduce.Guarantee.RecipeFile
import ShieldReduce.Guarantee.Codec
import ShieldReduce.Guarantee.Readers
import ShieldReduce.System.Writers
import ShieldReduce.Guarantee.Layout
import ShieldReduce.System.Calls
import ShieldReduce.Guarantee.Dedup
import ShieldReduce.System.Encryptions
import ShieldReduce.System.Accounting
import ShieldReduce.Guarantee.IvReuse
import ShieldReduce.Guarantee.Replay
import ShieldReduce.Guarantee.Merging
import ShieldReduce.Guarantee.ColdChunks
import ShieldReduce.Lib.Steps
import ShieldReduce.System.DataWriter
import ShieldReduce.Guarantee.RefContainer
import ShieldReduce.System.Clients
import ShieldReduce.Invariant.Clients
import ShieldReduce.Invariant.Reserved
import ShieldReduce.Guarantee.ManyClients
import ShieldReduce.Lib.MinHeap
import ShieldReduce.Invariant.TopK
import ShieldReduce.Guarantee.TopK
import ShieldReduce.Guarantee.HeapRuns
import ShieldReduce.Guarantee.OfflineSizes
import ShieldReduce.Guarantee.SuperFeatures
import ShieldReduce.Guarantee.Chunking
import ShieldReduce.Guarantee.Sealing
import ShieldReduce.Guarantee.Accounting
import ShieldReduce.Guarantee.DeltaChains
import ShieldReduce.System.DeltaIndex
import ShieldReduce.Guarantee.DeltaLists
import ShieldReduce.Guarantee.InlineBases
import ShieldReduce.Guarantee.ContainerCache
import ShieldReduce.System.MessageQueue
import ShieldReduce.Guarantee.Draining
import ShieldReduce.Edelta.EncodeRun
import ShieldReduce.Guarantee.Matching
import ShieldReduce.Lz4.Format
import ShieldReduce.Lz4.Decompress
import ShieldReduce.Lz4.Copies
import ShieldReduce.Lz4.Decode
import ShieldReduce.Lz4.DecodeRun
import ShieldReduce.Lz4.Compress
import ShieldReduce.Lz4.Encode
import ShieldReduce.Lz4.CompressRun
import ShieldReduce.Lz4.RoundTrip
import ShieldReduce.Guarantee.Compression
import ShieldReduce.System.Protocol
import ShieldReduce.Invariant.Protocol
import ShieldReduce.Invariant.Dialogue
import ShieldReduce.Invariant.Progress
import ShieldReduce.Guarantee.Sessions
