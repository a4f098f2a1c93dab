import TraceStore.Main
import TraceStore.Recorder
import TraceStore.Proofs.Bytes
import TraceStore.Proofs.Disk.Reader
import TraceStore.Proofs.Delivery
import TraceStore.Proofs.Operations
import TraceStore.Proofs.Cursor
import TraceStore.Proofs.Embedding
import TraceStore.Proofs.Protocol
import TraceStore.Proofs.Chunk.Layout
import TraceStore.Proofs.Chunk.Reader
import TraceStore.Proofs.Chunk.Position
import TraceStore.Proofs.Chunk.Handle
import TraceStore.Proofs.Chunk.Grammar
import TraceStore.Proofs.Chunk.Resume
import TraceStore.Proofs.Chunk.Seek
import TraceStore.Proofs.Chunk.Failure
import TraceStore.Proofs.Chunk.Damage
import TraceStore.Proofs.Chunk.Cursor
import TraceStore.Proofs.Codec.Snappy
import TraceStore.Proofs.Codec.Zstd
import TraceStore.Proofs.Codec.Exact
import TraceStore.Proofs.Disk.Writer
import TraceStore.Proofs.Chunk.Writer
import TraceStore.Proofs.Chunk.Refusal
import TraceStore.Proofs.Chunk.Split
import TraceStore.Proofs.Chunk.Trail
import TraceStore.Proofs.Chunk.RoundTrip
import TraceStore.Proofs.Chunk.Follow
import TraceStore.Proofs.Stream.Backend
import TraceStore.Proofs.Stream.Cursor
import TraceStore.Proofs.Trace
import TraceStore.Proofs.Trace.Cursor
import TraceStore.Proofs.Deflate.Inflate
import TraceStore.Proofs.Deflate.Stored
import TraceStore.Proofs.Cli.InPlace
import TraceStore.Proofs.Gzip.Fetched
import TraceStore.Proofs.Deflate.Run
import TraceStore.Proofs.Gzip.Header
import TraceStore.Proofs.Gzip.AnyFile
import TraceStore.Proofs.Trace.Source
import TraceStore.Proofs.Trace.Session
import TraceStore.Proofs.Cli.Repack
import TraceStore.Proofs.Stream.Failure
import TraceStore.Proofs.Cli.Unfinished
import TraceStore.Proofs.Chunk.Marks
import TraceStore.Proofs.Lifecycle
import TraceStore.Proofs.Reopening
import TraceStore.Proofs.Cli.Info
import TraceStore.Proofs.Chunk.Order
import TraceStore.Proofs.Codec.Unlimited
import TraceStore.Proofs.Chunk.Limits
import TraceStore.Proofs.Progress
import TraceStore.Proofs.Footprint
import TraceStore.Proofs.Disk.Gathering
import TraceStore.Proofs.Disk.Places
import TraceStore.Proofs.Chunk.Course
import TraceStore.Proofs.Chunk.Ending
import TraceStore.Proofs.Chunk.Rounds
import TraceStore.Proofs.Chunk.Safety
import TraceStore.Proofs.Json.Grammar
import TraceStore.Proofs.Json.Parser
import TraceStore.Proofs.Json.Print
import TraceStore.Proofs.Json.Record
import TraceStore.Proofs.Persistence
