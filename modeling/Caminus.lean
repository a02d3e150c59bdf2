import Caminus.Common.Json
import Caminus.Common.Serde
import Caminus.Common.JsonText
import Caminus.Common.Bytes
import Caminus.Common.SipHash
import Caminus.Common.HashMap
import Caminus.Common.Fallible
import Caminus.Common.Mealy
import Caminus.Common.Unwinding
import Caminus.Common.RateBound
import Caminus.Common.Interleave
import Caminus.Common.Replay
import Caminus.Common.LastWrite
import Caminus.Common.Split
import Caminus.Common.Crash
import Caminus.Common.Resumption
import Caminus.Common.Capped
import Caminus.Common.Crew
import Caminus.Common.Takeover
import Caminus.Common.GreedyRate
import Caminus.Common.Linearize
import Caminus.Common.FirstUse
import Caminus.Common.Relaxed
import Caminus.Source.Event
import Caminus.Source.EventText
import Caminus.Source.Streams
import Caminus.Source.Retry
import Caminus.Buffer.TransactionBuffer
import Caminus.Buffer.Transactional
import Caminus.Buffer.Committed
import Caminus.Buffer.Pruning
import Caminus.Storage.StateStore
import Caminus.Storage.TwoMaps
import Caminus.Storage.Schema
import Caminus.Storage.Compatibility
import Caminus.Storage.History
import Caminus.Storage.Usable
import Caminus.Storage.Races
import Caminus.Storage.Confluent
import Caminus.Serialize.Avro
import Caminus.Serialize.EventStream
import Caminus.Transform.Wasm
import Caminus.Transform.Registry
import Caminus.Transform.HotReload
import Caminus.Transform.Passthrough
import Caminus.Security.Payload
import Caminus.Security.Encryption
import Caminus.Security.Redaction
import Caminus.Security.Masking
import Caminus.Security.Rotation
import Caminus.Snapshot.Watermark
import Caminus.Snapshot.Window
import Caminus.Snapshot.Convergence
import Caminus.Snapshot.Interference
import Caminus.Snapshot.WindowEnd
import Caminus.Snapshot.Parallel
import Caminus.Snapshot.Chunking
import Caminus.Snapshot.Workers
import Caminus.Snapshot.Backfill
import Caminus.Snapshot.Recovery
import Caminus.Snapshot.Rounds
import Caminus.Resiliency.Dedup
import Caminus.Resiliency.FifoWindow
import Caminus.Resiliency.RateLimiter
import Caminus.Resiliency.Acquire
import Caminus.Resiliency.Admission
import Caminus.Resiliency.Contention
import Caminus.Resiliency.TenantLocks
import Caminus.Resiliency.Metrics
import Caminus.Consensus.Coordinator
import Caminus.Consensus.Election
import Caminus.Consensus.Failover
import Caminus.Sync.Coordinator
import Caminus.Sync.Forwarding
import Caminus.Router.Partition
import Caminus.Router.Tenants
import Caminus.Pipeline.Ingest
import Caminus.Pipeline.Markers
import Caminus.Pipeline.Delivery
import Caminus.Pipeline.Resume
import Caminus.Pipeline.Restart
import Caminus.Pipeline.Checkpoint
import Caminus.Pipeline.Positions
import Caminus.Pipeline.Standby
import Caminus.Pipeline.Accounting
import Caminus.Pipeline.MainModule
import Caminus.Pipeline.Engine
import Caminus.Pipeline.EngineProgress
import Caminus.Pipeline.EngineRestart
import Caminus.Pipeline.Paced
import Caminus.Pipeline.Backpressure
import Caminus.Cli.Handler
