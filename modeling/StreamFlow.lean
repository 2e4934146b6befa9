import StreamFlow.Broker.Poll
import StreamFlow.Broker.Restart
import StreamFlow.Broker.FetchRaw
import StreamFlow.Broker.SendFile
import StreamFlow.Broker.SharedHandle
import StreamFlow.Broker.Segment.Crash
import StreamFlow.Broker.IdempotentRuns
import StreamFlow.Broker.ProducerOrder
import StreamFlow.Broker.ProducerKeys
import StreamFlow.Broker.TxIds
import StreamFlow.Broker.CommitRuns
import StreamFlow.Broker.TransactionRuns
import StreamFlow.Broker.ReadCommitted
import StreamFlow.Broker.ConsumerGroup
import StreamFlow.Broker.TopicDirs
import StreamFlow.Broker.Tenants
import StreamFlow.Broker.SparseIndex
import StreamFlow.Broker.Drain
import StreamFlow.Broker.FailedProduce
import StreamFlow.Broker.Offsets
import StreamFlow.Broker.OffsetReaders
import StreamFlow.Management.Lag
import StreamFlow.Management.Transactions
import StreamFlow.Management.Acknowledged
import StreamFlow.Schema.Registry
import StreamFlow.Schema.Compatibility
import StreamFlow.Processor.Pipeline
import StreamFlow.Processor.Cep
import StreamFlow.Processor.Join
import StreamFlow.Processor.Sliding
import StreamFlow.Processor.Sessions
import StreamFlow.Processor.TimeWindow
import StreamFlow.Processor.CountWindow
import StreamFlow.Processor.WindowTotals
import StreamFlow.Connectors.Simple
import StreamFlow.Streamql.CountPath
import StreamFlow.Streamql.Rendering
import StreamFlow.Streamql.Where
import StreamFlow.Streamql.Windows
import StreamFlow.Streamql.Aggregates
import StreamFlow.Streamql.LetterCase
import StreamFlow.Planner.LostRecords
import StreamFlow.Raft.WalRefinement
import StreamFlow.Raft.Torn
import StreamFlow.Raft.TruncatedEntries
import StreamFlow.Raft.Headers
import StreamFlow.Raft.FrameLoop
import StreamFlow.Raft.Recovery
import StreamFlow.Raft.PersistBeforeSend
import StreamFlow.Raft.SnapshotHistory
import StreamFlow.Raft.Adapter
import StreamFlow.Raft.InProcDelivery
import StreamFlow.Sdk.Client
