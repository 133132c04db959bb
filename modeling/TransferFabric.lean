import TransferFabric.Foundation.Interaction
import TransferFabric.Foundation.Trace
import TransferFabric.Foundation.Store
import TransferFabric.Foundation.Framing
import TransferFabric.Foundation.Spans
import TransferFabric.Foundation.Transition
import TransferFabric.Core.Types
import TransferFabric.Core.Memory
import TransferFabric.Core.Chunking
import TransferFabric.Core.ChunkGeometry
import TransferFabric.Core.Integrity
import TransferFabric.Core.Endpoint
import TransferFabric.Core.Backend
import TransferFabric.Core.Status
import TransferFabric.Runtime.Staging
import TransferFabric.Runtime.StagingHistory
import TransferFabric.Runtime.Executor
import TransferFabric.Runtime.ExecutorTrace
import TransferFabric.Runtime.Hashing
import TransferFabric.Runtime.ExecutorFailure
import TransferFabric.Runtime.Layout
import TransferFabric.Runtime.ExecutorStaging
import TransferFabric.Runtime.HashReads
import TransferFabric.Runtime.Verification
import TransferFabric.Runtime.CopyMemory
import TransferFabric.Runtime.ExecutorCalls
import TransferFabric.Runtime.ExecutorCopy
import TransferFabric.Runtime.DeclaredRegion
import TransferFabric.Backends.File
import TransferFabric.Runtime.SharedHandle
import TransferFabric.Transports.Frame
import TransferFabric.Transports.Tcp
import TransferFabric.Transports.TcpClient
import TransferFabric.Transports.TcpSession
import TransferFabric.Foundation.Threads
import TransferFabric.Core.Planner
import TransferFabric.Runtime.Registry
import TransferFabric.Runtime.Scheduler
import TransferFabric.Runtime.Telemetry
import TransferFabric.Runtime.World
import TransferFabric.Runtime.Operations
import TransferFabric.Runtime.View
import TransferFabric.Runtime.ExecutorOutcome
import TransferFabric.Runtime.StagingSpecs
import TransferFabric.Runtime.CallSpecs
import TransferFabric.Runtime.WorkSpecs
import TransferFabric.Runtime.RecordEdits
import TransferFabric.Runtime.WorldSteps
import TransferFabric.Runtime.Coupling
import TransferFabric.Runtime.Ledger
import TransferFabric.Runtime.Discipline
import TransferFabric.Runtime.Moves
import TransferFabric.Runtime.Lifecycle
import TransferFabric.Runtime.Submission
import TransferFabric.Runtime.Accounting
import TransferFabric.Runtime.Custody
import TransferFabric.Runtime.StagingOwnership
import TransferFabric.Foundation.Refinement
import TransferFabric.Foundation.Bands
import TransferFabric.Runtime.Handles
import TransferFabric.Runtime.Queueing
import TransferFabric.Runtime.WorkerLoop
import TransferFabric.Foundation.Scripts
import TransferFabric.Runtime.Marks
import TransferFabric.Runtime.Flow
import TransferFabric.Runtime.Gauges
import TransferFabric.Runtime.Audit
import TransferFabric.Runtime.Bytes
import TransferFabric.Runtime.Observation
import TransferFabric.Runtime.Repertoire
import TransferFabric.Runtime.Shutdown
import TransferFabric.Foundation.Paths
import TransferFabric.Planner.DefaultRoutePlanner
import TransferFabric.Planner.Search
import TransferFabric.Planner.Courses
import TransferFabric.Planner.Ranking
import TransferFabric.Planner.Authority
import TransferFabric.Planner.Executability
import TransferFabric.Runtime.Reservation
import TransferFabric.Runtime.ReservationUndo
import TransferFabric.Planner.StagingCover
import TransferFabric.Planner.Preview
import TransferFabric.Runtime.Admission
import TransferFabric.Transports.TcpDiscipline
import TransferFabric.Transports.TcpLink
import TransferFabric.Foundation.Listening
import TransferFabric.Transports.TcpSegments
import TransferFabric.Runtime.Progress
import TransferFabric.Runtime.ReportedProgress
import TransferFabric.Transports.FrameStream
import TransferFabric.Core.Sha256Digest
import TransferFabric.Core.Crc32cDivision
import TransferFabric.Runtime.RegionDigests
import TransferFabric.Core.TransferId
import TransferFabric.Core.ByteRange
import TransferFabric.Runtime.Batches
import TransferFabric.Planner.RouteIds
import TransferFabric.Runtime.HighWater
import TransferFabric.Backends.FileCopy
import TransferFabric.Runtime.TelemetryJson
import TransferFabric.Foundation.Descent
import TransferFabric.Foundation.Monitor
import TransferFabric.Runtime.Settling
import TransferFabric.Runtime.Waking
import TransferFabric.Runtime.Outcomes
import TransferFabric.Runtime.Stopping
