import TransferFabric.Core.Backend

/-!
The counters of the runtime. Each is an atomic of its own and wraps at its
width; the byte buckets are kept per key. The high-water marks that follow two
of the gauges and the clock readings are not part of this model.
-/

namespace TransferFabric

structure Telemetry where
  created : UInt64 := 0
  queued : UInt64 := 0
  active : UInt64 := 0
  completed : UInt64 := 0
  failed : UInt64 := 0
  cancelled : UInt64 := 0
  bytesRequested : UInt64 := 0
  bytesMoved : UInt64 := 0
  bytesVerified : UInt64 := 0
  bytesStaged : UInt64 := 0
  direct : UInt64 := 0
  staged : UInt64 := 0
  chunks : UInt64 := 0
  queueDepth : UInt64 := 0
  integrity : UInt64 := 0
  backend : UInt64 := 0
  transport : UInt64 := 0
  cancellationCount : UInt64 := 0
  stagingHits : UInt64 := 0
  stagingMisses : UInt64 := 0
  perRouteClass : RouteClass → UInt64 := fun _ => 0
  perBackend : List (String × UInt64) := []
  perRoute : List (String × UInt64) := []

inductive TelemetryOp where
  | transferCreated | transferQueued | transferStarted | transferDone
  | transferCompleted | transferFailed | transferCancelled
  | addBytesRequested (n : ByteCount) | addBytesMoved (n : ByteCount)
  | addBytesVerified (n : ByteCount) | addBytesStaged (n : ByteCount)
  | addDirectPathBytes (n : ByteCount) | addStagedPathBytes (n : ByteCount)
  | addChunks (n : UInt64)
  | queuePushed | queuePopped
  | stagingPoolHit (hit : Bool)
  | integrityFailure | backendFailure | transportFailure | cancellation
  | addRouteClassBytes (c : RouteClass) (n : ByteCount)
  | addBackendBytes (name : String) (n : ByteCount)
  | addRouteBytes (routeId : String) (n : ByteCount)
  deriving DecidableEq, Repr

/-- `bucket[key] += n`, where a missing key starts at zero. -/
def addTo (bucket : List (String × UInt64)) (key : String) (n : UInt64) : List (String × UInt64) :=
  match bucket with
  | [] => [(key, n)]
  | (k, v) :: rest => if k = key then (k, v + n) :: rest else (k, v) :: addTo rest key n

namespace Telemetry

def apply (t : Telemetry) : TelemetryOp → Telemetry
  | .transferCreated => { t with created := t.created + 1 }
  | .transferQueued => { t with queued := t.queued + 1 }
  | .transferStarted => { t with active := t.active + 1 }
  | .transferDone => { t with active := t.active - 1 }
  | .transferCompleted => { t with completed := t.completed + 1 }
  | .transferFailed => { t with failed := t.failed + 1 }
  | .transferCancelled => { t with cancelled := t.cancelled + 1 }
  | .addBytesRequested n => { t with bytesRequested := t.bytesRequested + n }
  | .addBytesMoved n => { t with bytesMoved := t.bytesMoved + n }
  | .addBytesVerified n => { t with bytesVerified := t.bytesVerified + n }
  | .addBytesStaged n => { t with bytesStaged := t.bytesStaged + n }
  | .addDirectPathBytes n => { t with direct := t.direct + n }
  | .addStagedPathBytes n => { t with staged := t.staged + n }
  | .addChunks n => { t with chunks := t.chunks + n }
  | .queuePushed => { t with queueDepth := t.queueDepth + 1 }
  | .queuePopped => { t with queueDepth := t.queueDepth - 1 }
  | .stagingPoolHit hit =>
      if hit then { t with stagingHits := t.stagingHits + 1 }
      else { t with stagingMisses := t.stagingMisses + 1 }
  | .integrityFailure => { t with integrity := t.integrity + 1 }
  | .backendFailure => { t with backend := t.backend + 1 }
  | .transportFailure => { t with transport := t.transport + 1 }
  | .cancellation => { t with cancellationCount := t.cancellationCount + 1 }
  | .addRouteClassBytes c n =>
      { t with perRouteClass := fun c' => if c' = c then t.perRouteClass c + n
        else t.perRouteClass c' }
  | .addBackendBytes name n => { t with perBackend := addTo t.perBackend name n }
  | .addRouteBytes routeId n => { t with perRoute := addTo t.perRoute routeId n }

end Telemetry

end TransferFabric
