import TransferFabric.Core.TransferId
import TransferFabric.Foundation.Json
import TransferFabric.Planner.DefaultRoutePlanner

/-!
`TelemetrySnapshot::to_json`, and what a JSON reader finds in its text.

The byte buckets are the part of the class that its mutex protects, with the five
calls that fill them. The counters are atomics of their own, each read while
others move on, so nothing is assumed of their values in a snapshot. A map is the
list of its entries in the order an iteration meets them, which may be any.

The keys of the maps are strings of bytes without a zero byte; they need not be
UTF-8, but if they are then so is the text. How a double is printed is a
parameter: the two in a snapshot are assumed to come out as JSON numbers, as
finite ones do. An enumeration has its enumerators and no other values.
-/

namespace TransferFabric

open Json

/-! The buckets. -/

def MemoryDomain.all : List MemoryDomain :=
  [.unknown, .hostPageable, .hostPinned, .device, .shared, .storage, .remote, .mmap]

/-- `static_cast<std::size_t>(d)`. -/
def MemoryDomain.index : MemoryDomain → Nat
  | .unknown => 0
  | .hostPageable => 1
  | .hostPinned => 2
  | .device => 3
  | .shared => 4
  | .storage => 5
  | .remote => 6
  | .mmap => 7

def RouteClass.all : List RouteClass := [.unknown, .direct, .staged, .remote]

def RouteClass.index : RouteClass → Nat
  | .unknown => 0
  | .direct => 1
  | .staged => 2
  | .remote => 3

def RouteClass.toString : RouteClass → String
  | .direct => "direct"
  | .staged => "staged"
  | .remote => "remote"
  | .unknown => "unknown"

structure TelemetryBuckets where
  perDomain : Fin 16 → UInt64 := fun _ => 0
  perDevice : Fin 16 → UInt64 := fun _ => 0
  perRouteClass : Fin 8 → UInt64 := fun _ => 0
  perBackend : List (List Byte × UInt64) := []
  perRoute : List (List Byte × UInt64) := []

inductive BucketOp where
  | addDomainBytes (d : MemoryDomain) (n : ByteCount)
  | addDeviceBytes (d : DeviceId) (n : ByteCount)
  | addRouteClassBytes (c : RouteClass) (n : ByteCount)
  | addBackendBytes (name : List Byte) (n : ByteCount)
  | addRouteBytes (routeId : List Byte) (n : ByteCount)
  deriving DecidableEq, Repr

/-- An index beyond the array is ignored. -/
def addAt {size : Nat} (bucket : Fin size → UInt64) (idx : Nat) (n : UInt64) : Fin size → UInt64 :=
  if h : idx < size then Function.update bucket ⟨idx, h⟩ (bucket ⟨idx, h⟩ + n) else bucket

/-- `bucket[key] += n`, where a missing key starts at zero. -/
def addKey (bucket : List (List Byte × UInt64)) (key : List Byte) (n : UInt64) :
    List (List Byte × UInt64) :=
  match bucket with
  | [] => [(key, n)]
  | (k, v) :: rest => if k = key then (k, v + n) :: rest else (k, v) :: addKey rest key n

namespace TelemetryBuckets

def apply (b : TelemetryBuckets) : BucketOp → TelemetryBuckets
  | .addDomainBytes d n => { b with perDomain := addAt b.perDomain d.index n }
  | .addDeviceBytes d n => { b with perDevice := addAt b.perDevice d.toNat n }
  | .addRouteClassBytes c n => { b with perRouteClass := addAt b.perRouteClass c.index n }
  | .addBackendBytes name n => { b with perBackend := addKey b.perBackend name n }
  | .addRouteBytes routeId n => { b with perRoute := addKey b.perRoute routeId n }

def run (ops : List BucketOp) : TelemetryBuckets := ops.foldl apply {}

/-- Buckets behind the last enumerator stay empty, and no map has a key twice. -/
structure Sound (b : TelemetryBuckets) : Prop where
  domains : ∀ i, MemoryDomain.all.length ≤ i.val → b.perDomain i = 0
  classes : ∀ i, RouteClass.all.length ≤ i.val → b.perRouteClass i = 0
  backends : (b.perBackend.map Prod.fst).Nodup
  routes : (b.perRoute.map Prod.fst).Nodup

end TelemetryBuckets

theorem addAt_zero {size limit idx : Nat} {bucket : Fin size → UInt64} (hidx : idx < limit)
    (h : ∀ i, limit ≤ i.val → bucket i = 0) (n : UInt64) (i : Fin size) (hi : limit ≤ i.val) :
    addAt bucket idx n i = 0 := by
  unfold addAt
  split_ifs with hsize
  · have hne : i ≠ ⟨idx, hsize⟩ := by
      rintro rfl
      exact absurd hi (Nat.not_le.mpr hidx)
    rw [Function.update_of_ne hne]
    exact h i hi
  · exact h i hi

theorem addKey_keys (bucket : List (List Byte × UInt64)) (key : List Byte) (n : UInt64) :
    (addKey bucket key n).map Prod.fst =
      if key ∈ bucket.map Prod.fst then bucket.map Prod.fst else bucket.map Prod.fst ++ [key] := by
  induction bucket with
  | nil => rfl
  | cons e rest ih =>
      obtain ⟨k, v⟩ := e
      rw [addKey]
      by_cases hk : k = key
      · simp [hk]
      · simp only [if_neg hk, List.map_cons, ih, List.mem_cons, Ne.symm hk, false_or]
        split_ifs <;> rfl

theorem addKey_nodup {bucket : List (List Byte × UInt64)} (h : (bucket.map Prod.fst).Nodup)
    (key : List Byte) (n : UInt64) : ((addKey bucket key n).map Prod.fst).Nodup := by
  rw [addKey_keys]
  split_ifs with hkey
  · exact h
  · exact List.nodup_append.mpr ⟨h, List.nodup_singleton _, fun a ha b hb heq => by
      rw [List.mem_singleton] at hb
      exact hkey (hb ▸ heq ▸ ha)⟩

namespace TelemetryBuckets

theorem sound_start : Sound {} :=
  ⟨fun _ _ => rfl, fun _ _ => rfl, List.nodup_nil, List.nodup_nil⟩

theorem Sound.apply {b : TelemetryBuckets} (h : b.Sound) (op : BucketOp) : (b.apply op).Sound := by
  cases op with
  | addDomainBytes d n =>
      exact { h with domains := addAt_zero (by cases d <;> decide) h.domains n }
  | addDeviceBytes d n => exact { h with }
  | addRouteClassBytes c n =>
      exact { h with classes := addAt_zero (by cases c <;> decide) h.classes n }
  | addBackendBytes name n => exact { h with backends := addKey_nodup h.backends name n }
  | addRouteBytes routeId n => exact { h with routes := addKey_nodup h.routes routeId n }

theorem sound_run (ops : List BucketOp) : (run ops).Sound := by
  suffices hfrom : ∀ b : TelemetryBuckets, b.Sound → (ops.foldl TelemetryBuckets.apply b).Sound from
    hfrom {} sound_start
  induction ops with
  | nil => exact fun _ hb => hb
  | cons op ops ih => exact fun b hb => ih _ (hb.apply op)

end TelemetryBuckets

/-! The snapshot. -/

/-- The type of doubles is a parameter. -/
structure TelemetrySnapshot (D : Type) where
  transfersCreated : UInt64 := 0
  transfersPlanned : UInt64 := 0
  transfersQueued : UInt64 := 0
  transfersActive : UInt64 := 0
  transfersCompleted : UInt64 := 0
  transfersFailed : UInt64 := 0
  transfersCancelled : UInt64 := 0
  transfersRetried : UInt64 := 0
  bytesRequested : UInt64 := 0
  bytesMoved : UInt64 := 0
  bytesVerified : UInt64 := 0
  bytesStaged : UInt64 := 0
  directPathBytes : UInt64 := 0
  stagedPathBytes : UInt64 := 0
  chunkCount : UInt64 := 0
  batchCount : UInt64 := 0
  queueDepth : UInt64 := 0
  queueHighWater : UInt64 := 0
  activeByteHighWater : UInt64 := 0
  stagingUsage : UInt64 := 0
  stagingHighWater : UInt64 := 0
  stagingPoolHitRate : D
  plannerRouteSelections : UInt64 := 0
  plannerFallbacks : UInt64 := 0
  integrityFailures : UInt64 := 0
  backendFailures : UInt64 := 0
  transportFailures : UInt64 := 0
  retryCount : UInt64 := 0
  cancellationCount : UInt64 := 0
  plannerTimeNs : UInt64 := 0
  queueWaitTimeNs : UInt64 := 0
  executionTimeNs : UInt64 := 0
  verificationTimeNs : UInt64 := 0
  throughputBytesPerSec : D
  perDomainBytes : Fin 16 → UInt64 := fun _ => 0
  perDeviceBytes : Fin 16 → UInt64 := fun _ => 0
  perRouteClassBytes : Fin 8 → UInt64 := fun _ => 0
  perBackendBytes : List (List Byte × UInt64) := []
  perRouteBytes : List (List Byte × UInt64) := []

/-- What `os <<` is given. -/
inductive Scalar (D : Type) where
  | integer (v : UInt64)
  | double (x : D)

/-- A string literal of the source. -/
def ascii (s : String) : List Byte := s.toList.map Char.toUInt8

section Text

variable {D : Type}

def Scalar.print (print : D → List Byte) : Scalar D → List Byte
  | .integer v => decimal v.toNat
  | .double x => print x

/-- One turn of the switch of `append_json_string`. -/
def escape (c : Byte) : List Byte :=
  if c = '"'.toUInt8 then ['\\'.toUInt8, '"'.toUInt8]
  else if c = '\\'.toUInt8 then ['\\'.toUInt8, '\\'.toUInt8]
  else if c = '\n'.toUInt8 then ['\\'.toUInt8, 'n'.toUInt8]
  else if c = '\r'.toUInt8 then ['\\'.toUInt8, 'r'.toUInt8]
  else if c = '\t'.toUInt8 then ['\\'.toUInt8, 't'.toUInt8]
  else if c < 0x20 then
    '\\'.toUInt8 :: 'u'.toUInt8 :: (Words.fixed 16 4 c.toNat).map TransferId.hexDigit
  else [c]

/-- The loop stops at the zero byte that ends a C string. -/
def appendJsonString (out s : List Byte) : List Byte :=
  (s.takeWhile (· ≠ 0)).foldl (fun out c => out ++ escape c) (out ++ ['"'.toUInt8]) ++
    ['"'.toUInt8]

/-- The stream and the flag `first`. -/
abbrev TextStream := List Byte × Bool

def appendKey (os : TextStream) (key : List Byte) : TextStream :=
  ((if os.2 then os.1 else os.1 ++ [','.toUInt8]) ++
    '"'.toUInt8 :: key ++ ['"'.toUInt8, ':'.toUInt8], false)

def TextStream.put (os : TextStream) (text : List Byte) : TextStream := (os.1 ++ text, os.2)

/-- The loop over an array of buckets. -/
def bucketLoop {size : Nat} (name : Fin size → List Byte) (bucket : Fin size → UInt64)
    (os : List Byte) : List Byte :=
  ((List.finRange size).foldl (fun os i =>
    if bucket i = 0 then os else (appendKey os (name i)).put (decimal (bucket i).toNat))
    (os, true)).1

/-- The loop over a map. -/
def mapLoop (entries : List (List Byte × UInt64)) (os : List Byte) : List Byte :=
  (entries.foldl (fun (os : TextStream) e =>
    let out := if os.2 then os.1 else os.1 ++ [','.toUInt8]
    let es := appendJsonString [] e.1
    (out ++ es ++ ':'.toUInt8 :: decimal e.2.toNat, false)) (os, true)).1

/-- `to_string(static_cast<MemoryDomain>(i))`. -/
def domainName (i : Fin 16) : List Byte :=
  ascii ((MemoryDomain.all[i.val]?.map MemoryDomain.toString).getD "unknown")

def routeClassName (i : Fin 8) : List Byte :=
  ascii ((RouteClass.all[i.val]?.map RouteClass.toString).getD "unknown")

namespace TelemetrySnapshot

/-- The names and values `TF_KV` is applied to, in order. -/
def scalars (s : TelemetrySnapshot D) : List (String × Scalar D) :=
  [("transfers_created", .integer s.transfersCreated),
   ("transfers_planned", .integer s.transfersPlanned),
   ("transfers_queued", .integer s.transfersQueued),
   ("transfers_active", .integer s.transfersActive),
   ("transfers_completed", .integer s.transfersCompleted),
   ("transfers_failed", .integer s.transfersFailed),
   ("transfers_cancelled", .integer s.transfersCancelled),
   ("transfers_retried", .integer s.transfersRetried),
   ("bytes_requested", .integer s.bytesRequested),
   ("bytes_moved", .integer s.bytesMoved),
   ("bytes_verified", .integer s.bytesVerified),
   ("bytes_staged", .integer s.bytesStaged),
   ("direct_path_bytes", .integer s.directPathBytes),
   ("staged_path_bytes", .integer s.stagedPathBytes),
   ("chunk_count", .integer s.chunkCount),
   ("batch_count", .integer s.batchCount),
   ("queue_depth", .integer s.queueDepth),
   ("queue_high_water", .integer s.queueHighWater),
   ("active_byte_high_water", .integer s.activeByteHighWater),
   ("staging_usage", .integer s.stagingUsage),
   ("staging_high_water", .integer s.stagingHighWater),
   ("staging_pool_hit_rate", .double s.stagingPoolHitRate),
   ("planner_route_selections", .integer s.plannerRouteSelections),
   ("planner_fallbacks", .integer s.plannerFallbacks),
   ("integrity_failures", .integer s.integrityFailures),
   ("backend_failures", .integer s.backendFailures),
   ("transport_failures", .integer s.transportFailures),
   ("retry_count", .integer s.retryCount),
   ("cancellation_count", .integer s.cancellationCount),
   ("planner_time_ns", .integer s.plannerTimeNs),
   ("queue_wait_time_ns", .integer s.queueWaitTimeNs),
   ("execution_time_ns", .integer s.executionTimeNs),
   ("verification_time_ns", .integer s.verificationTimeNs),
   ("throughput_bytes_per_sec", .double s.throughputBytesPerSec)]

def toJson (print : D → List Byte) (s : TelemetrySnapshot D) : List Byte :=
  let os := ascii "\x7b"
  let os := (s.scalars.foldl (fun os f => (appendKey os (ascii f.1)).put (f.2.print print))
    (os, true)).1
  let os := os ++ ascii ",\"per_domain_bytes\":\x7b"
  let os := bucketLoop domainName s.perDomainBytes os
  let os := os ++ ascii "\x7d"
  let os := os ++ ascii ",\"per_device_bytes\":\x7b"
  let os := bucketLoop (fun i => decimal i.val) s.perDeviceBytes os
  let os := os ++ ascii "\x7d"
  let os := os ++ ascii ",\"per_route_class_bytes\":\x7b"
  let os := bucketLoop routeClassName s.perRouteClassBytes os
  let os := os ++ ascii "\x7d"
  let os := os ++ ascii ",\"per_backend_bytes\":\x7b"
  let os := mapLoop s.perBackendBytes os
  let os := os ++ ascii "\x7d"
  let os := os ++ ascii ",\"per_route_bytes\":\x7b"
  let os := mapLoop s.perRouteBytes os
  let os := os ++ ascii "\x7d"
  os ++ ascii "\x7d"

/-- The buckets of the snapshot are those left by the calls, the maps in any order. -/
structure TakenAfter (s : TelemetrySnapshot D) (ops : List BucketOp) : Prop where
  domains : s.perDomainBytes = (TelemetryBuckets.run ops).perDomain
  devices : s.perDeviceBytes = (TelemetryBuckets.run ops).perDevice
  classes : s.perRouteClassBytes = (TelemetryBuckets.run ops).perRouteClass
  backends : s.perBackendBytes.Perm (TelemetryBuckets.run ops).perBackend
  routes : s.perRouteBytes.Perm (TelemetryBuckets.run ops).perRoute

end TelemetrySnapshot

/-! The text is that of an object. -/

/-- A comma unless the text is the first, then the text. -/
def TextStream.join (os : TextStream) (text : List Byte) : TextStream :=
  ((if os.2 then os.1 else os.1 ++ [comma]) ++ text, false)

theorem join_foldl (texts : List (List Byte)) (os : List Byte) :
    (texts.foldl TextStream.join (os, true)).1 = os ++ [comma].intercalate texts := by
  suffices hrest : ∀ (texts : List (List Byte)) (text os : List Byte),
      (texts.foldl TextStream.join (os ++ text, false)).1 =
        os ++ [comma].intercalate (text :: texts) by
    cases texts with
    | nil => exact (List.append_nil os).symm
    | cons text texts => exact hrest texts text os
  intro texts
  induction texts with
  | nil => exact fun text os => by rw [List.intercalate_singleton]; rfl
  | cons next texts ih =>
      intro text os
      rw [List.foldl_cons, List.intercalate_cons_cons, ← List.append_assoc os, ← ih,
        ← List.append_assoc os]
      rfl

/-- A member whose name needs no escape. -/
def keyed (name text : List Byte) : List Byte := quote :: (name ++ quote :: colon :: text)

theorem appendKey_put (os : TextStream) (name text : List Byte) :
    (appendKey os name).put text = os.join (keyed name text) := by
  refine Prod.ext ?_ rfl
  show (if os.2 then os.1 else os.1 ++ [comma]) ++ quote :: name ++ [quote, colon] ++ text =
    (if os.2 then os.1 else os.1 ++ [comma]) ++ keyed name text
  simp [keyed]

theorem appendJsonString_eq (out s : List Byte) : appendJsonString out s =
    out ++ quote :: ((s.takeWhile (· ≠ 0)).flatMap escape ++ [quote]) := by
  rw [appendJsonString, List.foldl_append_eq_append, List.flatMap_def]
  show out ++ [quote] ++ _ ++ [quote] = _
  simp

def objectText (texts : List (List Byte)) : List Byte :=
  openBrace :: ([comma].intercalate texts ++ [closeBrace])

/-- The members of an object of buckets. -/
def bucketTexts {size : Nat} (name : Fin size → List Byte) (bucket : Fin size → UInt64) :
    List (List Byte) :=
  ((List.finRange size).filter (bucket · ≠ 0)).map fun i =>
    keyed (name i) (decimal (bucket i).toNat)

theorem bucketLoop_eq {size : Nat} (name : Fin size → List Byte) (bucket : Fin size → UInt64)
    (os : List Byte) :
    bucketLoop name bucket os = os ++ [comma].intercalate (bucketTexts name bucket) := by
  rw [← join_foldl, bucketTexts, List.foldl_map, List.foldl_filter, bucketLoop]
  congr 2
  funext os i
  by_cases hi : bucket i = 0
  · simp [hi]
  · simp [hi, appendKey_put]

def mapTexts (entries : List (List Byte × UInt64)) : List (List Byte) :=
  entries.map fun e => keyed ((e.1.takeWhile (· ≠ 0)).flatMap escape) (decimal e.2.toNat)

theorem mapLoop_eq (entries : List (List Byte × UInt64)) (os : List Byte) :
    mapLoop entries os = os ++ [comma].intercalate (mapTexts entries) := by
  rw [← join_foldl, mapTexts, List.foldl_map, mapLoop]
  congr 2
  funext os e
  refine Prod.ext ?_ rfl
  show (if os.2 then os.1 else os.1 ++ [comma]) ++ appendJsonString [] e.1 ++
    colon :: decimal e.2.toNat = _
  simp [appendJsonString_eq, TextStream.join, keyed]

theorem intercalate_concat {texts : List (List Byte)} (h : texts ≠ []) (text : List Byte) :
    [comma].intercalate (texts ++ [text]) = [comma].intercalate texts ++ comma :: text := by
  induction texts with
  | nil => exact absurd rfl h
  | cons first texts ih =>
      cases texts with
      | nil => simp [List.intercalate_cons_cons, List.intercalate_singleton]
      | cons second texts =>
          rw [List.cons_append, List.cons_append, List.intercalate_cons_cons, ← List.cons_append,
            ih (List.cons_ne_nil _ _), List.intercalate_cons_cons, List.append_assoc,
            List.append_assoc, List.append_assoc]

namespace TelemetrySnapshot

/-- How the source starts an object inside the object. -/
theorem ascii_opening :
    ascii ",\"per_domain_bytes\":\x7b" =
      comma :: quote :: (ascii "per_domain_bytes" ++ [quote, colon, openBrace]) ∧
    ascii ",\"per_device_bytes\":\x7b" =
      comma :: quote :: (ascii "per_device_bytes" ++ [quote, colon, openBrace]) ∧
    ascii ",\"per_route_class_bytes\":\x7b" =
      comma :: quote :: (ascii "per_route_class_bytes" ++ [quote, colon, openBrace]) ∧
    ascii ",\"per_backend_bytes\":\x7b" =
      comma :: quote :: (ascii "per_backend_bytes" ++ [quote, colon, openBrace]) ∧
    ascii ",\"per_route_bytes\":\x7b" =
      comma :: quote :: (ascii "per_route_bytes" ++ [quote, colon, openBrace]) ∧
    ascii "\x7d" = [closeBrace] := by
  decide +kernel

/-- The members of the snapshot. -/
def texts (print : D → List Byte) (s : TelemetrySnapshot D) : List (List Byte) :=
  (((((s.scalars.map fun f => keyed (ascii f.1) (f.2.print print)) ++
    [keyed (ascii "per_domain_bytes") (objectText (bucketTexts domainName s.perDomainBytes))]) ++
    [keyed (ascii "per_device_bytes")
      (objectText (bucketTexts (fun i => decimal i.val) s.perDeviceBytes))]) ++
    [keyed (ascii "per_route_class_bytes")
      (objectText (bucketTexts routeClassName s.perRouteClassBytes))]) ++
    [keyed (ascii "per_backend_bytes") (objectText (mapTexts s.perBackendBytes))]) ++
    [keyed (ascii "per_route_bytes") (objectText (mapTexts s.perRouteBytes))]

theorem toJson_eq (print : D → List Byte) (s : TelemetrySnapshot D) :
    s.toJson print = objectText (s.texts print) := by
  have hscalars : (s.scalars.foldl (fun os f => (appendKey os (ascii f.1)).put (f.2.print print))
      (ascii "\x7b", true)).1 =
      openBrace :: [comma].intercalate (s.scalars.map fun f =>
        keyed (ascii f.1) (f.2.print print)) := by
    simp only [appendKey_put]
    rw [← List.foldl_map (f := fun f : String × Scalar D => keyed (ascii f.1) (f.2.print print))
      (g := TextStream.join), join_foldl]
    rfl
  obtain ⟨hdomain, hdevice, hclass, hbackend, hroute, hclose⟩ := ascii_opening
  have hne : (s.scalars.map fun f => keyed (ascii f.1) (f.2.print print)) ≠ [] :=
    List.cons_ne_nil _ _
  rw [texts, objectText, intercalate_concat (by simp), intercalate_concat (by simp),
    intercalate_concat (by simp), intercalate_concat (by simp), intercalate_concat hne]
  simp only [toJson, hscalars, bucketLoop_eq, mapLoop_eq, hdomain, hdevice, hclass, hbackend,
    hroute, hclose, keyed, objectText, List.append_assoc, List.cons_append, List.nil_append]

end TelemetrySnapshot

/-! What is read from the text. -/

theorem escape_piece (c : Byte) : Piece (escape c) [c] := by
  unfold escape
  split_ifs with hquote hslash hn hr ht hctl
  · exact piece_escape fun rest => by rw [hquote]; rfl
  · exact piece_escape fun rest => by rw [hslash]; rfl
  · exact piece_escape fun rest => by rw [hn]; rfl
  · exact piece_escape fun rest => by rw [hr]; rfl
  · exact piece_escape fun rest => by rw [ht]; rfl
  · refine piece_escape fun rest => ?_
    have hlt : c.toNat < 32 := UInt8.lt_iff_toNat_lt.mp hctl
    have hdigits : ∀ n < 32, ((Words.fixed 16 4 n).map TransferId.hexDigit).mapM hexValue =
        some (Words.fixed 16 4 n) := by decide +kernel
    have hvalue : Words.value 16 (Words.fixed 16 4 c.toNat) = c.toNat :=
      Words.value_fixed (Nat.lt_trans hlt (by decide))
    have hread := readUnicode_ascii (by simp) (hdigits c.toNat hlt) (by rw [hvalue]; omega) rest
    rw [hvalue, UInt8.ofNat_toNat] at hread
    exact hread
  · exact piece_plain hquote hslash hctl

theorem member_keyed {name text : List Byte} {v : Value} (hname : Plain name)
    (hv : Denotes text v) : Member (keyed name text) (name, v) := .mk (spells_plain hname) hv

/-- Both sides made from one list, element by element. -/
theorem members_map {α : Type} {l : List α} {text : α → List Byte}
    {m : α → List Byte × Value} (h : ∀ x ∈ l, Member (text x) (m x)) :
    List.Forall₂ Member (l.map text) (l.map m) :=
  List.forall₂_map_left_iff.mpr (List.forall₂_map_right_iff.mpr (List.forall₂_same.mpr h))

/-- The value of an object of buckets. -/
def bucketValue {size : Nat} (name : Fin size → List Byte) (bucket : Fin size → UInt64) : Value :=
  .object (((List.finRange size).filter (bucket · ≠ 0)).map fun i =>
    (name i, .number (decimal (bucket i).toNat)))

theorem denotes_buckets {size : Nat} (name : Fin size → List Byte) (hname : ∀ i, Plain (name i))
    (bucket : Fin size → UInt64) :
    Denotes (objectText (bucketTexts name bucket)) (bucketValue name bucket) :=
  denotes_object (members_map fun i _ =>
    member_keyed (hname i) (denotes_number (isNumber_decimal _)))

def mapValue (entries : List (List Byte × UInt64)) : Value :=
  .object (entries.map fun e => (e.1, .number (decimal e.2.toNat)))

/-- The loop of `append_json_string` reaches the end of a key without a zero byte. -/
theorem takeWhile_nul {key : List Byte} (h : 0 ∉ key) : key.takeWhile (· ≠ 0) = key :=
  List.takeWhile_eq_self_iff.mpr fun _ hc => decide_eq_true fun hzero => h (hzero ▸ hc)

theorem denotes_map {entries : List (List Byte × UInt64)} (h : ∀ e ∈ entries, 0 ∉ e.1) :
    Denotes (objectText (mapTexts entries)) (mapValue entries) := by
  refine denotes_object (members_map fun e he => .mk ?_ (denotes_number (isNumber_decimal _)))
  rw [takeWhile_nul (h e he)]
  exact spells_flatMap fun c _ => escape_piece c

namespace TelemetrySnapshot

/-- The two doubles come out as numbers. -/
structure Prints (print : D → List Byte) (s : TelemetrySnapshot D) : Prop where
  hitRate : IsNumber (print s.stagingPoolHitRate)
  throughput : IsNumber (print s.throughputBytesPerSec)

/-- No key of a map has a zero byte. -/
structure NulFree (s : TelemetrySnapshot D) : Prop where
  backends : ∀ e ∈ s.perBackendBytes, 0 ∉ e.1
  routes : ∀ e ∈ s.perRouteBytes, 0 ∉ e.1

/-- The members of the object that is read. -/
def members (print : D → List Byte) (s : TelemetrySnapshot D) : List (List Byte × Value) :=
  (((((s.scalars.map fun f => (ascii f.1, .number (f.2.print print))) ++
    [(ascii "per_domain_bytes", bucketValue domainName s.perDomainBytes)]) ++
    [(ascii "per_device_bytes", bucketValue (fun i => decimal i.val) s.perDeviceBytes)]) ++
    [(ascii "per_route_class_bytes", bucketValue routeClassName s.perRouteClassBytes)]) ++
    [(ascii "per_backend_bytes", mapValue s.perBackendBytes)]) ++
    [(ascii "per_route_bytes", mapValue s.perRouteBytes)]

section Read

variable {print : D → List Byte} {s : TelemetrySnapshot D}

theorem Prints.scalars (h : s.Prints print) : ∀ f ∈ s.scalars, IsNumber (f.2.print print) := by
  simp [TelemetrySnapshot.scalars, Scalar.print, isNumber_decimal, h.hitRate, h.throughput]

/-- A snapshot of nothing: the names are the same in every snapshot. -/
def blank : TelemetrySnapshot Unit := { stagingPoolHitRate := (), throughputBytesPerSec := () }

theorem scalars_plain (s : TelemetrySnapshot D) :
    ∀ f ∈ s.scalars, Plain (ascii f.1) ∧ Ascii (ascii f.1) := by
  have hall : ∀ name ∈ blank.scalars.map Prod.fst,
      Plain (ascii name) ∧ Ascii (ascii name) := by decide +kernel
  have hnames : s.scalars.map Prod.fst = blank.scalars.map Prod.fst := rfl
  intro f hf
  refine hall f.1 ?_
  rw [← hnames]
  exact List.mem_map_of_mem hf

theorem denotes_toJson (hprints : s.Prints print) (hnul : s.NulFree) :
    Denotes (s.toJson print) (.object (s.members print)) := by
  rw [toJson_eq]
  have hone (name : List Byte) {text : List Byte} {v : Value} (hname : Plain name)
      (hv : Denotes text v) : List.Forall₂ Member [keyed name text] [(name, v)] :=
    .cons (member_keyed hname hv) .nil
  have hscalars := members_map fun f hf =>
    member_keyed (scalars_plain s f hf).1 (denotes_number (hprints.scalars f hf))
  have hdomains := hone (ascii "per_domain_bytes") (by decide +kernel)
    (denotes_buckets domainName (by decide +kernel) s.perDomainBytes)
  have hdevices := hone (ascii "per_device_bytes") (by decide +kernel)
    (denotes_buckets (fun i : Fin 16 => decimal i.val) (by decide +kernel) s.perDeviceBytes)
  have hclasses := hone (ascii "per_route_class_bytes") (by decide +kernel)
    (denotes_buckets routeClassName (by decide +kernel) s.perRouteClassBytes)
  have hbackends := hone (ascii "per_backend_bytes") (by decide +kernel)
    (denotes_map hnul.backends)
  have hroutes := hone (ascii "per_route_bytes") (by decide +kernel)
    (denotes_map hnul.routes)
  exact denotes_object (List.rel_append (List.rel_append (List.rel_append (List.rel_append
    (List.rel_append hscalars hdomains) hdevices) hclasses) hbackends) hroutes)

theorem members_nodup (print : D → List Byte) (s : TelemetrySnapshot D) :
    ((s.members print).map Prod.fst).Nodup := by
  have hblank : ((blank.members fun _ => []).map Prod.fst).Nodup := by decide +kernel
  exact hblank

end Read

end TelemetrySnapshot

/-! Only non-zero buckets are listed, each under its name. -/

def MemoryDomain.slot (d : MemoryDomain) : Fin 16 := ⟨d.index, by cases d <;> decide⟩

def RouteClass.slot (c : RouteClass) : Fin 8 := ⟨c.index, by cases c <;> decide⟩

theorem domainName_slot (d : MemoryDomain) : domainName d.slot = ascii d.toString := by
  cases d <;> rfl

theorem routeClassName_slot (c : RouteClass) : routeClassName c.slot = ascii c.toString := by
  cases c <;> rfl

/-- Where the buckets behind the enumerators are empty, the enumerators are all there is. -/
theorem filter_slots {E β : Type} {size : Nat} (all : List E) (slot : E → Fin size)
    (hall : List.finRange size = all.map slot ++ (List.finRange size).drop all.length)
    {bucket : Fin size → UInt64} (hzero : ∀ i, all.length ≤ i.val → bucket i = 0)
    (f : Fin size → β) :
    ((List.finRange size).filter (bucket · ≠ 0)).map f =
      (all.filter fun e => bucket (slot e) ≠ 0).map fun e => f (slot e) := by
  have hrest : ((List.finRange size).drop all.length).filter (bucket · ≠ 0) = [] := by
    refine List.filter_eq_nil_iff.mpr fun i hi => ?_
    obtain ⟨j, hj, rfl⟩ := List.mem_iff_getElem.mp hi
    rw [decide_eq_true_iff, not_not]
    refine hzero _ ?_
    rw [List.getElem_drop, List.getElem_finRange]
    exact Nat.le_add_right ..
  rw [hall, List.filter_append, hrest, List.append_nil, List.filter_map, List.map_map]
  rfl

namespace TelemetrySnapshot

/-- What a reader of the value finds. -/
structure Decodes (print : D → List Byte) (s : TelemetrySnapshot D) (v : Value) : Prop where
  names : ∃ ms, v = .object ms ∧ (ms.map Prod.fst).Nodup
  integers : ∀ name n, (name, .integer n) ∈ s.scalars →
    (v.field (ascii name)).bind Value.natural = some n.toNat
  doubles : ∀ name x, (name, .double x) ∈ s.scalars →
    v.field (ascii name) = some (.number (print x))
  domains : (v.field (ascii "per_domain_bytes")).bind Value.naturals =
    some ((MemoryDomain.all.filter fun d => s.perDomainBytes d.slot ≠ 0).map fun d =>
      (ascii d.toString, (s.perDomainBytes d.slot).toNat))
  devices : (v.field (ascii "per_device_bytes")).bind Value.naturals =
    some (((List.finRange 16).filter fun i => s.perDeviceBytes i ≠ 0).map fun i =>
      (decimal i.val, (s.perDeviceBytes i).toNat))
  classes : (v.field (ascii "per_route_class_bytes")).bind Value.naturals =
    some ((RouteClass.all.filter fun c => s.perRouteClassBytes c.slot ≠ 0).map fun c =>
      (ascii c.toString, (s.perRouteClassBytes c.slot).toNat))
  backends : (v.field (ascii "per_backend_bytes")).bind Value.naturals =
    some (s.perBackendBytes.map fun e => (e.1, e.2.toNat))
  routes : (v.field (ascii "per_route_bytes")).bind Value.naturals =
    some (s.perRouteBytes.map fun e => (e.1, e.2.toNat))
  /-- A lookup by key therefore finds the entry. -/
  distinct : (s.perBackendBytes.map Prod.fst).Nodup ∧ (s.perRouteBytes.map Prod.fst).Nodup

section Read

variable {print : D → List Byte} {s : TelemetrySnapshot D} {ops : List BucketOp}

theorem naturals_of_mem {name : List Byte} {v : Value} {es : List (List Byte × Nat)}
    (h : (name, v) ∈ s.members print) (hv : v.naturals = some es) :
    ((Value.object (s.members print)).field name).bind Value.naturals = some es := by
  rw [field_of_mem (members_nodup print s) h]
  exact hv

theorem decodes_members (htaken : s.TakenAfter ops) :
    s.Decodes print (.object (s.members print)) := by
  have hsound := TelemetryBuckets.sound_run ops
  have hscalar {name : String} {x : Scalar D} (h : (name, x) ∈ s.scalars) :
      (Value.object (s.members print)).field (ascii name) = some (.number (x.print print)) := by
    refine field_of_mem (members_nodup print s) ?_
    simp only [members, List.mem_append]
    exact .inl (.inl (.inl (.inl (.inl (List.mem_map.mpr ⟨_, h, rfl⟩)))))
  refine ⟨⟨_, rfl, members_nodup print s⟩, ?_, ?_, ?_, ?_, ?_, ?_, ?_, ?_⟩
  · intro name n h
    rw [hscalar h]
    exact natural_decimal _
  · exact fun name x h => hscalar h
  · refine naturals_of_mem (v := bucketValue domainName s.perDomainBytes) (by simp [members]) ?_
    rw [bucketValue, naturals_object, filter_slots MemoryDomain.all MemoryDomain.slot
      (by decide +kernel) (htaken.domains ▸ hsound.domains)]
    simp only [domainName_slot]
  · exact naturals_of_mem (v := bucketValue (fun i => decimal i.val) s.perDeviceBytes)
      (by simp [members]) (naturals_object ..)
  · refine naturals_of_mem (v := bucketValue routeClassName s.perRouteClassBytes)
      (by simp [members]) ?_
    rw [bucketValue, naturals_object, filter_slots RouteClass.all RouteClass.slot
      (by decide +kernel) (htaken.classes ▸ hsound.classes)]
    simp only [routeClassName_slot]
  · exact naturals_of_mem (v := mapValue s.perBackendBytes) (by simp [members])
      (naturals_object ..)
  · exact naturals_of_mem (v := mapValue s.perRouteBytes) (by simp [members])
      (naturals_object ..)
  · exact ⟨(htaken.backends.map Prod.fst).nodup_iff.mpr hsound.backends,
      (htaken.routes.map Prod.fst).nodup_iff.mpr hsound.routes⟩

end Read

end TelemetrySnapshot

/-! The text is UTF-8 if the keys are. -/

theorem utf8_keyed {name text : List Byte} (hname : Utf8 name) (htext : Utf8 text) :
    Utf8 (keyed name text) := by
  have hquote : Utf8 [quote] := utf8_ascii (by decide +kernel)
  have hcolon : Utf8 [quote, colon] := utf8_ascii (by decide +kernel)
  have := hquote.append (hname.append (hcolon.append htext))
  exact this

theorem utf8_object {texts : List (List Byte)} (h : ∀ text ∈ texts, Utf8 text) :
    Utf8 (objectText texts) := by
  have hopen : Utf8 [openBrace] := utf8_ascii (by decide +kernel)
  have hclose : Utf8 [closeBrace] := utf8_ascii (by decide +kernel)
  have hcomma : Utf8 [comma] := utf8_ascii (by decide +kernel)
  have hinside := utf8_intercalate hcomma h
  exact hopen.append (hinside.append hclose)

theorem utf8_number {token : List Byte} (h : IsNumber token) : Utf8 token := utf8_ascii h.ascii

theorem utf8_buckets {size : Nat} {name : Fin size → List Byte}
    (hname : ∀ i, Ascii (name i)) (bucket : Fin size → UInt64) :
    Utf8 (objectText (bucketTexts name bucket)) := by
  refine utf8_object fun text ht => ?_
  obtain ⟨i, -, rfl⟩ := List.mem_map.mp ht
  exact utf8_keyed (utf8_ascii (hname i)) (utf8_number (isNumber_decimal _))

/-- The escape of an ASCII byte is ASCII; another byte is its own. -/
theorem escape_cases (c : Byte) :
    (c < 0x80 → Ascii (escape c)) ∧ (¬ c < 0x80 → escape c = [c]) :=
  Words.forall_byte (P := fun c =>
    (c < 0x80 → Ascii (escape c)) ∧ (¬ c < 0x80 → escape c = [c])) (by decide +kernel) c

theorem utf8_map {entries : List (List Byte × UInt64)} (hnul : ∀ e ∈ entries, 0 ∉ e.1)
    (h : ∀ e ∈ entries, Utf8 e.1) : Utf8 (objectText (mapTexts entries)) := by
  refine utf8_object fun text ht => ?_
  obtain ⟨e, he, rfl⟩ := List.mem_map.mp ht
  refine utf8_keyed ?_ (utf8_number (isNumber_decimal _))
  rw [takeWhile_nul (hnul e he)]
  exact (h e he).flatMap (fun c => (escape_cases c).1) fun c => (escape_cases c).2

namespace TelemetrySnapshot

theorem utf8_toJson {print : D → List Byte} {s : TelemetrySnapshot D} (hprints : s.Prints print)
    (hnul : s.NulFree) (hbackends : ∀ e ∈ s.perBackendBytes, Utf8 e.1)
    (hroutes : ∀ e ∈ s.perRouteBytes, Utf8 e.1) : Utf8 (s.toJson print) := by
  have hname {name : String} (h : Ascii (ascii name)) : Utf8 (ascii name) := utf8_ascii h
  rw [toJson_eq]
  refine utf8_object ?_
  simp only [texts, List.forall_mem_append, List.forall_mem_singleton, List.forall_mem_map]
  refine ⟨⟨⟨⟨⟨fun f hf => ?_, ?_⟩, ?_⟩, ?_⟩, ?_⟩, ?_⟩
  · exact utf8_keyed (hname (scalars_plain s f hf).2) (utf8_number (hprints.scalars f hf))
  · exact utf8_keyed (hname (by decide +kernel)) (utf8_buckets (by decide +kernel) _)
  · exact utf8_keyed (hname (by decide +kernel)) (utf8_buckets (by decide +kernel) _)
  · exact utf8_keyed (hname (by decide +kernel)) (utf8_buckets (by decide +kernel) _)
  · exact utf8_keyed (hname (by decide +kernel)) (utf8_map hnul.backends hbackends)
  · exact utf8_keyed (hname (by decide +kernel)) (utf8_map hnul.routes hroutes)

/-- The text of a snapshot is a JSON object from which every integer, both maps and the buckets
that are not zero can be read back. -/
theorem toJson_decodes (print : D → List Byte) (s : TelemetrySnapshot D) (ops : List BucketOp)
    (htaken : s.TakenAfter ops) (hprints : s.Prints print) (hnul : s.NulFree) :
    ∃ v, read (s.toJson print) = some v ∧ s.Decodes print v ∧
      ((∀ e ∈ s.perBackendBytes, Utf8 e.1) → (∀ e ∈ s.perRouteBytes, Utf8 e.1) →
        Utf8 (s.toJson print)) :=
  ⟨_, read_eq (denotes_toJson hprints hnul), decodes_members htaken, utf8_toJson hprints hnul⟩

/-- Some bytes from a device, moved by a backend with a quote and a line feed in its name. -/
def oddOps : List BucketOp := [.addDomainBytes .device 7, .addBackendBytes [0x61, 0x22, 0x0a] 9]

def oddSnapshot : TelemetrySnapshot Unit where
  stagingPoolHitRate := ()
  throughputBytesPerSec := ()
  perDomainBytes := (TelemetryBuckets.run oddOps).perDomain
  perBackendBytes := (TelemetryBuckets.run oddOps).perBackend

theorem toJson_decodes_odd : ∃ v,
    read (oddSnapshot.toJson fun _ => ascii "0.5") = some v ∧
      (v.field (ascii "per_domain_bytes")).bind Value.naturals = some [(ascii "device", 7)] ∧
      (v.field (ascii "per_backend_bytes")).bind Value.naturals =
        some [([0x61, 0x22, 0x0a], 9)] := by
  obtain ⟨v, hread, hdecodes, -⟩ := toJson_decodes (fun _ => ascii "0.5") oddSnapshot oddOps
    ⟨rfl, rfl, rfl, .refl _, .refl _⟩ ⟨by decide +kernel, by decide +kernel⟩
    ⟨by decide +kernel, by decide +kernel⟩
  exact ⟨v, hread, hdecodes.domains, hdecodes.backends⟩

end TelemetrySnapshot

end Text

end TransferFabric
