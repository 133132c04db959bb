import TransferFabric.Runtime.ExecutorCopy
import TransferFabric.Runtime.HashReads

/-!
The region a descriptor declares, against the bytes a transfer touches. A
descriptor of kind file, shared or mmap names an object and an offset into it.
The copier and the verifier each compute where a byte of the endpoint lies in
that object, and registration computes how many bytes a range may have.

The copier never adds the descriptor's offset. The verifier adds it for files
and for nothing else. The capacity of a file endpoint is what follows the offset
in the file, in 64-bit arithmetic, whatever size was declared; that of a mapping
is the declared size, whatever the file holds.

The file keeps the length it had at registration, and a mapping shows the object
from its first byte on.
-/

namespace TransferFabric

open Interaction Memory

/-! What registration leaves behind. -/

/-- The length of the file a path opens. -/
def Platform.pathLength (os : Platform) (path : String) : ByteCount :=
  match os.createFile path with
  | some h => os.fileLength h
  | none => 0

/-- The descriptor's part of a registered record. -/
structure Platform.Opened (os : Platform) (desc : EndpointDescriptor) (ep : EndpointRecord) :
    Prop where
  kind : ep.desc.kind = desc.kind
  offset : ep.desc.offset = desc.offset
  capacity : ep.caps.maxTransferSize =
    if desc.kind = .file then os.pathLength desc.path - desc.offset else desc.size

theorem Platform.openResources_of_register {os : Platform} {down : Bool} {desc : EndpointDescriptor}
    {ep : EndpointRecord} (h : os.registerEndpoint down desc = .ok ep) :
    os.openResources desc = .ok ep := by
  unfold registerEndpoint at h
  cases hopen : os.openResources desc with
  | error e =>
      rw [hopen] at h
      split_ifs at h
  | ok ep' =>
      rw [hopen] at h
      dsimp only at h
      split_ifs at h
      rw [Except.ok.inj h]

theorem Platform.opened {os : Platform} {down : Bool} {desc : EndpointDescriptor}
    {ep : EndpointRecord} (h : os.registerEndpoint down desc = .ok ep) : os.Opened desc ep := by
  have hopen := openResources_of_register h
  unfold openResources at hopen
  dsimp only at hopen
  split at hopen
  · rename_i hkind
    cases hfile : os.createFile desc.path with
    | none => simp [hfile] at hopen
    | some h =>
        simp only [hfile, getFileSizeEx] at hopen
        split_ifs at hopen
        cases hopen
        exact ⟨rfl, rfl, by simp [hkind, pathLength, hfile]⟩
  · rename_i hkind
    split at hopen
    · cases hopen
    · split at hopen
      · cases hopen
      · cases hopen
        exact ⟨rfl, rfl, by simp [hkind, capsForKind]⟩
  · rename_i hkind
    split at hopen
    · cases hopen
    · split at hopen
      · cases hopen
      · split at hopen
        · cases hopen
        · cases hopen
          exact ⟨rfl, rfl, by simp [hkind, capsForKind]⟩
  · rename_i hfile _ _
    cases hopen
    exact ⟨rfl, rfl, (if_neg hfile).symm⟩

/-! The ranges an endpoint can be given. -/

inductive TransferRole where
  | source | dest
  deriving DecidableEq, Repr

/-- Some transfer with a registered peer is admitted that moves `n` bytes from byte `off` of
the endpoint on. -/
inductive Platform.Admitted (os : Platform) (ep : EndpointRecord) :
    TransferRole → ByteOffset → ByteCount → Prop
  | source {peer : EndpointDescriptor} {de : EndpointRecord} {src dst : ByteRange}
      {r : ResolvedRanges} (hpeer : os.registerEndpoint false peer = .ok de)
      (h : resolveRanges ep de src dst = .ok r) : Admitted os ep .source r.src.offset r.bytes
  | dest {peer : EndpointDescriptor} {se : EndpointRecord} {src dst : ByteRange}
      {r : ResolvedRanges} (hpeer : os.registerEndpoint false peer = .ok se)
      (h : resolveRanges se ep src dst = .ok r) : Admitted os ep .dest r.dst.offset r.bytes

theorem Platform.Admitted.bound {os : Platform} {ep : EndpointRecord} {role : TransferRole}
    {off : ByteOffset} {n : ByteCount} (h : os.Admitted ep role off n) :
    off.toNat + n.toNat ≤ ep.caps.maxTransferSize.toNat := by
  cases h with
  | source _ h => exact (resolveRanges_bounds h).1
  | dest _ h => exact (resolveRanges_bounds h).2.1

/-- Host memory of the largest size is registered on every platform. -/
theorem Platform.register_hostMemory (os : Platform) :
    os.registerEndpoint false (.hostMemory 1 maxByteCount) =
      .ok { desc := .hostMemory 1 maxByteCount
            caps := capsForKind (.hostMemory 1 maxByteCount) } := rfl

theorem resolveRanges_first {se de : EndpointRecord} {n : ByteCount} (hn : n ≠ 0)
    (hsrc : n ≤ se.caps.maxTransferSize) (hdst : n ≤ de.caps.maxTransferSize) :
    resolveRanges se de ⟨0, n⟩ ⟨0, n⟩ = .ok ⟨⟨0, n⟩, ⟨0, n⟩, n⟩ := by
  rw [UInt64.le_iff_toNat_le] at hsrc hdst
  exact resolveRanges_eq_ok.mpr
    ⟨by simp [EndpointRecord.sourceRange, ByteRange.empty, hn], rfl,
      by simp [ByteRange.orFirst, ByteRange.empty, hn], by simpa using hsrc, Nat.le_refl _,
      by simpa using hdst⟩

/-- The first bytes of the endpoint, up to its capacity, are admitted in either role. -/
theorem Platform.admitted_of_le (os : Platform) {ep : EndpointRecord} (role : TransferRole)
    {n : ByteCount} (hn : n ≠ 0) (hle : n ≤ ep.caps.maxTransferSize) : os.Admitted ep role 0 n := by
  have hmax : n ≤ maxByteCount := by
    rw [UInt64.le_iff_toNat_le, toNat_maxByteCount]
    have := n.toNat_lt
    omega
  cases role with
  | source => exact .source os.register_hostMemory (resolveRanges_first hn hle hmax)
  | dest => exact .dest os.register_hostMemory (resolveRanges_first hn hmax hle)

namespace EndpointRecord

variable {fileOf : Handle → Nat} {ep : EndpointRecord}

/-- Byte `x` of the object behind an endpoint: of the file, or of what is mapped at the base. -/
def object (ep : EndpointRecord) (fileOf : Handle → Nat) (x : Nat) : Cell :=
  if ep.desc.kind = .file then fileBytes fileOf ep.fileHandle 0 x else memRegion ep.desc.base x

theorem object_inj {x y : Nat} (hx : x < 2 ^ 64) (hy : y < 2 ^ 64)
    (h : ep.object fileOf x = ep.object fileOf y) : x = y := by
  unfold object at h
  split at h
  · exact fileBytes_inj hx hy h
  · exact memRegion_inj hx hy h

/-- The copier takes byte `k` of the endpoint for byte `k` of the object. -/
theorem endpointLoc_object (fileOf : Handle → Nat) (ep : EndpointRecord) (off : ByteOffset)
    (k : Nat) : (endpointLoc ep off).region fileOf k = ep.object fileOf (off.toNat + k) := by
  by_cases hkind : ep.desc.kind = .file
  · simp only [endpointLoc, Loc.region, isStorage, hkind, decide_true, if_true, object]
    rw [← fileBytes_add, UInt64.zero_add]
  · simp only [endpointLoc, Loc.region, isStorage, hkind, decide_false, Bool.false_eq_true,
      if_false, object, memRegion_add]

/-- What the verifier adds to a byte's number: the declared offset, for files only. -/
def hashShift (ep : EndpointRecord) : Nat :=
  if ep.desc.kind = .file then ep.desc.offset.toNat else 0

theorem hashRegion_object (fileOf : Handle → Nat) (ep : EndpointRecord) (off : ByteOffset)
    (k : Nat) :
    hashRegion fileOf ep off k = ep.object fileOf (ep.hashShift + (off.toNat + k)) := by
  by_cases hkind : ep.desc.kind = .file
  · simp only [hashRegion, object, hashShift, hkind, if_true]
    rw [fileBytes_add, ← fileBytes_add fileOf _ 0, UInt64.zero_add]
  · simp only [hashRegion, object, hashShift, hkind, if_false, Nat.zero_add, memRegion_add]

/-- Both the copier and the verifier take `n` bytes from byte `off` of the endpoint on for the
object's bytes that far behind the declared offset. -/
structure Denotes (ep : EndpointRecord) (fileOf : Handle → Nat) (off : ByteOffset) (n : Nat) :
    Prop where
  copied : ∀ k < n, (endpointLoc ep off).region fileOf k =
    ep.object fileOf (ep.desc.offset.toNat + (off.toNat + k))
  hashed : ∀ k < n, hashRegion fileOf ep off k =
    ep.object fileOf (ep.desc.offset.toNat + (off.toNat + k))

theorem denotes_of_offset_zero (h : ep.desc.offset = 0) (off : ByteOffset) (n : Nat) :
    ep.Denotes fileOf off n := by
  have hshift : ep.hashShift = ep.desc.offset.toNat := by simp [hashShift, h]
  refine ⟨fun k _ => ?_, fun k _ => by rw [hashRegion_object, hshift]⟩
  rw [endpointLoc_object, h, UInt64.toNat_zero, Nat.zero_add]

theorem Denotes.offset_eq_zero {n : Nat} (hn : 0 < n) (h : ep.Denotes fileOf 0 n) :
    ep.desc.offset = 0 := by
  have hfirst := h.copied 0 hn
  rw [endpointLoc_object] at hfirst
  have := object_inj (by simp) (by simpa using ep.desc.offset.toNat_lt) hfirst
  exact UInt64.toNat_inj.mp (by simpa using this.symm)

/-- Position `p` of the object is read or written by a transfer of `n` bytes from byte `off` of
the endpoint on, by its copies or by its verification. -/
def Touches (ep : EndpointRecord) (fileOf : Handle → Nat) (off : ByteOffset) (n p : Nat) : Prop :=
  p < 2 ^ 64 ∧ ∃ k < n, (endpointLoc ep off).region fileOf k = ep.object fileOf p ∨
    hashRegion fileOf ep off k = ep.object fileOf p

theorem touches_copied {n k : Nat} (hk : k < n) (hlt : k < 2 ^ 64) :
    ep.Touches fileOf 0 n k :=
  ⟨hlt, k, hk, Or.inl (by rw [endpointLoc_object, UInt64.toNat_zero, Nat.zero_add])⟩

theorem Touches.lt {off : ByteOffset} {n p : Nat} (h : ep.Touches fileOf off n p)
    (hoffset : ep.desc.offset = 0) (hlt : off.toNat + n ≤ 2 ^ 64) : p < off.toNat + n := by
  obtain ⟨hp, k, hk, htouch⟩ := h
  have hshift : ep.hashShift = 0 := by simp [hashShift, hoffset]
  rw [endpointLoc_object, hashRegion_object, hshift, Nat.zero_add, or_self] at htouch
  have := object_inj (by omega) hp htouch
  omega

end EndpointRecord

open EndpointRecord

section Registered

variable {os : Platform} {down : Bool} {desc : EndpointDescriptor} {ep : EndpointRecord}
  {fileOf : Handle → Nat}

/-- The descriptor's offset means the same to the copier and to the verifier, and a completed
transfer delivers the object's bytes from it on. -/
structure Platform.OffsetMeant (os : Platform) (fileOf : Handle → Nat) (ep : EndpointRecord) :
    Prop where
  denotes : ∀ {role : TransferRole} {off : ByteOffset} {n : ByteCount},
    os.Admitted ep role off n → ep.Denotes fileOf off n.toNat
  delivered : ∀ {ctx : RunContext} {w w' : CopyWorld} {r : Error} {t : ExecTrace},
    ctx.record.srcEp = ep → os.Admitted ep .source ctx.plan.sourceOffset ctx.plan.total →
    ctx.legs ≠ [] → ctx.Layout fileOf → w.pending = [] → ctx.CopyExecution fileOf w r t w' →
    r.ok = true → (∀ ev ∈ t, ExecEvent.syncFailed ev = false) →
    ∀ k < ctx.plan.total.toNat, w'.store (ctx.destRegion fileOf k) =
      w.store (ep.object fileOf (ep.desc.offset.toNat + (ctx.plan.sourceOffset.toNat + k)))

theorem Platform.offsetMeant_of_denotes
    (h : ∀ {role : TransferRole} {off : ByteOffset} {n : ByteCount},
      os.Admitted ep role off n → ep.Denotes fileOf off n.toNat) : os.OffsetMeant fileOf ep where
  denotes := h
  delivered := by
    intro ctx w w' r t hep hadmitted hlegs hlayout hw hexec hok hsync k hk
    have hcopied := hexec.copied hlegs hlayout hw hok hsync
    rw [hcopied.delivered k hk, ← (h hadmitted).copied k hk, RunContext.sourceRegion, hep]

theorem one_le_of_ne_zero {n : ByteCount} (h : n ≠ 0) : 1 ≤ n :=
  UInt64.le_iff_toNat_le.mpr (Nat.pos_of_ne_zero ((toNat_ne_zero n).mpr h))

theorem Platform.OffsetMeant.offset_eq_zero (h : os.OffsetMeant fileOf ep)
    (hcap : ep.caps.maxTransferSize ≠ 0) : ep.desc.offset = 0 :=
  (h.denotes (os.admitted_of_le .source (by decide) (one_le_of_ne_zero hcap))).offset_eq_zero
    (by decide)

/-- The endpoint's offset is respected just when it is zero or no byte can be moved. -/
theorem Platform.offset_meant_iff (h : os.registerEndpoint down desc = .ok ep) :
    os.OffsetMeant fileOf ep ↔ desc.offset = 0 ∨
      (if desc.kind = .file then os.pathLength desc.path = desc.offset else desc.size = 0) := by
  have hopen := opened h
  have hempty : (if desc.kind = .file then os.pathLength desc.path = desc.offset
      else desc.size = 0) ↔ ep.caps.maxTransferSize = 0 := by
    rw [hopen.capacity]
    split
    · rw [UInt64.sub_eq_iff_eq_add, UInt64.zero_add]
    · rfl
  rw [hempty]
  constructor
  · intro hmeant
    by_cases hcap : ep.caps.maxTransferSize = 0
    · exact Or.inr hcap
    · exact Or.inl (hopen.offset ▸ hmeant.offset_eq_zero hcap)
  · intro hcond
    refine offsetMeant_of_denotes fun {role off n} hadmitted => ?_
    rcases hcond with hzero | hcap
    · exact denotes_of_offset_zero (hopen.offset.trans hzero) off _
    · have hbound := hadmitted.bound
      rw [hcap, UInt64.toNat_zero] at hbound
      exact ⟨fun k hk => absurd hk (by omega), fun k hk => absurd hk (by omega)⟩

end Registered

/-- Every path opens a file of a hundred bytes, mapped from address 4096 on. -/
def hundredBytes : Platform where
  components := fun path => [path]
  createFile := fun _ => some 1
  fileLength := fun _ => 100
  sizeAnswered := fun _ => true
  createSharedMapping := fun _ _ => some 2
  createFileMapping := fun _ => some 3
  mapViewOfFile := fun _ _ => some 4096
  deviceCount := 0

/-- The record `hundredBytes` gives a file region. -/
def hundredBytesFile (offset : ByteOffset) (size : ByteCount) : EndpointRecord :=
  { desc := .fileRegion "data" offset size
    caps := { capsForKind (.fileRegion "data" offset size) with maxTransferSize := 100 - offset }
    fileHandle := 1 }

theorem register_hundredBytesFile (offset : ByteOffset) (size : ByteCount) :
    hundredBytes.registerEndpoint false (.fileRegion "data" offset size) =
      .ok (hundredBytesFile offset size) := rfl

theorem offset_meant_at_start : hundredBytes.OffsetMeant UInt64.toNat (hundredBytesFile 0 100) :=
  (Platform.offset_meant_iff (register_hundredBytesFile 0 100)).mpr (Or.inl rfl)

/-- A region from byte one on: the copier takes its first byte for byte zero of the file, the
verifier for byte one. -/
theorem offset_not_meant :
    hundredBytes.registerEndpoint false (.fileRegion "data" 1 10) = .ok (hundredBytesFile 1 10) ∧
      hundredBytes.Admitted (hundredBytesFile 1 10) .source 0 1 ∧
      (endpointLoc (hundredBytesFile 1 10) 0).region UInt64.toNat 0 =
        (hundredBytesFile 1 10).object UInt64.toNat 0 ∧
      hashRegion UInt64.toNat (hundredBytesFile 1 10) 0 0 =
        (hundredBytesFile 1 10).object UInt64.toNat 1 ∧
      ¬ hundredBytes.OffsetMeant UInt64.toNat (hundredBytesFile 1 10) := by
  refine ⟨register_hundredBytesFile 1 10,
    hundredBytes.admitted_of_le .source (by decide) (by decide), endpointLoc_object _ _ _ _,
    hashRegion_object _ _ _ _, fun hmeant => ?_⟩
  have := hmeant.offset_eq_zero (by decide)
  exact absurd this (by decide)

section Registered

variable {os : Platform} {down : Bool} {desc : EndpointDescriptor} {ep : EndpointRecord}
  {fileOf : Handle → Nat}

/-- Every position of the file that an admitted transfer may read or write lies in the declared
region, and in the file where the transfer reads or maps it. -/
structure Platform.Contained (os : Platform) (fileOf : Handle → Nat) (desc : EndpointDescriptor)
    (ep : EndpointRecord) : Prop where
  region : ∀ {role : TransferRole} {off : ByteOffset} {n : ByteCount} {p : Nat},
    os.Admitted ep role off n → ep.Touches fileOf off n.toNat p →
      desc.offset.toNat ≤ p ∧ p < desc.offset.toNat + desc.size.toNat
  file : ∀ {role : TransferRole} {off : ByteOffset} {n : ByteCount} {p : Nat},
    os.Admitted ep role off n → ep.Touches fileOf off n.toNat p →
      role = .source ∨ desc.kind = .mmap → p < (os.pathLength desc.path).toNat
  unwrapped : desc.kind = .file → desc.offset ≤ os.pathLength desc.path
  capacity : ep.caps.maxTransferSize ≤ desc.size

/-- The first byte of the file is copied, so only the offset zero declares it. -/
theorem Platform.Contained.offset_eq_zero (h : os.Contained fileOf desc ep)
    (hcap : ep.caps.maxTransferSize ≠ 0) : desc.offset = 0 := by
  have hfirst := (h.region (os.admitted_of_le .source (by decide) (one_le_of_ne_zero hcap))
    (touches_copied (k := 0) (by decide) (by decide))).1
  exact UInt64.toNat_inj.mp (Nat.le_zero.mp hfirst)

/-- The last byte of a mapping is copied, so the file has it. -/
theorem Platform.Contained.capacity_le (h : os.Contained fileOf desc ep)
    (hcap : ep.caps.maxTransferSize ≠ 0) : ep.caps.maxTransferSize ≤ os.pathLength desc.path := by
  have hpos := Nat.pos_of_ne_zero ((toNat_ne_zero _).mpr hcap)
  have hlt := ep.caps.maxTransferSize.toNat_lt
  have hlast := h.file (os.admitted_of_le .source hcap (UInt64.le_refl _))
    (touches_copied (k := ep.caps.maxTransferSize.toNat - 1) (by omega) (by omega)) (Or.inl rfl)
  rw [UInt64.le_iff_toNat_le]
  omega

theorem Platform.contained_of_offset_zero (hopen : os.Opened desc ep) (hzero : desc.offset = 0)
    (hsize : ep.caps.maxTransferSize ≤ desc.size)
    (hlength : ep.caps.maxTransferSize ≤ os.pathLength desc.path) :
    os.Contained fileOf desc ep := by
  have hlt := ep.caps.maxTransferSize.toNat_lt
  have below : ∀ {role : TransferRole} {off : ByteOffset} {n : ByteCount} {p : Nat},
      os.Admitted ep role off n → ep.Touches fileOf off n.toNat p →
        p < ep.caps.maxTransferSize.toNat := by
    intro role off n p hadmitted htouch
    have hbound := hadmitted.bound
    have := htouch.lt (hopen.offset.trans hzero) (by omega)
    omega
  rw [UInt64.le_iff_toNat_le] at hlength
  refine ⟨fun hadmitted htouch => ?_, fun hadmitted htouch _ => ?_, fun _ => ?_, hsize⟩
  · rw [UInt64.le_iff_toNat_le] at hsize
    have := below hadmitted htouch
    rw [hzero, UInt64.toNat_zero]
    omega
  · have := below hadmitted htouch
    omega
  · rw [hzero, UInt64.le_iff_toNat_le]
    exact Nat.zero_le _

theorem Platform.contained_of_capacity_zero (hcap : ep.caps.maxTransferSize = 0)
    (hwrap : desc.kind = .file → desc.offset ≤ os.pathLength desc.path) :
    os.Contained fileOf desc ep := by
  have none : ∀ {role : TransferRole} {off : ByteOffset} {n : ByteCount} {p : Nat},
      os.Admitted ep role off n → ¬ ep.Touches fileOf off n.toNat p := by
    rintro role off n p hadmitted ⟨-, k, hk, -⟩
    have hbound := hadmitted.bound
    rw [hcap, UInt64.toNat_zero] at hbound
    omega
  refine ⟨fun hadmitted htouch => absurd htouch (none hadmitted),
    fun hadmitted htouch _ => absurd htouch (none hadmitted), hwrap, ?_⟩
  rw [hcap, UInt64.le_iff_toNat_le]
  exact Nat.zero_le _

/-- A file endpoint stays in its region just when it declares the whole file or the empty rest
behind it, a mapping just when it declares a first part of the file or nothing. -/
theorem Platform.region_contained_iff (h : os.registerEndpoint down desc = .ok ep)
    (hkind : desc.kind = .file ∨ desc.kind = .mmap) :
    os.Contained fileOf desc ep ↔
      if desc.kind = .file then
        desc.offset = os.pathLength desc.path ∨
          (desc.offset = 0 ∧ os.pathLength desc.path ≤ desc.size)
      else desc.size = 0 ∨ (desc.offset = 0 ∧ desc.size ≤ os.pathLength desc.path) := by
  have hopen := opened h
  have hcapacity := hopen.capacity
  rcases hkind with hfile | hmmap
  · rw [if_pos hfile] at hcapacity ⊢
    have hempty : desc.offset = os.pathLength desc.path ↔ ep.caps.maxTransferSize = 0 := by
      rw [hcapacity, UInt64.sub_eq_iff_eq_add, UInt64.zero_add, eq_comm]
    have hwhole : desc.offset = 0 → ep.caps.maxTransferSize = os.pathLength desc.path := by
      intro hzero
      rw [hcapacity, hzero, UInt64.sub_zero]
    constructor
    · intro hin
      by_cases hcap : ep.caps.maxTransferSize = 0
      · exact Or.inl (hempty.mpr hcap)
      · have hzero := hin.offset_eq_zero hcap
        exact Or.inr ⟨hzero, hwhole hzero ▸ hin.capacity⟩
    · rintro (hend | ⟨hzero, hle⟩)
      · exact contained_of_capacity_zero (hempty.mp hend) fun _ => hend ▸ UInt64.le_refl _
      · rw [← hwhole hzero] at hle
        exact contained_of_offset_zero hopen hzero hle (hwhole hzero ▸ UInt64.le_refl _)
  · have hfile : desc.kind ≠ .file := by simp [hmmap]
    rw [if_neg hfile] at hcapacity ⊢
    rw [← hcapacity]
    constructor
    · intro hin
      by_cases hcap : ep.caps.maxTransferSize = 0
      · exact Or.inl hcap
      · exact Or.inr ⟨hin.offset_eq_zero hcap, hin.capacity_le hcap⟩
    · rintro (hcap | ⟨hzero, hle⟩)
      · exact contained_of_capacity_zero hcap fun hk => absurd hk hfile
      · exact contained_of_offset_zero hopen hzero (hcapacity ▸ UInt64.le_refl _) hle

end Registered

theorem region_contained_whole :
    hundredBytes.Contained UInt64.toNat (.fileRegion "data" 0 100) (hundredBytesFile 0 100) :=
  (Platform.region_contained_iff (register_hundredBytesFile 0 100) (Or.inl rfl)).mpr
    (Or.inr ⟨rfl, by decide⟩)

/-- A region of ten bytes admits the whole file, and one behind the end of the file has a
capacity that wrapped. -/
theorem region_not_contained :
    (hundredBytes.registerEndpoint false (.fileRegion "data" 0 10) =
        .ok (hundredBytesFile 0 10) ∧
      hundredBytes.Admitted (hundredBytesFile 0 10) .dest 0 100 ∧
      (hundredBytesFile 0 10).Touches UInt64.toNat 0 100 50 ∧
      ¬ hundredBytes.Contained UInt64.toNat (.fileRegion "data" 0 10) (hundredBytesFile 0 10)) ∧
    (hundredBytes.registerEndpoint false (.fileRegion "data" 200 10) =
        .ok (hundredBytesFile 200 10) ∧
      (hundredBytesFile 200 10).caps.maxTransferSize.toNat = 2 ^ 64 - 100 ∧
      ¬ hundredBytes.Contained UInt64.toNat (.fileRegion "data" 200 10)
        (hundredBytesFile 200 10)) := by
  refine ⟨⟨register_hundredBytesFile 0 10, ?_, touches_copied (by decide) (by decide), ?_⟩,
    register_hundredBytesFile 200 10, rfl, fun hin => absurd (hin.unwrapped rfl) (by decide)⟩
  · exact hundredBytes.admitted_of_le .dest (by decide) (by decide)
  · exact fun hin => absurd hin.capacity (by decide)

end TransferFabric
