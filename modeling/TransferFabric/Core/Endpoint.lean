import TransferFabric.Core.Types

/-!
Endpoints: what a caller declares, what registration resolves it to, and the
range check a submission makes against the resolved capacity.

Registration asks the operating system for handles and mappings. Its answers
are a parameter, so nothing here depends on which files exist. The registry
the record is then stored in is not part of this module.
-/

namespace TransferFabric

inductive Capability where
  | none | readable | writable | cpuAddressable | acceleratorAddressable | supportsDma
  | directCopy | stagedCopy | asyncCopy | peerCopy | overlap | multiprocess | persistent
  | verification
  deriving DecidableEq, Repr

def Capability.bits : Capability → UInt64
  | .none => 0
  | .readable => 0x1
  | .writable => 0x2
  | .cpuAddressable => 0x4
  | .acceleratorAddressable => 0x8
  | .supportsDma => 0x10
  | .directCopy => 0x20
  | .stagedCopy => 0x40
  | .asyncCopy => 0x80
  | .peerCopy => 0x100
  | .overlap => 0x200
  | .multiprocess => 0x400
  | .persistent => 0x800
  | .verification => 0x1000

structure CapabilitySet where
  flags : UInt64 := 0
  deriving DecidableEq, Repr

def CapabilitySet.set (s : CapabilitySet) (c : Capability) : CapabilitySet :=
  { flags := s.flags ||| c.bits }

def CapabilitySet.has (s : CapabilitySet) (c : Capability) : Bool := s.flags &&& c.bits ≠ 0

def CapabilitySet.ofList (cs : List Capability) : CapabilitySet := cs.foldl CapabilitySet.set {}

structure EndpointDescriptor where
  kind : EndpointKind := .unknown
  domain : MemoryDomain := .unknown
  base : Address := 0
  size : ByteCount := 0
  offset : ByteOffset := 0
  path : String := ""
  deviceId : DeviceId := 0
  pinned : Bool := false
  deriving DecidableEq, Repr

namespace EndpointDescriptor

def hostMemory (base : Address) (size : ByteCount) (pinned : Bool := false) : EndpointDescriptor :=
  { kind := .host, domain := if pinned then .hostPinned else .hostPageable, base, size, pinned }

def deviceMemory (deviceId : DeviceId) (base : Address) (size : ByteCount) : EndpointDescriptor :=
  { kind := .device, domain := .device, deviceId, base, size }

def fileRegion (path : String) (offset : ByteOffset) (size : ByteCount) : EndpointDescriptor :=
  { kind := .file, domain := .storage, path, offset, size }

def sharedRegion (path : String) (offset : ByteOffset) (size : ByteCount) : EndpointDescriptor :=
  { kind := .shared, domain := .shared, path, offset, size }

def valid (d : EndpointDescriptor) : Bool := d.kind ≠ .unknown

end EndpointDescriptor

structure EndpointCapabilities where
  capabilities : CapabilitySet := {}
  memoryDomain : MemoryDomain := .unknown
  deviceId : DeviceId := 0
  requiredAlignment : UInt64 := 1
  maxTransferSize : ByteCount := maxByteCount
  preferredTransferSize : ByteCount := 64 * 1024
  isLocal : Bool := false
  deriving DecidableEq, Repr

structure EndpointRecord where
  desc : EndpointDescriptor := {}
  caps : EndpointCapabilities := {}
  fileHandle : Handle := 0
  shmHandle : Handle := 0
  shmMap : Address := 0
  shmLen : ByteCount := 0
  deriving DecidableEq, Repr

def capabilitiesOf : EndpointKind → List Capability
  | .host => [.readable, .writable, .cpuAddressable, .directCopy, .stagedCopy]
  | .device => [.readable, .writable, .acceleratorAddressable, .directCopy, .stagedCopy,
      .asyncCopy, .overlap, .peerCopy, .verification, .cpuAddressable]
  | .file => [.readable, .writable, .persistent, .directCopy, .stagedCopy]
  | .shared => [.readable, .writable, .cpuAddressable, .multiprocess, .directCopy]
  | .mmap => [.readable, .writable, .cpuAddressable, .directCopy]
  | .remote => [.readable, .writable, .multiprocess, .directCopy]
  | .unknown => []

def capsForKind (desc : EndpointDescriptor) : EndpointCapabilities :=
  { memoryDomain := desc.domain
    deviceId := desc.deviceId
    requiredAlignment := 16
    preferredTransferSize := if desc.kind = .device then 8 * 1024 * 1024 else 64 * 1024
    maxTransferSize := desc.size
    capabilities := .ofList (capabilitiesOf desc.kind)
    isLocal := desc.kind ≠ .remote }

/-- The answers of the operating system and of the device runtime to the calls
registration makes; `none` is a failed call. -/
structure Platform where
  /-- The components a path iterates over. -/
  components : String → List String
  createFile : String → Option Handle
  /-- The length of the file behind a handle, asked or not. -/
  fileLength : Handle → ByteCount
  /-- Whether `GetFileSizeEx` answers. -/
  sizeAnswered : Handle → Bool
  createSharedMapping : (size : UInt32) → (name : String) → Option Handle
  createFileMapping : Handle → Option Handle
  mapViewOfFile : Handle → ByteCount → Option Address
  deviceCount : DeviceId

namespace Platform

variable (os : Platform)

def getFileSizeEx (h : Handle) : Option ByteCount :=
  if os.sizeAnswered h then some (os.fileLength h) else none

def hasParentComponent (path : String) : Bool :=
  (os.components path).any fun comp => comp = ".." ∨ comp = "."

/-- The resources a descriptor names are opened and its capacity settled. -/
def openResources (desc : EndpointDescriptor) : Except Error EndpointRecord :=
  let ep : EndpointRecord := { desc, caps := capsForKind desc }
  match desc.kind with
  | .file =>
      match os.createFile desc.path with
      | none => .error { category := .backendFailure, message := "cannot open file endpoint" }
      | some h =>
          match os.getFileSizeEx h with
          | none => .error { category := .backendFailure, message := "cannot stat file" }
          | some size =>
              .ok { ep with
                fileHandle := h
                caps := { ep.caps with maxTransferSize := size - desc.offset } }
  | .shared =>
      match os.createSharedMapping desc.size.toUInt32 desc.path with
      | none => .error { category := .backendFailure, message := "cannot create shared mapping" }
      | some hMap =>
          match os.mapViewOfFile hMap desc.size with
          | none => .error { category := .backendFailure, message := "cannot map shared memory" }
          | some p =>
              .ok { ep with
                shmHandle := hMap, shmMap := p, shmLen := desc.size
                desc := { desc with base := p } }
  | .mmap =>
      match os.createFile desc.path with
      | none => .error { category := .backendFailure, message := "cannot open mmap file" }
      | some hFile =>
          match os.createFileMapping hFile with
          | none => .error { category := .backendFailure, message := "cannot map file" }
          | some hMap =>
              match os.mapViewOfFile hMap 0 with
              | none => .error { category := .backendFailure, message := "cannot map view" }
              | some p =>
                  .ok { ep with
                    fileHandle := hFile, shmHandle := hMap, shmMap := p
                    desc := { desc with base := p } }
  | _ => .ok ep

/-- `register_endpoint` up to the registry slot the record is stored in. -/
def registerEndpoint (shuttingDown : Bool) (desc : EndpointDescriptor) :
    Except Error EndpointRecord :=
  if shuttingDown then
    .error { category := .invalidRequest, message := "runtime shutting down" }
  else if ¬ desc.valid then
    .error { category := .invalidRequest, message := "invalid endpoint descriptor" }
  else if desc.kind = .file ∧ os.hasParentComponent desc.path then
    .error { category := .permissionDenied, message := "path traversal in file path" }
  else
    match os.openResources desc with
    | .error e => .error e
    | .ok ep =>
        if desc.kind = .device ∧ (os.deviceCount = 0 ∨ desc.deviceId ≥ os.deviceCount) then
          .error { category := .unsupportedPath, message := "invalid CUDA device" }
        else if desc.kind = .host ∧ desc.base = 0 then
          .error { category := .invalidRequest, message := "host endpoint needs a non-null base" }
        else if desc.kind = .device ∧ desc.base = 0 then
          .error { category := .invalidRequest
                   message := "device endpoint needs a non-null base pointer" }
        else .ok ep

end Platform

/-- The ranges a submission settles on, and the bytes it will move. -/
structure ResolvedRanges where
  src : ByteRange
  dst : ByteRange
  bytes : ByteCount
  deriving DecidableEq, Repr

def resolveRanges (se de : EndpointRecord) (src dst : ByteRange) : Except Error ResolvedRanges :=
  let srcsize := se.caps.maxTransferSize
  let dstsize := de.caps.maxTransferSize
  let src := if src.empty then { offset := 0, length := srcsize } else src
  if src.offset > srcsize ∨ src.length > srcsize - src.offset then
    .error { category := .invalidRequest, message := "source range out of bounds" }
  else
    let bytes := src.length
    let dst := if dst.empty then { offset := 0, length := bytes } else dst
    if dst.length < bytes then
      .error { category := .invalidRequest, message := "destination range too small" }
    else if dst.offset > dstsize ∨ bytes > dstsize - dst.offset then
      .error { category := .invalidRequest, message := "destination range out of bounds" }
    else .ok { src, dst, bytes }

/-- An empty source range stands for the whole source. -/
def EndpointRecord.sourceRange (se : EndpointRecord) (src : ByteRange) : ByteRange :=
  if src.empty then { offset := 0, length := se.caps.maxTransferSize } else src

/-- An empty destination range stands for the bytes to move. -/
def ByteRange.orFirst (dst : ByteRange) (bytes : ByteCount) : ByteRange :=
  if dst.empty then { offset := 0, length := bytes } else dst

/-- The check of a range against a capacity, in unbounded arithmetic. -/
theorem within_iff {offset length size : ByteCount} :
    ¬ (offset > size ∨ length > size - offset) ↔ offset.toNat + length.toNat ≤ size.toNat := by
  simp only [not_or, UInt64.not_lt, gt_iff_lt]
  constructor
  · rintro ⟨hoffset, hlength⟩
    rw [UInt64.le_iff_toNat_le, UInt64.toNat_sub_of_le _ _ hoffset] at hlength
    rw [UInt64.le_iff_toNat_le] at hoffset
    omega
  · intro hle
    have hoffset : offset ≤ size := UInt64.le_iff_toNat_le.mpr (by omega)
    refine ⟨hoffset, ?_⟩
    rw [UInt64.le_iff_toNat_le, UInt64.toNat_sub_of_le _ _ hoffset]
    omega

/-- Which ranges are accepted, in unbounded arithmetic, and what they become. -/
theorem resolveRanges_eq_ok {se de : EndpointRecord} {src dst : ByteRange} {r : ResolvedRanges} :
    resolveRanges se de src dst = .ok r ↔
      r.src = se.sourceRange src ∧ r.bytes = r.src.length ∧ r.dst = dst.orFirst r.bytes ∧
      r.src.offset.toNat + r.bytes.toNat ≤ se.caps.maxTransferSize.toNat ∧
      r.bytes.toNat ≤ r.dst.length.toNat ∧
      r.dst.offset.toNat + r.bytes.toNat ≤ de.caps.maxTransferSize.toNat := by
  have hresolve : resolveRanges se de src dst =
      if (se.sourceRange src).offset > se.caps.maxTransferSize ∨
          (se.sourceRange src).length > se.caps.maxTransferSize - (se.sourceRange src).offset then
        .error { category := .invalidRequest, message := "source range out of bounds" }
      else if (dst.orFirst (se.sourceRange src).length).length < (se.sourceRange src).length then
        .error { category := .invalidRequest, message := "destination range too small" }
      else if (dst.orFirst (se.sourceRange src).length).offset > de.caps.maxTransferSize ∨
          (se.sourceRange src).length >
            de.caps.maxTransferSize - (dst.orFirst (se.sourceRange src).length).offset then
        .error { category := .invalidRequest, message := "destination range out of bounds" }
      else .ok { src := se.sourceRange src, dst := dst.orFirst (se.sourceRange src).length
                 bytes := (se.sourceRange src).length } := rfl
  rw [hresolve]
  constructor
  · intro h
    split_ifs at h with hsrc hsmall hdst
    cases h
    rw [UInt64.not_lt, UInt64.le_iff_toNat_le] at hsmall
    exact ⟨rfl, rfl, rfl, within_iff.mp hsrc, hsmall, within_iff.mp hdst⟩
  · obtain ⟨rsrc, rdst, bytes⟩ := r
    rintro ⟨hsrc, hbytes, hdst, hin, hsmall, hout⟩
    dsimp only at hsrc hbytes hdst hin hsmall hout
    subst hsrc hbytes hdst
    rw [← UInt64.le_iff_toNat_le, ← UInt64.not_lt] at hsmall
    rw [if_neg (within_iff.mpr hin), if_neg hsmall, if_neg (within_iff.mpr hout)]

/-- Accepted ranges lie inside both capacities, in unbounded arithmetic. -/
theorem resolveRanges_bounds {se de : EndpointRecord} {src dst : ByteRange} {r : ResolvedRanges}
    (h : resolveRanges se de src dst = .ok r) :
    r.src.offset.toNat + r.bytes.toNat ≤ se.caps.maxTransferSize.toNat ∧
      r.dst.offset.toNat + r.bytes.toNat ≤ de.caps.maxTransferSize.toNat ∧
      r.src.length = r.bytes := by
  obtain ⟨-, hbytes, -, hsrc, -, hdst⟩ := resolveRanges_eq_ok.mp h
  exact ⟨hsrc, hdst, hbytes.symm⟩

end TransferFabric
