import TransferFabric.Core.Memory
import TransferFabric.Runtime.ExecutorFailure

/-!
The hash loops against a store. A file read happens at the handle's position, a
successful device read-back delivers the device's bytes, and a failed one
leaves in the buffer whatever it pleases. The loops look neither at the result of
a read-back nor at that of a seek. When none of the calls fails, what was hashed
is what the store holds.

Nobody else moves the handles' positions or writes the two ranges while they
are hashed. A side's range is taken as the verifier addresses it: from the
descriptor's offset for a file, from the base address otherwise. Whether the
copier means the same bytes is not the subject here.
-/

namespace TransferFabric

open Interaction Memory

structure HashWorld where
  store : Store Cell Byte
  pos : Handle → ByteOffset
  status : TransferStatus

def HashWorld.seek (w : HashWorld) (h : Handle) (off : ByteOffset) : HashWorld :=
  { w with pos := fun g => if g = h then off else w.pos g }

@[simp] theorem HashWorld.seek_pos (w : HashWorld) (h : Handle) (off : ByteOffset) :
    (w.seek h off).pos h = off := if_pos rfl

/-- What an operating-system call does to the world when it gives an answer. -/
def ioEffect (fileOf : Handle → Nat) : Effect IoSig HashWorld := fun w c x w' =>
  match c, x with
  | .seek h off, _ => w' = w.seek h (setFilePointer off off (w.pos h))
  | .readFile h n _, x => match x with
    | none => w'.store = w.store ∧ w'.status = w.status
    | some data => List.length data ≤ n.toNat ∧
        data = w.store.read (fileBytes fileOf h (w.pos h)) (List.length data) ∧
        w' = w.seek h (w.pos h + UInt64.ofNat (List.length data))
  | .load p n, x => x = w.store.read (memRegion p) n.toNat ∧ w' = w
  | .deviceToHost p n, r =>
      (DeviceRead.ok r = true → DeviceRead.written r = w.store.read (memRegion p) n.toNat) ∧ w' = w
  | .flushFileBuffers _, _ => w' = w
  | .writeFile .., _ | .store .., _ => w'.status = w.status

/-- What a call of the executor does to the world. -/
def verifyEffect (fileOf : Handle → Nat) : Effect ExecSig HashWorld := fun w c x w' =>
  match c, x with
  | .io _ c, x => ioEffect fileOf w c x w'
  | .status u, _ => w' = { w with status := u.apply w.status }
  | .release .., _ | .stagingPoolHit _, _ | .createStream _, _ | .destroyStream _, _ => w' = w
  | .loadCancel, _ | .canCopy .., _ | .copy .., _ | .asyncCopy .., _ | .sync .., _ =>
      w'.status = w.status

/-- The bytes a side's hash is to cover. -/
def hashRegion (fileOf : Handle → Nat) (ep : EndpointRecord) (offset : ByteOffset) : Nat → Cell :=
  if ep.desc.kind = .file then fileBytes fileOf ep.fileHandle (ep.desc.offset + offset)
  else memRegion (ep.desc.base + offset)

/-! The reads of a hash loop. -/

namespace IoEvent

/-- A call that reads, or positions a handle for a read. -/
def isRead : IoEvent → Bool
  | ⟨.seek .., _⟩ | ⟨.readFile .., _⟩ | ⟨.load .., _⟩ | ⟨.deviceToHost .., _⟩ => true
  | _ => false

/-- A failure that a hash loop does not notice: of a device read-back or of a seek. -/
def unnoticed : IoEvent → Bool
  | ⟨.deviceToHost .., r⟩ => !DeviceRead.ok r
  | ⟨.seek _ off, _⟩ => 2 ^ 63 ≤ off.toNat
  | _ => false

end IoEvent

/-- No device read-back and no seek failed. -/
def NoneUnnoticed (u : IoTrace) : Prop := u.Only fun ev => !IoEvent.unnoticed ev

theorem reads_frame {fileOf : Handle → Nat} {u : IoTrace} {w w' : HashWorld}
    (hu : u.Only IoEvent.isRead) (h : Path (ioEffect fileOf) w u w') :
    w'.store = w.store ∧ w'.status = w.status := by
  induction u generalizing w with
  | nil =>
      obtain rfl := h
      exact ⟨rfl, rfl⟩
  | cons ev u ih =>
      obtain ⟨c, x⟩ := ev
      obtain ⟨hread, hrest⟩ := Trace.only_cons.mp hu
      obtain ⟨m, heff, hpath⟩ := h
      have hm : m.store = w.store ∧ m.status = w.status := by
        cases c with
        | seek h off => exact heff ▸ ⟨rfl, rfl⟩
        | readFile h n asked =>
            cases x with
            | none => exact heff
            | some data => exact heff.2.2 ▸ ⟨rfl, rfl⟩
        | load p n => exact heff.2 ▸ ⟨rfl, rfl⟩
        | deviceToHost p n => exact heff.2 ▸ ⟨rfl, rfl⟩
        | writeFile _ _ _ | flushFileBuffers _ | store _ _ => cases hread
      obtain ⟨hstore, hstatus⟩ := ih hrest hpath
      exact ⟨hstore.trans hm.1, hstatus.trans hm.2⟩

section Stored

variable {fileOf : Handle → Nat} {ep : EndpointRecord} {offset len : ByteCount}

/-- Along every path of the world, the trace hashed the first `n` bytes stored in the region. -/
def Hashed (fileOf : Handle → Nat) (region : Nat → Cell) (n : Nat) (u : IoTrace) : Prop :=
  ∀ w w', Path (ioEffect fileOf) w u w' → hashedBytes u = w.store.read region n

theorem hashed_nil (region : Nat → Cell) : Hashed fileOf region 0 [] := fun _ _ _ => rfl

/-- A further piece of the region, read where the earlier ones ended. -/
theorem Hashed.append {region : Nat → Cell} {m n : Nat} {u₀ u : IoTrace}
    (h₀ : Hashed fileOf region m u₀) (data : List Byte) (hu₀ : u₀.Only IoEvent.isRead)
    (hbytes : hashedBytes (u₀ ++ u) = hashedBytes u₀ ++ data)
    (hdata : ∀ w w', Path (ioEffect fileOf) w u w' →
      data = w.store.read (fun k => region (m + k)) n) :
    Hashed fileOf region (m + n) (u₀ ++ u) := by
  intro w w' hpath
  obtain ⟨mid, hp₀, hp⟩ := (path_append _ _ _ _ _).mp hpath
  rw [hbytes, h₀ w mid hp₀, hdata mid w' hp, (reads_frame hu₀ hp₀).1, Store.read_add]

/-- A seek and the whole piece read after it. -/
def fileRead (ep : EndpointRecord) (offset len done : ByteCount) (data : List Byte) : IoTrace :=
  [⟨.seek ep.fileHandle (ep.desc.offset + offset + done), ()⟩,
   ⟨.readFile ep.fileHandle (pieceSize fileTmpSize len done)
    (ep.desc.offset + offset + done), some data⟩]

/-- The rule of the file loop: what each whole piece carries on holds of the whole length,
unless a read is short. -/
theorem hashFileLoop_pieces {P : Nat → IoTrace → Prop} {mode : VerificationMode} {s : HashState}
    {u : IoTrace}
    (h : Runs (forLoop (fun _ => hashFileStep ep offset len) len.toNat 0
      { hasher := Hasher.start mode }) s u)
    (h₀ : P 0 [])
    (piece : ∀ done data u₀, data.length = (pieceSize fileTmpSize len done).toNat →
      P done.toNat u₀ → P (done.toNat + data.length) (u₀ ++ fileRead ep offset len done data)) :
    s.failed = false → P len.toNat u := by
  have loop := runs_forLoop
    (I := fun i s u => i ≤ s.done.toNat ∧ s.done.toNat ≤ len.toNat ∧ P s.done.toNat u)
    (J := fun s u => s.failed = false → P len.toNat u)
    h (u := []) ⟨Nat.le_refl _, Nat.zero_le _, h₀⟩ ?_ ?_
  · simp only [List.nil_append, Nat.zero_add] at loop
    rcases loop with ⟨hlo, hhi, hP⟩ | hstop
    · exact fun _ => Nat.le_antisymm hhi hlo ▸ hP
    · exact hstop
  · rintro i s s' u₀ u _ _ ⟨hlo, hhi, hP⟩ hrun
    cases hashFileStep_cases hrun with
    | read hlt data hlen =>
        have hpos := pieceSize_pos fileTmpSize len s.done hlt (by decide)
        have hle := pieceSize_le fileTmpSize len s.done hlt
        rw [toNat_add_piece _ _ _ hlt]
        refine ⟨by omega, hle, ?_⟩
        rw [← hlen]
        exact piece s.done data u₀ hlen hP
  · rintro i s s' u₀ u _ _ ⟨hlo, hhi, hP⟩ hrun
    cases hashFileStep_cases hrun with
    | finished hge =>
        have hdone : s.done.toNat = len.toNat := by
          rw [UInt64.lt_iff_toNat_lt] at hge
          omega
        rw [List.append_nil]
        exact fun _ => hdone ▸ hP
    | short hlt x hx => exact fun h => by cases h

theorem hashFileLoop_reads {mode : VerificationMode} {s : HashState} {u : IoTrace}
    (h : Runs (forLoop (fun _ => hashFileStep ep offset len) len.toNat 0
      { hasher := Hasher.start mode }) s u) : u.Only IoEvent.isRead := by
  have loop := runs_forLoop (I := fun _ _ u => u.Only IoEvent.isRead)
    (J := fun _ u => u.Only IoEvent.isRead) h (u := []) Trace.only_nil ?_ ?_
  · rwa [List.nil_append, or_self] at loop
  · rintro i s s' u₀ u _ _ hread hrun
    cases hashFileStep_cases hrun with
    | read hlt data hlen => simp [hread, IoEvent.isRead]
  · rintro i s s' u₀ u _ _ hread hrun
    cases hashFileStep_cases hrun with
    | finished hge => simp [hread]
    | short hlt x hx => simp [hread, IoEvent.isRead]

/-- The file loop hashes what the file holds from the region's start, unless a seek fails or a
read is short. -/
theorem hashFileLoop_stored (fileOf : Handle → Nat) {mode : VerificationMode} {s : HashState}
    {u : IoTrace}
    (h : Runs (forLoop (fun _ => hashFileStep ep offset len) len.toNat 0
      { hasher := Hasher.start mode }) s u) (hs : s.failed = false) :
    NoneUnnoticed u →
      Hashed fileOf (fileBytes fileOf ep.fileHandle (ep.desc.offset + offset)) len.toNat u := by
  refine (hashFileLoop_pieces (P := fun n u => u.Only IoEvent.isRead ∧ (NoneUnnoticed u →
    Hashed fileOf (fileBytes fileOf ep.fileHandle (ep.desc.offset + offset)) n u)) h
    ⟨Trace.only_nil, fun _ => hashed_nil _⟩ ?_ hs).2
  rintro done data u₀ hlen ⟨hread, hh⟩
  refine ⟨by simp [hread, fileRead, IoEvent.isRead], fun hclean => ?_⟩
  obtain ⟨hclean₀, hclean₁⟩ := Trace.only_append.mp hclean
  refine (hh hclean₀).append data hread ?_ ?_
  · simp only [fileRead, hashedBytes, hashView_append, List.foldl_cons, List.foldl_nil,
      HashView.step]
  · rintro w w' ⟨m, rfl, m', ⟨-, hdata, -⟩, -⟩
    have hseek : (ep.desc.offset + offset + done).toNat < 2 ^ 63 := by
      simpa [IoEvent.unnoticed, fileRead] using hclean₁
    rw [HashWorld.seek_pos, setFilePointer, if_pos hseek] at hdata
    refine hdata.trans (Store.read_congr fun k _ => ?_)
    exact fileBytes_add fileOf _ _ _ k

/-- The rule of the device loop. -/
theorem hashDeviceLoop_pieces {P : Nat → IoTrace → Prop} {mode : VerificationMode}
    {s : DeviceHashState} {u : IoTrace}
    (h : Runs (forLoop (fun _ => hashDeviceStep ep offset len) len.toNat 0
      { hasher := Hasher.start mode, buf := List.replicate deviceTmpSize.toNat 0 }) s u)
    (h₀ : P 0 [])
    (piece : ∀ done n (r : DeviceRead) u₀, P done.toNat u₀ → P (done.toNat + n.toNat)
      (u₀ ++ [⟨.deviceToHost (ep.desc.base + (offset + done)) n, r⟩])) : P len.toNat u := by
  have loop := runs_forLoop
    (I := fun i s u => i ≤ s.done.toNat ∧ s.done.toNat ≤ len.toNat ∧ P s.done.toNat u)
    (J := fun _ u => P len.toNat u) h (u := []) ⟨Nat.le_refl _, Nat.zero_le _, h₀⟩ ?_ ?_
  · simp only [List.nil_append, Nat.zero_add] at loop
    rcases loop with ⟨hlo, hhi, hP⟩ | hstop
    · exact Nat.le_antisymm hhi hlo ▸ hP
    · exact hstop
  · rintro i s s' u₀ u _ _ ⟨hlo, hhi, hP⟩ hrun
    cases hashDeviceStep_cases hrun with
    | read hlt r n hn =>
        subst hn
        have hpos := pieceSize_pos deviceTmpSize len s.done hlt (by decide)
        have hle := pieceSize_le deviceTmpSize len s.done hlt
        rw [toNat_add_piece _ _ _ hlt]
        exact ⟨by omega, hle, piece s.done _ r u₀ hP⟩
  · rintro i s s' u₀ u _ _ ⟨hlo, hhi, hP⟩ hrun
    cases hashDeviceStep_cases hrun with
    | finished hge =>
        have hdone : s.done.toNat = len.toNat := by
          rw [UInt64.lt_iff_toNat_lt] at hge
          omega
        rw [List.append_nil]
        exact hdone ▸ hP

/-- The device loop hashes what the device holds, unless a read-back fails. -/
theorem hashDeviceLoop_stored (fileOf : Handle → Nat) {mode : VerificationMode}
    {s : DeviceHashState} {u : IoTrace}
    (h : Runs (forLoop (fun _ => hashDeviceStep ep offset len) len.toNat 0
      { hasher := Hasher.start mode, buf := List.replicate deviceTmpSize.toNat 0 }) s u) :
    u.Only IoEvent.isRead ∧ (NoneUnnoticed u →
      Hashed fileOf (memRegion (ep.desc.base + offset)) len.toNat u) := by
  refine hashDeviceLoop_pieces (P := fun n u => u.Only IoEvent.isRead ∧ (NoneUnnoticed u →
    Hashed fileOf (memRegion (ep.desc.base + offset)) n u)) h
    ⟨Trace.only_nil, fun _ => hashed_nil _⟩ ?_
  rintro done n r u₀ ⟨hread, hh⟩
  refine ⟨by simp [hread, IoEvent.isRead], fun hclean => ?_⟩
  obtain ⟨hclean₀, hclean₁⟩ := Trace.only_append.mp hclean
  have hok : r.ok = true := by simpa [IoEvent.unnoticed] using hclean₁
  refine (hh hclean₀).append ((r.into n.toNat (hashView u₀).buf).take n.toNat) hread ?_ ?_
  · simp only [hashedBytes, hashView_append, List.foldl_cons, List.foldl_nil, HashView.step]
  · rintro w w' ⟨m, ⟨hdata, rfl⟩, -⟩
    have hwritten := hdata hok
    have hlen : r.written.length = n.toNat := by
      rw [hwritten, Store.length_read]
    rw [DeviceRead.into, ← hlen, List.take_length, List.take_left, hlen, hwritten]
    refine Store.read_congr fun k _ => ?_
    rw [← UInt64.add_assoc, memRegion_add]

/-- Hashing only reads, and when no read fails it hashes what the side's range holds. -/
theorem hashEndpointRegion_stored (fileOf : Handle → Nat) {mode : VerificationMode} {e : Error}
    {d : List Byte} {u : IoTrace} (hm : mode ≠ .none) (hlen : len ≠ 0)
    (h : Runs (hashEndpointRegion ep offset len mode) (e, d) u) :
    u.Only IoEvent.isRead ∧ (IoClean u → NoneUnnoticed u →
      Hashed fileOf (hashRegion fileOf ep offset) len.toNat u) := by
  unfold hashEndpointRegion at h
  unfold hashRegion
  rw [if_neg (by simp [hm, hlen])] at h
  split at h
  · rename_i hfile
    obtain ⟨s, u₁, u₂, rfl, hloop, hend⟩ := (runs_bind _ _ _ _).mp h
    obtain rfl : u₂ = [] := by split at hend <;> exact hend.2
    rw [List.append_nil, if_pos hfile]
    refine ⟨hashFileLoop_reads hloop, fun hc => hashFileLoop_stored fileOf hloop ?_⟩
    rcases hashFileLoop_trace hloop with ⟨hs, -, -⟩ | ⟨-, hbad⟩
    · exact hs
    · exact absurd hc hbad
  · rename_i hfile
    rw [if_neg hfile]
    split at h
    · obtain ⟨s, u₁, u₂, rfl, hloop, -, rfl⟩ := (runs_bind _ _ _ _).mp h
      obtain ⟨hread, hh⟩ := hashDeviceLoop_stored fileOf hloop
      rw [List.append_nil]
      exact ⟨hread, fun _ => hh⟩
    · obtain ⟨data, rest, rfl, -, rfl⟩ := (runs_request_bind (S := IoSig) _ _ _ _).mp h
      refine ⟨by simp [IoEvent.isRead], fun _ _ => ?_⟩
      rintro w w' ⟨m, ⟨hdata, -⟩, -⟩
      exact hdata

end Stored

theorem path_liftIo {fileOf : Handle → Nat} {site : IoSite} {u : IoTrace} {w w' : HashWorld} :
    Path (verifyEffect fileOf) w (u.map (liftIo site)) w' ↔ Path (ioEffect fileOf) w u w' := by
  induction u generalizing w with
  | nil => rfl
  | cons ev u ih => exact exists_congr fun m => and_congr_right fun _ => ih

end TransferFabric
