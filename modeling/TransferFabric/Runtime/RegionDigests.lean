import TransferFabric.Core.Crc32cDivision
import TransferFabric.Runtime.Verification

/-!
What the digest of a region says. It depends on the bytes of the region and on
nothing else: not on whether a file, a device or memory holds them, nor on the
pieces they are read in. A CRC-32C digest tells apart regions that differ in up
to four bytes in a row.

Reads that fail are not the subject here: a short file read is reported, a
failed device read-back is not.
-/

namespace TransferFabric

open Interaction Memory

/-! Bursts. -/

/-- Byte strings of one length that agree outside four bytes from `i` on. -/
structure Burst (i : Nat) (a b : List Byte) : Prop where
  length : a.length = b.length
  outside : ∀ k, k < i ∨ i + 4 ≤ k → a[k]? = b[k]?

namespace Burst

variable {i : Nat} {a b : List Byte}

theorem take_eq (h : Burst i a b) : a.take i = b.take i := by
  refine List.ext_getElem? fun k => ?_
  rw [List.getElem?_take, List.getElem?_take]
  split
  · rename_i hk
    exact h.outside k (Or.inl hk)
  · rfl

theorem drop_eq (h : Burst i a b) : a.drop (i + 4) = b.drop (i + 4) := by
  refine List.ext_getElem? fun k => ?_
  rw [List.getElem?_drop, List.getElem?_drop]
  exact h.outside _ (Or.inr (Nat.le_add_right _ _))

theorem crc_ne (h : Burst i a b) (hne : a ≠ b) : Crc32c.compute a ≠ Crc32c.compute b := by
  have hsplit : ∀ l : List Byte, l = l.take i ++ ((l.drop i).take 4 ++ l.drop (i + 4)) := by
    intro l
    rw [← List.drop_drop, List.take_append_drop, List.take_append_drop]
  have hlen : ((a.drop i).take 4).length = ((b.drop i).take 4).length := by
    rw [List.length_take, List.length_take, List.length_drop, List.length_drop, h.length]
  intro heq
  have hupdate : Crc32c.update Crc32c.initial a = Crc32c.update Crc32c.initial b :=
    UInt32.not_inj.mp heq
  rw [hsplit a, hsplit b, Crc32c.update_append _ (a.take i), Crc32c.update_append _ (b.take i),
    h.take_eq, h.drop_eq] at hupdate
  have hwindow := Crc32c.update_burst hlen (List.length_take_le _ _) hupdate
  exact hne (by rw [hsplit a, hsplit b, h.take_eq, h.drop_eq, hwindow])

end Burst

theorem crcByte_toNat (v : UInt32) (i : Nat) (hi : i < 4) :
    ((v >>> UInt32.ofNat (8 * i)) &&& 0xFF).toUInt8.toNat = v.toNat / 2 ^ (8 * i) % 256 := by
  have hshift : (UInt32.ofNat (8 * i)).toNat % 32 = 8 * i := by
    rw [UInt32.toNat_ofNat']
    omega
  rw [UInt32.toNat_toUInt8, UInt32.toNat_and, UInt32.toNat_shiftRight, hshift,
    Nat.shiftRight_eq_div_pow, show (0xFF : UInt32).toNat = 2 ^ 8 - 1 from rfl,
    Nat.and_two_pow_sub_one_eq_mod, Nat.mod_mod]

/-- The four bytes in front of a CRC digest determine the value. -/
theorem digestOf_crc_ne {a b : List Byte} (h : Crc32c.compute a ≠ Crc32c.compute b) :
    digestOf .crc32c a ≠ digestOf .crc32c b := by
  intro heq
  have hbytes := List.append_inj_left heq (by simp)
  have hbyte : ∀ i < 4, (Crc32c.compute a).toNat / 2 ^ (8 * i) % 256 =
      (Crc32c.compute b).toNat / 2 ^ (8 * i) % 256 := by
    intro i hi
    rw [← crcByte_toNat _ i hi, ← crcByte_toNat _ i hi]
    exact congrArg UInt8.toNat (List.map_inj_left.mp hbytes i (List.mem_range.mpr hi))
  refine h (UInt32.toNat_inj.mp ?_)
  have ha := (Crc32c.compute a).toNat_lt
  have hb := (Crc32c.compute b).toNat_lt
  have h₀ := hbyte 0 (by decide)
  have h₁ := hbyte 1 (by decide)
  have h₂ := hbyte 2 (by decide)
  have h₃ := hbyte 3 (by decide)
  omega

/-- A corruption of up to four bytes in a row changes the value, the digest, and the outcome of
every verification that hashes the two contents. -/
theorem burst_exposed {a b : List Byte} (hlen : a.length = b.length) (hne : a ≠ b) (i : Nat)
    (hsame : ∀ k, k < i ∨ i + 4 ≤ k → a[k]? = b[k]?) :
    Crc32c.compute a ≠ Crc32c.compute b ∧ digestOf .crc32c a ≠ digestOf .crc32c b ∧
      ∀ (ctx : RunContext) (r : Error) (t : ExecTrace), ctx.effectiveMode = .crc32c →
        Runs ctx.verify r t → hashed .hashSource t = a → hashed .hashDest t = b →
        r.ok = false := by
  have hcrc := (⟨hlen, hsame⟩ : Burst i a b).crc_ne hne
  have hdigest := digestOf_crc_ne hcrc
  refine ⟨hcrc, hdigest, fun ctx r t hmode hrun hsource hdest => ?_⟩
  have hiff := (RunContext.verify_cases hrun).ok_iff
  rw [RunContext.DigestsAgree, hmode, hsource, hdest] at hiff
  rw [← Bool.not_eq_true, hiff]
  exact fun h => hdigest h.2

/-- One bit of the last of six bytes. -/
theorem burst_exposed_six :
    Crc32c.compute [1, 2, 3, 4, 5, 6] ≠ Crc32c.compute [1, 2, 3, 4, 5, 7] := by
  have hsame : ∀ k, k < 3 ∨ 3 + 4 ≤ k →
      ([1, 2, 3, 4, 5, 6] : List Byte)[k]? = [1, 2, 3, 4, 5, 7][k]? := by
    intro k hk
    rcases hk with hk | hk
    · have hall : ∀ k < 3, ([1, 2, 3, 4, 5, 6] : List Byte)[k]? = [1, 2, 3, 4, 5, 7][k]? := by
        decide
      exact hall k hk
    · rw [List.getElem?_eq_none (Nat.le_trans (by decide) hk),
        List.getElem?_eq_none (Nat.le_trans (by decide) hk)]
  exact (burst_exposed (by rfl) (by decide) 3 hsame).1

/-! Regions. -/

theorem Hasher.length_digest (h : Hasher) : h.digest.length = 32 := by
  cases h with
  | crc c => simp [digest, crcDigest]
  | sha s => simp [digest, Sha256.digest, Sha256.stateBytes]

/-- The bytes a read is for. -/
def IoEvent.cells (fileOf : Handle → Nat) : IoEvent → List Cell
  | ⟨.readFile h n pos, _⟩ => (List.range n.toNat).map (fileBytes fileOf h pos)
  | ⟨.deviceToHost p n, _⟩ | ⟨.load p n, _⟩ => (List.range n.toNat).map (memRegion p)
  | _ => []

/-- The bytes a trace reads, in the order it reads them. -/
def cellsRead (fileOf : Handle → Nat) (u : IoTrace) : List Cell :=
  u.flatMap (IoEvent.cells fileOf)

theorem cellsRead_append (fileOf : Handle → Nat) (u v : IoTrace) :
    cellsRead fileOf (u ++ v) = cellsRead fileOf u ++ cellsRead fileOf v := List.flatMap_append

/-- The trace reads the first `n` bytes of a region, each once and in order. -/
def Covers (fileOf : Handle → Nat) (region : Nat → Cell) (n : Nat) (u : IoTrace) : Prop :=
  cellsRead fileOf u = (List.range n).map region

section Covers

variable {fileOf : Handle → Nat} {ep : EndpointRecord} {offset len : ByteCount}
  {mode : VerificationMode}

theorem Covers.append {region : Nat → Cell} {m n : Nat} {u₀ u : IoTrace}
    (h : Covers fileOf region m u₀)
    (hu : cellsRead fileOf u = (List.range n).map fun k => region (m + k)) :
    Covers fileOf region (m + n) (u₀ ++ u) := by
  rw [Covers, cellsRead_append, h, hu, List.range_add, List.map_append, List.map_map]
  rfl

theorem hashFileLoop_covers {s : HashState} {u : IoTrace}
    (h : Runs (forLoop (fun _ => hashFileStep ep offset len) len.toNat 0
      { hasher := Hasher.start mode }) s u) (hs : s.failed = false) :
    Covers fileOf (fileBytes fileOf ep.fileHandle (ep.desc.offset + offset)) len.toNat u := by
  refine hashFileLoop_pieces h rfl (fun done data u₀ hlen hcov => hcov.append ?_) hs
  rw [hlen, fileRead, cellsRead, List.flatMap_cons, List.flatMap_cons, List.flatMap_nil]
  simp only [IoEvent.cells, List.nil_append, List.append_nil]
  exact List.map_congr_left fun k _ => fileBytes_add fileOf _ _ _ k

theorem hashDeviceLoop_covers {s : DeviceHashState} {u : IoTrace}
    (h : Runs (forLoop (fun _ => hashDeviceStep ep offset len) len.toNat 0
      { hasher := Hasher.start mode, buf := List.replicate deviceTmpSize.toNat 0 }) s u) :
    Covers fileOf (memRegion (ep.desc.base + offset)) len.toNat u := by
  refine hashDeviceLoop_pieces h rfl fun done n r u₀ hcov => hcov.append ?_
  rw [cellsRead, List.flatMap_singleton]
  refine List.map_congr_left fun k _ => ?_
  rw [← UInt64.add_assoc, memRegion_add]

theorem hashEndpointRegion_covers {e : Error} {d : List Byte} {u : IoTrace} (hm : mode ≠ .none)
    (hlen : len ≠ 0) (h : Runs (hashEndpointRegion ep offset len mode) (e, d) u)
    (hc : IoClean u) : Covers fileOf (hashRegion fileOf ep offset) len.toNat u := by
  unfold hashEndpointRegion at h
  unfold hashRegion
  rw [if_neg (by simp [hm, hlen])] at h
  split at h
  · rename_i hfile
    obtain ⟨s, u₁, u₂, rfl, hloop, hend⟩ := (runs_bind _ _ _ _).mp h
    obtain rfl : u₂ = [] := by split at hend <;> exact hend.2
    rw [List.append_nil] at hc ⊢
    rw [if_pos hfile]
    rcases hashFileLoop_trace hloop with ⟨hs, -, -⟩ | ⟨-, hbad⟩
    · exact hashFileLoop_covers hloop hs
    · exact absurd hc hbad
  · rename_i hfile
    rw [if_neg hfile]
    split at h
    · obtain ⟨s, u₁, u₂, rfl, hloop, -, rfl⟩ := (runs_bind _ _ _ _).mp h
      rw [List.append_nil]
      exact hashDeviceLoop_covers hloop
    · obtain ⟨data, rest, rfl, -, rfl⟩ := (runs_request_bind (S := IoSig) _ _ _ _).mp h
      exact List.flatMap_singleton _ _

/-- More iterations than bytes change nothing: each iteration takes at least one byte, and the
one after the last byte leaves the loop. -/
theorem hashFileLoop_more (ep : EndpointRecord) (offset len : ByteCount) (m : Nat)
    (s : HashState) :
    forLoop (fun _ => hashFileStep ep offset len) (len.toNat + m) 0 s =
      forLoop (fun _ => hashFileStep ep offset len) len.toNat 0 s := by
  refine forLoop_more (I := fun i s => i ≤ s.done.toNat) m (Nat.zero_le _) ?_ ?_
  · intro i s s' t hi hrun
    cases hashFileStep_cases hrun with
    | read hlt data hlen =>
        have hpos := pieceSize_pos fileTmpSize len s.done hlt (by decide)
        rw [toNat_add_piece _ _ _ hlt]
        omega
  · intro i s hi
    refine if_neg fun hlt => ?_
    rw [UInt64.lt_iff_toNat_lt] at hlt
    omega

theorem hashDeviceLoop_more (ep : EndpointRecord) (offset len : ByteCount) (m : Nat)
    (s : DeviceHashState) :
    forLoop (fun _ => hashDeviceStep ep offset len) (len.toNat + m) 0 s =
      forLoop (fun _ => hashDeviceStep ep offset len) len.toNat 0 s := by
  refine forLoop_more (I := fun i s => i ≤ s.done.toNat) m (Nat.zero_le _) ?_ ?_
  · intro i s s' t hi hrun
    cases hashDeviceStep_cases hrun with
    | read hlt r n hn =>
        subst hn
        have hpos := pieceSize_pos deviceTmpSize len s.done hlt (by decide)
        rw [toNat_add_piece _ _ _ hlt]
        omega
  · intro i s hi
    refine if_neg fun hlt => ?_
    rw [UInt64.lt_iff_toNat_lt] at hlt
    omega

end Covers

/-- Hashing a region in a world, with every read and seek successful. -/
structure RegionRun (fileOf : Handle → Nat) (ep : EndpointRecord) (offset len : ByteCount)
    (mode : VerificationMode) (w : HashWorld) (e : Error) (d : List Byte) (u : IoTrace) :
    Prop where
  runs : Runs (hashEndpointRegion ep offset len mode) (e, d) u
  path : ∃ w', Path (ioEffect fileOf) w u w'
  files : IoClean u
  noticed : NoneUnnoticed u

/-- The digest of a region's content: zero where nothing is to be hashed. -/
def contentDigest (mode : VerificationMode) (data : List Byte) : List Byte :=
  if mode = .none ∨ data = [] then zeroDigest else digestOf mode data

theorem length_contentDigest (mode : VerificationMode) (data : List Byte) :
    (contentDigest mode data).length = 32 := by
  unfold contentDigest
  split
  · exact List.length_replicate
  · rw [digestOf_eq, Hasher.length_digest]

namespace RegionRun

variable {fileOf : Handle → Nat} {ep : EndpointRecord} {offset len : ByteCount}
  {mode : VerificationMode} {w : HashWorld} {e : Error} {d : List Byte} {u : IoTrace}

/-- What one run does: it succeeds with the digest of the content, and reads what it hashes. -/
theorem digest (h : RegionRun fileOf ep offset len mode w e d u) :
    e.ok = true ∧
      d = contentDigest mode (w.store.read (hashRegion fileOf ep offset) len.toNat) ∧
      (mode ≠ .none → Covers fileOf (hashRegion fileOf ep offset) len.toNat u) := by
  obtain ⟨w', hpath⟩ := h.path
  by_cases hskip : mode = .none ∨ len = 0
  · have hrun := h.runs
    rw [hashEndpointRegion, if_pos hskip] at hrun
    obtain ⟨heq, rfl⟩ := hrun
    cases heq
    refine ⟨rfl, ?_, fun hm => ?_⟩
    · rw [contentDigest, if_pos]
      exact hskip.imp_right fun hl => by rw [hl]; rfl
    · rw [hskip.resolve_left hm]
      rfl
  · obtain ⟨hm, hlen⟩ := not_or.mp hskip
    obtain ⟨hok, hd⟩ := hashEndpointRegion_trace hm hlen h.runs
    have hbytes := (hashEndpointRegion_stored fileOf hm hlen h.runs).2 h.files h.noticed w w' hpath
    refine ⟨hok.mpr h.files, ?_, fun _ => hashEndpointRegion_covers hm hlen h.runs h.files⟩
    rw [hd (hok.mpr h.files), hbytes, contentDigest, if_neg]
    intro hor
    have hempty := congrArg List.length (hor.resolve_left hm)
    rw [Store.length_read] at hempty
    exact hlen (UInt64.toNat_inj.mp hempty)

end RegionRun

/-- Two endpoints of any kinds whose regions hold the same bytes have one digest; each run reads
its region once and in order, and neither loop is cut short by the bound on its iterations. -/
theorem region_digest_same {fileOf : Handle → Nat} {ep ep' : EndpointRecord}
    {offset offset' len : ByteCount} {mode : VerificationMode} {w v : HashWorld} {e e' : Error}
    {d d' : List Byte} {u u' : IoTrace} (h : RegionRun fileOf ep offset len mode w e d u)
    (h' : RegionRun fileOf ep' offset' len mode v e' d' u')
    (hsame : w.store.read (hashRegion fileOf ep offset) len.toNat =
      v.store.read (hashRegion fileOf ep' offset') len.toNat) :
    e.ok = true ∧ e'.ok = true ∧ d = d' ∧ d.length = 32 ∧
      (mode ≠ .none → Covers fileOf (hashRegion fileOf ep offset) len.toNat u ∧
        Covers fileOf (hashRegion fileOf ep' offset') len.toNat u') ∧
      (∀ m s, forLoop (fun _ => hashFileStep ep offset len) (len.toNat + m) 0 s =
        forLoop (fun _ => hashFileStep ep offset len) len.toNat 0 s) ∧
      ∀ m s, forLoop (fun _ => hashDeviceStep ep offset len) (len.toNat + m) 0 s =
        forLoop (fun _ => hashDeviceStep ep offset len) len.toNat 0 s := by
  obtain ⟨hok, hd, hcov⟩ := h.digest
  obtain ⟨hok', hd', hcov'⟩ := h'.digest
  refine ⟨hok, hok', ?_, ?_, fun hm => ⟨hcov hm, hcov' hm⟩,
    hashFileLoop_more ep offset len, hashDeviceLoop_more ep offset len⟩
  · rw [hd, hd', hsame]
  · rw [hd, length_contentDigest]

def sixteenInFile : EndpointRecord := { desc := .fileRegion "region" 0 16, fileHandle := 3 }

def sixteenInMemory : EndpointRecord := { desc := .hostMemory 0x10000 16 }

/-- The file is read in one piece. -/
theorem exists_run_sixteenInFile :
    ∃ e d u, RegionRun UInt64.toNat sixteenInFile 0 16 .crc32c sevens e d u := by
  refine ⟨{}, digestOf .crc32c (List.replicate 16 7),
    [⟨.seek 3 0, ()⟩, ⟨.readFile 3 16 0, some (List.replicate 16 7)⟩], ?_, ?_, ?_, ?_⟩
  · exact ⟨(), _, rfl, some _, _, rfl, rfl, rfl⟩
  · exact ⟨_, _, rfl, _, ⟨by decide, rfl, rfl⟩, rfl⟩
  · simp [IoClean, ExecEvent.shortRead]
  · simp [NoneUnnoticed, IoEvent.unnoticed]

theorem exists_run_sixteenInMemory :
    ∃ e d u, RegionRun UInt64.toNat sixteenInMemory 0 16 .crc32c sevens e d u := by
  refine ⟨{}, digestOf .crc32c (List.replicate 16 7),
    [⟨.load 0x10000 16, (List.replicate 16 7 : List Byte)⟩], ?_, ?_, ?_, ?_⟩
  · exact ⟨_, _, rfl, rfl, rfl⟩
  · exact ⟨_, _, ⟨rfl, rfl⟩, rfl⟩
  · simp [IoClean, ExecEvent.shortRead]
  · simp [NoneUnnoticed, IoEvent.unnoticed]

/-- Sixteen equal bytes in a file and in memory. -/
theorem region_digest_same_sixteen : ∃ e e' d u u',
    RegionRun UInt64.toNat sixteenInFile 0 16 .crc32c sevens e d u ∧
      RegionRun UInt64.toNat sixteenInMemory 0 16 .crc32c sevens e' d u' := by
  obtain ⟨e, d, u, h⟩ := exists_run_sixteenInFile
  obtain ⟨e', d', u', h'⟩ := exists_run_sixteenInMemory
  obtain ⟨-, -, rfl, -⟩ := region_digest_same h h' rfl
  exact ⟨e, e', d, u, u', h, h'⟩

end TransferFabric
