import TransferFabric.Runtime.ExecutorTrace

/-!
The traces of the verification phase. `hashedBytes` reads off a trace the
bytes the hash loops actually fed to the hasher: what a file read returned, what
memory held, and, for a device, what the read-back left in the loop's own
buffer, whether or not the read-back succeeded. The digest a loop reports is
the digest of these bytes, and verification succeeds exactly when no file read
was short and the two digests agree.
-/

namespace TransferFabric

open Interaction

abbrev IoEvent := Event IoSig
abbrev IoTrace := Trace IoSig

/-- No file read failed or came back short. -/
def IoClean (u : IoTrace) : Prop := u.Only fun ev => !ExecEvent.shortRead ev.1 ev.2

/-- The loop buffer of the device branch, and the bytes hashed so far. -/
structure HashView where
  buf : List Byte
  bytes : List Byte

namespace HashView

def initial : HashView := { buf := List.replicate deviceTmpSize.toNat 0, bytes := [] }

def step (v : HashView) : IoEvent → HashView
  | ⟨.readFile .., x⟩ => match x with
    | some data => { v with bytes := v.bytes ++ data }
    | none => v
  | ⟨.load .., x⟩ =>
      let data : List Byte := x
      { v with bytes := v.bytes ++ data }
  | ⟨.deviceToHost _ n, r⟩ =>
      let buf := DeviceRead.into r n.toNat v.buf
      { buf, bytes := v.bytes ++ buf.take n.toNat }
  | ⟨.seek .., _⟩ | ⟨.writeFile .., _⟩ | ⟨.flushFileBuffers _, _⟩ | ⟨.store .., _⟩ => v

end HashView

def hashView (u : IoTrace) : HashView := u.foldl HashView.step .initial

/-- The bytes a hashing trace fed to its hasher. -/
def hashedBytes (u : IoTrace) : List Byte := (hashView u).bytes

theorem hashView_append (u v : IoTrace) :
    hashView (u ++ v) = v.foldl HashView.step (hashView u) := List.foldl_append

namespace Hasher

/-- The SHA-256 buffer holds less than a block between updates. -/
def Ready : Hasher → Prop
  | .crc _ => True
  | .sha s => s.buffer.length < 64

theorem start_ready (mode : VerificationMode) : (start mode).Ready := by
  unfold start
  split
  · trivial
  · exact Nat.zero_lt_succ _

theorem update_ready {h : Hasher} (data : List Byte) (hr : h.Ready) : (h.update data).Ready := by
  cases h with
  | crc c => trivial
  | sha s => exact Sha256.update_buffer s data hr

theorem update_append {h : Hasher} (a b : List Byte) (hr : h.Ready) :
    (h.update a).update b = h.update (a ++ b) := by
  cases h with
  | crc c => exact congrArg crc (Crc32c.update_append c a b).symm
  | sha s => exact congrArg sha (Sha256.update_append s a b hr).symm

theorem update_nil (mode : VerificationMode) : (start mode).update [] = start mode := by
  unfold start
  split <;> rfl

end Hasher

theorem pieceSize_le (tmpSz len done : ByteCount) (h : done < len) :
    done.toNat + (pieceSize tmpSz len done).toNat ≤ len.toNat := by
  have hsub : (len - done).toNat = len.toNat - done.toNat :=
    UInt64.toNat_sub_of_le _ _ (UInt64.le_of_lt h)
  have hlt := UInt64.lt_iff_toNat_lt.mp h
  unfold pieceSize
  split
  · rename_i hgt
    have := UInt64.lt_iff_toNat_lt.mp hgt
    omega
  · omega

theorem pieceSize_pos (tmpSz len done : ByteCount) (h : done < len) (ht : tmpSz ≠ 0) :
    0 < (pieceSize tmpSz len done).toNat := by
  have hsub : (len - done).toNat = len.toNat - done.toNat :=
    UInt64.toNat_sub_of_le _ _ (UInt64.le_of_lt h)
  have hlt := UInt64.lt_iff_toNat_lt.mp h
  have := (toNat_ne_zero tmpSz).mpr ht
  unfold pieceSize
  split <;> omega

/-- A piece advances the loop counter without wrapping. -/
theorem toNat_add_piece (tmpSz len done : ByteCount) (h : done < len) :
    (done + pieceSize tmpSz len done).toNat = done.toNat + (pieceSize tmpSz len done).toNat := by
  have := pieceSize_le tmpSz len done h
  have := len.toNat_lt
  exact toNat_add_of_lt _ _ (by omega)

section Region

variable {ep : EndpointRecord} {offset len : ByteCount}

/-- Everything one iteration of the file branch can do. -/
inductive HashFileRun (ep : EndpointRecord) (offset len : ByteCount) (s : HashState) :
    Flow HashState → IoTrace → Prop
  | finished (h : ¬ s.done < len) : HashFileRun ep offset len s (.stop s) []
  | short (h : s.done < len) (x : Option (List Byte))
      (hx : ExecEvent.shortRead (.readFile ep.fileHandle (pieceSize fileTmpSize len s.done)
        (ep.desc.offset + offset + s.done)) x = true) :
      HashFileRun ep offset len s (.stop { s with failed := true })
        [⟨.seek ep.fileHandle (ep.desc.offset + offset + s.done), ()⟩,
         ⟨.readFile ep.fileHandle (pieceSize fileTmpSize len s.done)
          (ep.desc.offset + offset + s.done), x⟩]
  | read (h : s.done < len) (data : List Byte)
      (hlen : data.length = (pieceSize fileTmpSize len s.done).toNat) :
      HashFileRun ep offset len s
        (.next { s with
          hasher := s.hasher.update data, done := s.done + pieceSize fileTmpSize len s.done })
        [⟨.seek ep.fileHandle (ep.desc.offset + offset + s.done), ()⟩,
         ⟨.readFile ep.fileHandle (pieceSize fileTmpSize len s.done)
          (ep.desc.offset + offset + s.done), some data⟩]

theorem hashFileStep_cases {s : HashState} {f : Flow HashState} {u : IoTrace}
    (h : Runs (hashFileStep ep offset len s) f u) : HashFileRun ep offset len s f u := by
  unfold hashFileStep at h
  by_cases hlt : s.done < len
  · rw [if_pos hlt] at h
    obtain ⟨⟨⟩, rest, rfl, hseek⟩ := (runs_request_bind (S := IoSig) _ _ _ _).mp h
    obtain ⟨x, rest', rfl, hread⟩ := (runs_request_bind (S := IoSig) _ _ _ _).mp hseek
    clear h hseek
    rcases x with _ | data
    · obtain ⟨rfl, rfl⟩ := hread
      exact .short hlt none rfl
    · by_cases hlen : data.length = (pieceSize fileTmpSize len s.done).toNat
      · simp only [if_pos hlen] at hread
        obtain ⟨rfl, rfl⟩ := hread
        exact .read hlt data hlen
      · simp only [if_neg hlen] at hread
        obtain ⟨rfl, rfl⟩ := hread
        exact .short hlt (some data) (by simp [ExecEvent.shortRead, hlen])
  · rw [if_neg hlt] at h
    obtain ⟨rfl, rfl⟩ := h
    exact .finished hlt

/-- Everything one iteration of the device branch can do. -/
inductive HashDeviceRun (ep : EndpointRecord) (offset len : ByteCount) (s : DeviceHashState) :
    Flow DeviceHashState → IoTrace → Prop
  | finished (h : ¬ s.done < len) : HashDeviceRun ep offset len s (.stop s) []
  | read (h : s.done < len) (r : DeviceRead) (n : ByteCount)
      (hn : n = pieceSize deviceTmpSize len s.done) :
      HashDeviceRun ep offset len s
        (.next { s with
          buf := r.into n.toNat s.buf
          hasher := s.hasher.update ((r.into n.toNat s.buf).take n.toNat)
          done := s.done + n })
        [⟨.deviceToHost (ep.desc.base + (offset + s.done)) n, r⟩]

theorem hashDeviceStep_cases {s : DeviceHashState} {f : Flow DeviceHashState} {u : IoTrace}
    (h : Runs (hashDeviceStep ep offset len s) f u) : HashDeviceRun ep offset len s f u := by
  unfold hashDeviceStep at h
  by_cases hlt : s.done < len
  · rw [if_pos hlt] at h
    obtain ⟨r, rest, rfl, rfl, rfl⟩ := (runs_request_bind (S := IoSig) _ _ _ _).mp h
    exact .read hlt r _ rfl
  · rw [if_neg hlt] at h
    obtain ⟨rfl, rfl⟩ := h
    exact .finished hlt

/-- The file loop: it ends with every byte hashed, or on a short read. -/
theorem hashFileLoop_trace {mode : VerificationMode} {s : HashState} {u : IoTrace}
    (h : Runs (forLoop (fun _ => hashFileStep ep offset len) len.toNat 0
      { hasher := Hasher.start mode }) s u) :
    (s.failed = false ∧ IoClean u ∧ s.hasher = (Hasher.start mode).update (hashedBytes u)) ∨
      (s.failed = true ∧ ¬ IoClean u) := by
  have loop := runs_forLoop
    (I := fun _ s u => s.failed = false ∧ IoClean u ∧ s.hasher.Ready ∧
      s.hasher = (Hasher.start mode).update (hashedBytes u))
    (J := fun s u =>
      (s.failed = false ∧ IoClean u ∧ s.hasher = (Hasher.start mode).update (hashedBytes u)) ∨
        (s.failed = true ∧ ¬ IoClean u))
    h (u := []) ⟨rfl, Trace.only_nil, Hasher.start_ready mode, (Hasher.update_nil mode).symm⟩ ?_ ?_
  · simp only [List.nil_append] at loop
    rcases loop with ⟨hs, hc, -, hh⟩ | hstop
    · exact Or.inl ⟨hs, hc, hh⟩
    · exact hstop
  · rintro _ s s' u₀ u _ _ ⟨hs, hc, hr, hh⟩ hrun
    cases hashFileStep_cases hrun with
    | read hlt data hlen =>
        refine ⟨hs, ?_, Hasher.update_ready data hr, ?_⟩
        · exact Trace.only_append.mpr ⟨hc, by simp [ExecEvent.shortRead, hlen]⟩
        · change s.hasher.update data = _
          rw [hh, Hasher.update_append _ _ (Hasher.start_ready mode)]
          simp only [hashedBytes, hashView_append, List.foldl_cons, List.foldl_nil, HashView.step]
  · rintro _ s s' u₀ u _ _ ⟨hs, hc, hr, hh⟩ hrun
    cases hashFileStep_cases hrun with
    | finished hge => exact Or.inl ⟨hs, by simpa using hc, by simpa using hh⟩
    | short hlt x hx =>
        refine Or.inr ⟨rfl, fun hclean => ?_⟩
        have := (Trace.only_append.mp hclean).2 _ (List.mem_cons_of_mem _ List.mem_cons_self)
        simp [hx] at this

/-- The device loop never fails, whatever the read-backs answered. -/
theorem hashDeviceLoop_trace {mode : VerificationMode} {s : DeviceHashState} {u : IoTrace}
    (h : Runs (forLoop (fun _ => hashDeviceStep ep offset len) len.toNat 0
      { hasher := Hasher.start mode, buf := List.replicate deviceTmpSize.toNat 0 }) s u) :
    IoClean u ∧ s.hasher = (Hasher.start mode).update (hashedBytes u) := by
  have loop := runs_forLoop
    (I := fun _ s u => IoClean u ∧ s.buf = (hashView u).buf ∧
      s.hasher = (Hasher.start mode).update (hashedBytes u))
    (J := fun s u => IoClean u ∧ s.hasher = (Hasher.start mode).update (hashedBytes u))
    h (u := []) ⟨Trace.only_nil, rfl, (Hasher.update_nil mode).symm⟩ ?_ ?_
  · simp only [List.nil_append] at loop
    rcases loop with ⟨hc, -, hh⟩ | hstop
    · exact ⟨hc, hh⟩
    · exact hstop
  · rintro _ s s' u₀ u _ _ ⟨hc, hbuf, hh⟩ hrun
    cases hashDeviceStep_cases hrun with
    | read hlt r n hn =>
        refine ⟨Trace.only_append.mpr ⟨hc, by simp [ExecEvent.shortRead]⟩, ?_, ?_⟩
        · simp only [hashView_append, List.foldl_cons, List.foldl_nil, HashView.step, hbuf]
        · change s.hasher.update _ = _
          rw [hh, Hasher.update_append _ _ (Hasher.start_ready mode)]
          simp only [hashedBytes, hashView_append, List.foldl_cons, List.foldl_nil, HashView.step,
            hbuf]
  · rintro _ s s' u₀ u _ _ ⟨hc, hbuf, hh⟩ hrun
    cases hashDeviceStep_cases hrun with
    | finished hge => exact ⟨by simpa using hc, by simpa using hh⟩

/-- Hashing a non-empty region succeeds exactly when no file read was short, and the digest
is the digest of the bytes it was fed. -/
theorem hashEndpointRegion_trace {mode : VerificationMode} {e : Error} {d : List Byte}
    {u : IoTrace} (hm : mode ≠ .none) (hlen : len ≠ 0)
    (h : Runs (hashEndpointRegion ep offset len mode) (e, d) u) :
    (e.ok = true ↔ IoClean u) ∧ (e.ok = true → d = digestOf mode (hashedBytes u)) := by
  unfold hashEndpointRegion at h
  rw [if_neg (by simp [hm, hlen])] at h
  split at h
  · obtain ⟨s, u₁, u₂, rfl, hloop, hend⟩ := (runs_bind _ _ _ _).mp h
    rcases hashFileLoop_trace hloop with ⟨hs, hc, hh⟩ | ⟨hs, hbad⟩
    · simp only [hs] at hend
      obtain ⟨hd, rfl⟩ := hend
      cases hd
      simp [hc, hh, digestOf_eq]
    · simp only [hs] at hend
      obtain ⟨hd, rfl⟩ := hend
      cases hd
      simp [hbad, Error.ok]
  · split at h
    · obtain ⟨s, u₁, u₂, rfl, hloop, hend⟩ := (runs_bind _ _ _ _).mp h
      obtain ⟨hc, hh⟩ := hashDeviceLoop_trace hloop
      obtain ⟨hd, rfl⟩ := hend
      cases hd
      simp [hc, hh, digestOf_eq]
    · obtain ⟨data, rest, rfl, hend⟩ := (runs_request_bind (S := IoSig) _ _ _ _).mp h
      obtain ⟨hd, rfl⟩ := hend
      cases hd
      refine ⟨by simp [IoClean, ExecEvent.shortRead], fun _ => ?_⟩
      exact congrArg (digestOf mode) (List.nil_append _).symm

end Region

/-! The verification phase of the executor. -/

/-- The calls of one hashed side. -/
def ioTrace (site : IoSite) (t : ExecTrace) : IoTrace := t.filterMap fun ev =>
  match ev with
  | ⟨.io s c, x⟩ => if s = site then some ⟨c, x⟩ else none
  | _ => none

/-- The bytes hashed on one side. -/
def hashed (site : IoSite) (t : ExecTrace) : List Byte := hashedBytes (ioTrace site t)

def liftIo (site : IoSite) (ev : IoEvent) : ExecEvent := ⟨.io site ev.1, ev.2⟩

theorem forall₂_shows_io {site : IoSite} {u : IoTrace} {t : ExecTrace}
    (h : List.Forall₂ (ioHom site).Shows u t) : t = u.map (liftIo site) := by
  induction h with
  | nil => rfl
  | cons hshow _ ih =>
      obtain ⟨x, rfl, hx⟩ := hshow
      rw [List.map_cons, ih]
      congr 1
      exact congrArg (Sigma.mk _) hx.symm

theorem runs_embed_io {α : Type} {site : IoSite} {p : Prog IoSig α} {r : α} {t : ExecTrace}
    (h : Runs (p.embed (ioHom site)) r t) : ∃ u, Runs p r u ∧ t = u.map (liftIo site) := by
  obtain ⟨u, hu, hshow⟩ := (runs_embed _ _ _ _).mp h
  exact ⟨u, hu, forall₂_shows_io hshow⟩

theorem ioTrace_append (site : IoSite) (t u : ExecTrace) :
    ioTrace site (t ++ u) = ioTrace site t ++ ioTrace site u := List.filterMap_append

theorem ioTrace_map (site : IoSite) (u : IoTrace) : ioTrace site (u.map (liftIo site)) = u := by
  induction u with
  | nil => rfl
  | cons ev u ih =>
      unfold ioTrace at ih ⊢
      rw [List.map_cons, List.filterMap_cons, ih]
      simp [liftIo]

theorem ioTrace_other {site other : IoSite} (h : other ≠ site) (u : IoTrace) :
    ioTrace site (u.map (liftIo other)) = [] := by
  induction u with
  | nil => rfl
  | cons ev u ih =>
      unfold ioTrace at ih ⊢
      rw [List.map_cons, List.filterMap_cons, ih]
      simp [liftIo, h]

theorem clean_map_io (site : IoSite) (u : IoTrace) : Clean (u.map (liftIo site)) ↔ IoClean u := by
  induction u with
  | nil => exact iff_of_true clean_nil Trace.only_nil
  | cons ev u ih =>
      unfold IoClean at ih ⊢
      rw [List.map_cons, clean_cons, Trace.only_cons, ih, Bool.not_eq_true']
      rfl

namespace RunContext

variable {ctx : RunContext}

/-- The two sides hashed to the same digest. -/
def DigestsAgree (ctx : RunContext) (t : ExecTrace) : Prop :=
  digestOf ctx.effectiveMode (hashed .hashSource t) = digestOf ctx.effectiveMode (hashed .hashDest t)

/-- Whether the verification phase hashes at all. -/
def Verifies (ctx : RunContext) : Prop := ctx.effectiveMode ≠ .none ∧ ctx.plan.total > 0

/-- Everything the verification phase can do. -/
inductive VerifyRun (ctx : RunContext) : Error → ExecTrace → Prop
  | skipped (h : ¬ ctx.Verifies) :
      VerifyRun ctx {}
        [⟨.status .verifying, ()⟩, ⟨.status (.unverified ctx.plan.total), ()⟩]
  | compared (h : ctx.Verifies) {es ed r : Error} {sd dd : List Byte} {us ud : IoTrace}
      {u : StatusUpdate}
      (hs : Runs (hashEndpointRegion ctx.record.srcEp ctx.plan.sourceOffset ctx.plan.total
        ctx.effectiveMode) (es, sd) us)
      (hd : Runs (hashEndpointRegion ctx.record.dstEp ctx.plan.destOffset ctx.plan.total
        ctx.effectiveMode) (ed, dd) ud)
      (hr : r.ok = true ↔ es.ok = true ∧ ed.ok = true ∧ sd = dd)
      (hu : r.ok = true → u = .verified ctx.plan.total) :
      VerifyRun ctx r
        (⟨.status .verifying, ()⟩ :: (us.map (liftIo .hashSource) ++
          ud.map (liftIo .hashDest) ++ [⟨.status u, ()⟩]))

theorem compareDigests_cases {es ed r : Error} {sd dd : List Byte} {t : ExecTrace}
    (h : Runs (ctx.compareDigests es ed sd dd) r t) :
    ∃ u, t = [⟨.status u, ()⟩] ∧ (r.ok = true ↔ es.ok = true ∧ ed.ok = true ∧ sd = dd) ∧
      (r.ok = true → u = .verified ctx.plan.total) := by
  unfold compareDigests at h
  split at h
  · rename_i hes
    obtain ⟨⟨⟩, rest, rfl, rfl, rfl⟩ := (runs_exec_bind _ _ _ _).mp h
    exact ⟨_, rfl, by simp [hes], by simp [hes]⟩
  rename_i hes
  split at h
  · rename_i hed
    obtain ⟨⟨⟩, rest, rfl, rfl, rfl⟩ := (runs_exec_bind _ _ _ _).mp h
    exact ⟨_, rfl, by simp [hed], by simp [hed]⟩
  rename_i hed
  split at h
  · rename_i hne
    obtain ⟨⟨⟩, rest, rfl, rfl, rfl⟩ := (runs_exec_bind _ _ _ _).mp h
    exact ⟨_, rfl, by simp [hne, Error.ok], by simp [Error.ok]⟩
  · rename_i heq
    obtain ⟨⟨⟩, rest, rfl, rfl, rfl⟩ := (runs_exec_bind _ _ _ _).mp h
    exact ⟨_, rfl, by simp_all, fun _ => rfl⟩

theorem verify_cases {r : Error} {t : ExecTrace} (h : Runs ctx.verify r t) : VerifyRun ctx r t := by
  obtain ⟨⟨⟩, rest, rfl, hrest⟩ := (runs_exec_bind _ _ _ _).mp h
  clear h
  split at hrest
  · rename_i hv
    obtain ⟨⟨es, sd⟩, t₁, t₂, rfl, hsrc, hafter⟩ := (runs_bind _ _ _ _).mp hrest
    obtain ⟨⟨ed, dd⟩, t₃, t₄, rfl, hdst, hcompare⟩ := (runs_bind _ _ _ _).mp hafter
    obtain ⟨us, hus, rfl⟩ := runs_embed_io hsrc
    obtain ⟨ud, hud, rfl⟩ := runs_embed_io hdst
    obtain ⟨u, rfl, hr, hu⟩ := compareDigests_cases hcompare
    rw [← List.append_assoc]
    exact .compared hv hus hud hr hu
  · rename_i hv
    obtain ⟨⟨⟩, rest, rfl, rfl, rfl⟩ := (runs_exec_bind _ _ _ _).mp hrest
    exact .skipped hv

theorem Verifies.total_ne_zero (h : ctx.Verifies) : ctx.plan.total ≠ 0 := by
  intro hz
  have := h.2
  rw [hz] at this
  exact absurd this (by decide)

/-- Verification succeeds exactly on a clean trace with agreeing digests. -/
theorem VerifyRun.ok_iff {r : Error} {t : ExecTrace} (h : VerifyRun ctx r t) :
    r.ok = true ↔ Clean t ∧ ctx.DigestsAgree t := by
  cases h with
  | skipped h => simp [ExecEvent.stops, DigestsAgree, hashed, ioTrace]
  | compared hv hs hd hr hu =>
      obtain ⟨hsok, hsd⟩ := hashEndpointRegion_trace hv.1 hv.total_ne_zero hs
      obtain ⟨hdok, hdd⟩ := hashEndpointRegion_trace hv.1 hv.total_ne_zero hd
      have hsrc : ∀ us ud : IoTrace, ∀ u, hashed .hashSource
          (⟨.status .verifying, ()⟩ :: (us.map (liftIo .hashSource) ++
            ud.map (liftIo .hashDest) ++ [⟨.status u, ()⟩])) = hashedBytes us := by
        intro us ud u
        rw [hashed, ← List.singleton_append, ioTrace_append, ioTrace_append, ioTrace_append,
          ioTrace_map, ioTrace_other (by decide)]
        simp [ioTrace]
      have hdst : ∀ us ud : IoTrace, ∀ u, hashed .hashDest
          (⟨.status .verifying, ()⟩ :: (us.map (liftIo .hashSource) ++
            ud.map (liftIo .hashDest) ++ [⟨.status u, ()⟩])) = hashedBytes ud := by
        intro us ud u
        rw [hashed, ← List.singleton_append, ioTrace_append, ioTrace_append, ioTrace_append,
          ioTrace_map, ioTrace_other (by decide)]
        simp [ioTrace]
      rw [hr, DigestsAgree, hsrc, hdst]
      simp only [clean_cons, clean_append, clean_map_io, ExecEvent.stops, true_and, clean_nil,
        and_true]
      constructor
      · rintro ⟨hes, hed, heq⟩
        exact ⟨⟨hsok.mp hes, hdok.mp hed⟩, (hsd hes).symm.trans (heq.trans (hdd hed))⟩
      · rintro ⟨⟨hcs, hcd⟩, heq⟩
        have hes := hsok.mpr hcs
        have hed := hdok.mpr hcd
        exact ⟨hes, hed, (hsd hes).trans (heq.trans (hdd hed).symm)⟩

end RunContext

end TransferFabric
