import TransferFabric.Foundation.Scripts
import TransferFabric.Runtime.Hashing

/-!
The file backend: `read_at`, `write_at` and `copy` as programs over the calls of
the operating system. A handle has one position; a copy seeks once and then
reads or writes at wherever the handle stands.

Every `ReadFile` and `WriteFile` of the backend and of the hash loop is aimed: it
means the offset of the caller's last seek plus what the caller has read or
written since. That says nothing about where the handle stands when others use
it too.

A read into memory shows as a `ReadFile` followed by a store, a write from
memory as a load followed by a `WriteFile`.
-/

namespace TransferFabric

open Interaction

namespace FileBackend

/-- `1u << 30`: what one call is asked for at most. -/
def callLimit : ByteCount := 1073741824

/-- `1u << 20`: the heap buffer of a file to file copy. -/
def tmpSize : ByteCount := 1048576

/-- The caller's buffer: on the heap, with what has been read into it, or in memory. -/
inductive Buffer where
  | heap (data : List Byte)
  | memory (p : Address)
  deriving DecidableEq, Repr

/-- Bytes arrive behind the `total` bytes before them. -/
def Buffer.put (buf : Buffer) (total : ByteCount) (bytes : List Byte) : Prog IoSig Buffer :=
  match buf with
  | .heap data => pure (.heap (data ++ bytes))
  | .memory p => do
      let _ ← Prog.request (S := IoSig) (.store (p + total) bytes)
      pure (.memory p)

def Buffer.fetch (buf : Buffer) (total n : ByteCount) : Prog IoSig (List Byte) :=
  match buf with
  | .heap data => pure ((data.drop total.toNat).take n.toNat)
  | .memory p => Prog.request (S := IoSig) (.load (p + total) n)

/-- How far a `read_at` or `write_at` has come; a failed call leaves at once. -/
structure IoState where
  total : ByteCount := 0
  failed : Bool := false
  deriving DecidableEq, Repr

/-- What `read_at` and `write_at` return. -/
def IoState.ok (s : IoState) (n : ByteCount) : Bool := !s.failed ∧ s.total = n

/-- `*got` and `*wrote`, which a failed call leaves at zero. -/
def IoState.count (s : IoState) : ByteCount := if s.failed then 0 else s.total

structure ReadState extends IoState where
  buf : Buffer
  deriving DecidableEq, Repr

def readStep (h : Handle) (off n : ByteCount) (s : ReadState) : Prog IoSig (Flow ReadState) :=
  if s.total < n then do
    match ← Prog.request (S := IoSig)
        (.readFile h (pieceSize callLimit n s.total) (off + s.total)) with
    | none => pure (.stop { s with failed := true })
    | some data =>
        if data.isEmpty then pure (.stop s)
        else do
          let buf ← s.buf.put s.total data
          pure (.next { s with total := s.total + UInt64.ofNat data.length, buf })
  else pure (.stop s)

/-- An iteration that does not leave the loop reads a byte, so `n` of them are enough. -/
def readAt (h : Handle) (off n : ByteCount) (buf : Buffer) : Prog IoSig ReadState := do
  let _ ← Prog.request (S := IoSig) (.seek h off)
  forLoop (fun _ => readStep h off n) n.toNat 0 { buf }

def writeStep (h : Handle) (off n : ByteCount) (buf : Buffer) (s : IoState) :
    Prog IoSig (Flow IoState) :=
  if s.total < n then do
    let data ← buf.fetch s.total (pieceSize callLimit n s.total)
    match ← Prog.request (S := IoSig) (.writeFile h data (off + s.total)) with
    | none => pure (.stop { s with failed := true })
    | some wr =>
        if wr = (0 : ByteCount) then pure (.stop s)
        else pure (.next { s with total := s.total + wr })
  else pure (.stop s)

def writeAt (h : Handle) (off n : ByteCount) (buf : Buffer) : Prog IoSig IoState := do
  let _ ← Prog.request (S := IoSig) (.seek h off)
  let s ← forLoop (fun _ => writeStep h off n buf) n.toNat 0 {}
  if s.ok n then do
    let _ ← Prog.request (S := IoSig) (.flushFileBuffers h)
    pure s
  else pure s

def failure (message : String) : Error := { category := .backendFailure, message }

structure StreamState where
  done : ByteCount := 0
  error : Error := {}
  deriving DecidableEq, Repr

/-- One piece of a file to file copy. -/
def streamStep (spec : CopySpec) (s : StreamState) : Prog IoSig (Flow StreamState) :=
  if s.done < spec.bytes then do
    let thisn := pieceSize tmpSize spec.bytes s.done
    let r ← readAt spec.srcObject (spec.srcObjOffset + s.done) thisn (.heap [])
    if ¬ r.ok thisn then pure (.stop { s with error := failure "file read failed" })
    else if r.count ≠ thisn then
      pure (.stop { s with error := failure "short read during file->file copy" })
    else
      let w ← writeAt spec.dstObject (spec.dstObjOffset + s.done) thisn r.buf
      if ¬ w.ok thisn then pure (.stop { s with error := failure "file write failed" })
      else if w.count ≠ thisn then
        pure (.stop { s with error := failure "short write during file->file copy" })
      else pure (.next { s with done := s.done + thisn })
  else pure (.stop s)

def copy (spec : CopySpec) : Prog IoSig Error :=
  if spec.bytes = 0 then pure {}
  else if isStorage spec.srcKind ∧ isStorage spec.dstKind then do
    let s ← forLoop (fun _ => streamStep spec) spec.bytes.toNat 0 {}
    pure s.error
  else if isStorage spec.srcKind then do
    let r ← readAt spec.srcObject spec.srcObjOffset spec.bytes (.memory spec.dstPtr)
    if ¬ r.ok spec.bytes then pure (failure "file read failed")
    else if r.count ≠ spec.bytes then pure (failure "short read from storage source")
    else pure {}
  else do
    let w ← writeAt spec.dstObject spec.dstObjOffset spec.bytes (.memory spec.srcPtr)
    if ¬ w.ok spec.bytes then pure (failure "file write failed")
    else if w.count ≠ spec.bytes then pure (failure "short write to storage destination")
    else pure {}

end FileBackend

/-! What a caller means by its reads and writes. -/

/-- Where each handle stands as far as one caller knows: at the offset of its last seek, plus
what it has read or written since. -/
abbrev Cursor := Handle → ByteOffset

namespace Cursor

def allowed (l : Cursor) : IoCall → Prop
  | .readFile h n asked => asked = l h ∧ n ≠ 0
  | .writeFile h data asked => asked = l h ∧ data ≠ []
  | _ => True

def step : Effect IoSig Cursor := fun l c x l' =>
  match c, x with
  | .seek h off, _ => l' = Function.update l h off
  | .readFile h n _, x => match x with
    | none => l' = l
    | some data => List.length data ≤ n.toNat ∧
        l' = Function.update l h (l h + UInt64.ofNat (List.length data))
  | .writeFile h data _, x => match x with
    | none => l' = l
    | some wr => UInt64.toNat wr ≤ data.length ∧ l' = Function.update l h (l h + wr)
  | .load _ n, x => List.length x = n.toNat ∧ l' = l
  | .flushFileBuffers _, _ | .store .., _ | .deviceToHost .., _ => l' = l

end Cursor

/-- Every read and write of the program means the caller's own cursor and has bytes to move. -/
abbrev Aimed {α : Type} (p : Prog IoSig α) (Q : α → Cursor → Prop) (l : Cursor) : Prop :=
  wp Cursor.allowed Cursor.step p Q l

section Rules

variable {α β σ : Type} {p : Prog IoSig α} {Q : β → Cursor → Prop} {h : Handle} {l : Cursor}

theorem aimed_bind {f : α → Prog IoSig β} (hp : Aimed p (fun a => Aimed (f a) Q) l) :
    Aimed (p >>= f) Q l := (wp_bind p f Q l).mpr hp

theorem aimed_seek_bind {off : ByteOffset} {f : Unit → Prog IoSig β}
    (hf : Aimed (f ()) Q (Function.update l h off)) :
    Aimed (Prog.request (S := IoSig) (.seek h off) >>= f) Q l := by
  refine ⟨trivial, fun x l' he => ?_⟩
  obtain rfl : l' = _ := he
  exact hf

theorem aimed_read_bind {n asked : ByteCount} {f : Option (List Byte) → Prog IoSig β}
    (hasked : asked = l h) (hn : n ≠ 0) (hnone : Aimed (f none) Q l)
    (hsome : ∀ data : List Byte, data.length ≤ n.toNat →
      Aimed (f (some data)) Q (Function.update l h (l h + UInt64.ofNat data.length))) :
    Aimed (Prog.request (S := IoSig) (.readFile h n asked) >>= f) Q l := by
  refine ⟨⟨hasked, hn⟩, fun x l' he => ?_⟩
  cases x with
  | none =>
      obtain rfl : l' = l := he
      exact hnone
  | some data =>
      obtain ⟨hlen, rfl⟩ := he
      exact hsome data hlen

theorem aimed_write_bind {data : List Byte} {asked : ByteOffset}
    {f : Option ByteCount → Prog IoSig β} (hasked : asked = l h) (hdata : data ≠ [])
    (hnone : Aimed (f none) Q l)
    (hsome : ∀ wr : ByteCount, wr.toNat ≤ data.length →
      Aimed (f (some wr)) Q (Function.update l h (l h + wr))) :
    Aimed (Prog.request (S := IoSig) (.writeFile h data asked) >>= f) Q l := by
  refine ⟨⟨hasked, hdata⟩, fun x l' he => ?_⟩
  cases x with
  | none =>
      obtain rfl : l' = l := he
      exact hnone
  | some wr =>
      obtain ⟨hle, rfl⟩ := he
      exact hsome wr hle

/-- A loop keeps what each iteration keeps; where it is left does not matter to `J`. -/
theorem aimed_forLoop {body : σ → Prog IoSig (Flow σ)} (I : σ → Cursor → Prop) (J : σ → Prop)
    (hIJ : ∀ s l, I s l → J s)
    (step : ∀ s l, I s l → Aimed (body s) (fun f l' =>
      (∀ s', f = .next s' → I s' l') ∧ ∀ s', f = .stop s' → J s') l)
    (count start : Nat) {s : σ} (hs : I s l) :
    Aimed (forLoop (fun _ => body) count start s) (fun s _ => J s) l := by
  refine wp_mono _ (wp_forLoop _ (fun _ => I) (fun s _ => J s) count start ?_ hs) ?_
  · intro i s l _ _ hI
    refine wp_mono _ (step s l hI) fun f l' hf => ?_
    cases f with
    | next s' => exact hf.1 s' rfl
    | stop s' => exact hf.2 s' rfl
  · rintro s l' (hI | hJ)
    · exact hIJ s l' hI
    · exact hJ

/-- A loop whose body is aimed from anywhere. -/
theorem aimed_loop {body : σ → Prog IoSig (Flow σ)}
    (step : ∀ s l, Aimed (body s) (fun _ _ => True) l) (count start : Nat) (s : σ) :
    Aimed (forLoop (fun _ => body) count start s) (fun _ _ => True) l :=
  aimed_forLoop (fun _ _ => True) (fun _ => True) (fun _ _ _ => trivial)
    (fun s l _ => wp_mono _ (step s l) fun _ _ _ => ⟨fun _ _ => trivial, fun _ _ => trivial⟩)
    count start trivial

end Rules

namespace FileBackend

variable {h : Handle} {off n : ByteCount} {buf : Buffer} {l : Cursor}

/-- The bytes of a heap buffer are counted; memory always has them. -/
def Buffer.Holds : Buffer → Nat → Prop
  | .heap data, k => data.length = k
  | .memory _, _ => True

theorem Buffer.aimed_put {total : ByteCount} {bytes : List Byte} {k : Nat} (hbuf : buf.Holds k) :
    Aimed (buf.put total bytes) (fun b l' => b.Holds (k + bytes.length) ∧ l' = l) l := by
  cases buf with
  | heap data =>
      have hlen : data.length = k := hbuf
      exact ⟨by simp [Holds, hlen], rfl⟩
  | memory p => exact ⟨trivial, fun _ _ he => ⟨trivial, he⟩⟩

theorem Buffer.aimed_fetch {total m : ByteCount} {k : Nat} (hbuf : buf.Holds k)
    (hle : total.toNat + m.toNat ≤ k) :
    Aimed (buf.fetch total m) (fun data l' => data.length = m.toNat ∧ l' = l) l := by
  cases buf with
  | heap data =>
      have hlen : data.length = k := hbuf
      exact ⟨by simp [hlen]; omega, rfl⟩
  | memory p => exact ⟨trivial, fun _ _ he => he⟩

/-- Where a loop over pieces stands: the cursor is behind the bytes moved so far. -/
structure IoState.At (h : Handle) (off n : ByteCount) (s : IoState) (l : Cursor) : Prop where
  cursor : l h = off + s.total
  le : s.total.toNat ≤ n.toNat

/-- A piece of at most the size asked for takes the loop to the next place. -/
theorem IoState.At.advance {s : IoState} {m : ByteCount} (hs : s.At h off n l)
    (hlt : s.total < n) (hm : m.toNat ≤ (pieceSize callLimit n s.total).toNat) :
    (s.total + m).toNat = s.total.toNat + m.toNat ∧
      IoState.At h off n { s with total := s.total + m } (Function.update l h (l h + m)) := by
  have hle := pieceSize_le callLimit n s.total hlt
  have hbound := n.toNat_lt
  have hsum := toNat_add_of_lt s.total m (by omega)
  refine ⟨hsum, ?_, ?_⟩
  · rw [Function.update_self, hs.cursor, UInt64.add_assoc]
  · rw [hsum]
    omega

theorem readStep_aimed {s : ReadState} (hs : s.At h off n l) (hbuf : s.buf.Holds s.total.toNat) :
    Aimed (readStep h off n s) (fun f l' =>
      (∀ s', f = .next s' → s'.At h off n l' ∧ s'.buf.Holds s'.total.toNat) ∧
        ∀ s', f = .stop s' → s'.buf.Holds s'.total.toNat) l := by
  unfold readStep
  split_ifs with hlt
  · have hpos := pieceSize_pos callLimit n s.total hlt (by decide)
    refine aimed_read_bind hs.cursor.symm ((toNat_ne_zero _).mp (by omega)) ?_ fun data hlen => ?_
    · exact ⟨(fun _ h => by cases h), fun s' hs' => by cases hs'; exact hbuf⟩
    · dsimp only
      split_ifs with hempty
      · exact ⟨(fun _ h => by cases h), fun s' hs' => by cases hs'; exact hbuf⟩
      · have hcount : (UInt64.ofNat data.length).toNat = data.length :=
          toNat_ofNat_lt _ (Nat.lt_of_le_of_lt hlen (UInt64.toNat_lt _))
        obtain ⟨hsum, hat⟩ := hs.advance hlt (m := UInt64.ofNat data.length) (by omega)
        refine aimed_bind (wp_mono _ (Buffer.aimed_put hbuf) fun b l' hb => ?_)
        obtain ⟨hheld, rfl⟩ := hb
        refine ⟨fun s' hs' => ?_, (fun _ h => by cases h)⟩
        cases hs'
        rw [← hcount, ← hsum] at hheld
        exact ⟨hat, hheld⟩
  · exact ⟨(fun _ h => by cases h), fun s' hs' => by cases hs'; exact hbuf⟩

/-- `read_at` seeks first, so it is aimed whatever the caller did before. -/
theorem readAt_aimed (buf : Buffer) (hbuf : buf.Holds 0) :
    Aimed (readAt h off n buf) (fun s _ => s.buf.Holds s.total.toNat) l := by
  refine aimed_seek_bind (aimed_forLoop
    (fun s l => s.At h off n l ∧ s.buf.Holds s.total.toNat) _ (fun _ _ hI => hI.2)
    (fun s l hI => readStep_aimed hI.1 hI.2) _ _ ⟨⟨?_, Nat.zero_le _⟩, hbuf⟩)
  rw [Function.update_self, UInt64.add_zero]

theorem writeStep_aimed {s : IoState} (hs : s.At h off n l) (hbuf : buf.Holds n.toNat) :
    Aimed (writeStep h off n buf s) (fun f l' =>
      (∀ s', f = .next s' → s'.At h off n l') ∧ ∀ s', f = .stop s' → True) l := by
  unfold writeStep
  split_ifs with hlt
  · have hpos := pieceSize_pos callLimit n s.total hlt (by decide)
    have hle := pieceSize_le callLimit n s.total hlt
    refine aimed_bind (wp_mono _ (Buffer.aimed_fetch hbuf hle) fun data l' hd => ?_)
    obtain ⟨hlen, rfl⟩ := hd
    refine aimed_write_bind hs.cursor.symm (List.ne_nil_of_length_pos (by omega)) ?_ fun wr hwr => ?_
    · exact ⟨(fun _ h => by cases h), fun _ _ => trivial⟩
    · dsimp only
      split_ifs with hzero
      · exact ⟨(fun _ h => by cases h), fun _ _ => trivial⟩
      · refine ⟨fun s' hs' => ?_, (fun _ h => by cases h)⟩
        cases hs'
        exact (hs.advance hlt (by omega)).2
  · exact ⟨(fun _ h => by cases h), fun _ _ => trivial⟩

theorem writeAt_aimed (buf : Buffer) (hbuf : buf.Holds n.toNat) :
    Aimed (writeAt h off n buf) (fun _ _ => True) l := by
  refine aimed_seek_bind (aimed_bind (wp_mono _ (aimed_forLoop (fun s l => s.At h off n l)
    (fun _ => True) (fun _ _ _ => trivial) (fun s l hI => writeStep_aimed hI hbuf) _ _
    ⟨?_, Nat.zero_le _⟩) fun s _ _ => ?_))
  · split_ifs
    · exact ⟨trivial, fun _ _ _ => trivial⟩
    · trivial
  · rw [Function.update_self, UInt64.add_zero]

theorem IoState.total_of_ok {s : IoState} (hs : s.ok n = true) : s.total = n :=
  (of_decide_eq_true hs).2

theorem streamStep_aimed (spec : CopySpec) (s : StreamState) (l : Cursor) :
    Aimed (streamStep spec s) (fun _ _ => True) l := by
  unfold streamStep
  split_ifs
  · refine aimed_bind (wp_mono _ (readAt_aimed (.heap []) rfl) fun r l' hr => ?_)
    split_ifs with hread hgot
    · trivial
    · rw [IoState.total_of_ok hread] at hr
      refine aimed_bind (wp_mono _ (writeAt_aimed _ hr) fun w _ _ => ?_)
      split_ifs <;> trivial
    · trivial
  · trivial

theorem copy_aimed (spec : CopySpec) (l : Cursor) : Aimed (copy spec) (fun _ _ => True) l := by
  unfold copy
  split_ifs
  · trivial
  · exact aimed_bind (wp_mono _ (aimed_loop (streamStep_aimed spec) _ _ _) fun _ _ _ => trivial)
  · refine aimed_bind (wp_mono _ (readAt_aimed (.memory _) trivial) fun r _ _ => ?_)
    split_ifs <;> trivial
  · refine aimed_bind (wp_mono _ (writeAt_aimed (.memory _) trivial) fun w _ _ => ?_)
    split_ifs <;> trivial

end FileBackend

/-- The hash loop seeks before every read. -/
theorem hashFileStep_aimed (ep : EndpointRecord) (offset len : ByteCount) (s : HashState)
    (l : Cursor) : Aimed (hashFileStep ep offset len s) (fun _ _ => True) l := by
  unfold hashFileStep
  split_ifs with hlt
  · have hpos := pieceSize_pos fileTmpSize len s.done hlt (by decide)
    refine aimed_seek_bind (aimed_read_bind (by rw [Function.update_self])
      ((toNat_ne_zero _).mp (by omega)) trivial fun data _ => ?_)
    dsimp only
    split_ifs <;> trivial
  · trivial

theorem hashDeviceStep_aimed (ep : EndpointRecord) (offset len : ByteCount) (s : DeviceHashState)
    (l : Cursor) : Aimed (hashDeviceStep ep offset len s) (fun _ _ => True) l := by
  unfold hashDeviceStep
  split_ifs
  · exact ⟨trivial, fun _ _ _ => trivial⟩
  · trivial

theorem hashEndpointRegion_aimed (ep : EndpointRecord) (offset len : ByteCount)
    (mode : VerificationMode) (l : Cursor) :
    Aimed (hashEndpointRegion ep offset len mode) (fun _ _ => True) l := by
  unfold hashEndpointRegion
  split_ifs
  · trivial
  · refine aimed_bind (wp_mono _ (aimed_loop (hashFileStep_aimed ep offset len) _ _ _)
      fun _ _ _ => ?_)
    split_ifs <;> trivial
  · exact aimed_bind (wp_mono _ (aimed_loop (hashDeviceStep_aimed ep offset len) _ _ _)
      fun _ _ _ => trivial)
  · exact ⟨trivial, fun _ _ _ => trivial⟩

end TransferFabric
