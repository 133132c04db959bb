import TransferFabric.Backends.File
import TransferFabric.Core.Memory
import TransferFabric.Runtime.ExecutorCalls
import TransferFabric.Runtime.Verification

/-!
Transfers that run at once and may share file handles. The transfers are the
threads of a pool: each is `run_transfer` with the copies of the file backend
carried out call by call, and any of them may go next at any call.

A handle has one position. A seek sets it unless it fails, and a successful read or
write starts at it and moves it by what it moved. Nothing in the source keeps a second
transfer from moving it between a seek and the calls that rely on it. A call is
served at the offset it means, whatever the file holds, just when the handle
stands where the transfer's own calls since its seek would have put it.

Stores to memory and the calls of other backends may change memory and files in
any way, but move no handle.
-/

namespace TransferFabric

open Interaction Memory Relation

/-! A transfer with the file backend inside. -/

/-- The copies of the file backend are its calls; every other call stays as it is. -/
def fileImpl : (c : ExecSig.Call) → Prog ExecSig (ExecSig.Answer c)
  | .copy name spec =>
      if name = BackendName.file then (FileBackend.copy spec).embed (ioHom .copy)
      else exec (.copy name spec)
  | c => exec c

def RunContext.fileTransfer (ctx : RunContext) : Prog ExecSig Error :=
  ctx.runTransfer.expand fileImpl

/-- Calls that are not made to the operating system directly. -/
def ExecCall.plain : ExecCall → Prop
  | .io .. => False
  | _ => True

theorem ExecCall.plain_of_moves {c : ExecCall} (h : c.moves = true) : c.plain := by
  cases c <;> trivial

/-! One transfer, by what it knows of its handles. -/

/-- A cursor permits a call of a transfer. -/
def Cursor.permits (l : Cursor) : ExecCall → Prop
  | .io _ c => l.allowed c
  | _ => True

def Cursor.follow : Effect ExecSig Cursor := fun l c x l' =>
  match c, x with
  | .io _ c, x => Cursor.step l c x l'
  | _, _ => l' = l

/-- Every call of a transfer to the operating system means the transfer's own cursor. -/
abbrev Steered {α : Type} (p : Prog ExecSig α) (l : Cursor) : Prop :=
  wp Cursor.permits Cursor.follow p (fun _ _ => True) l

theorem steered_embed {α : Type} {site : IoSite} {p : Prog IoSig α} {l : Cursor}
    (h : Aimed p (fun _ _ => True) l) : Steered (p.embed (ioHom site)) l := by
  induction p generalizing l with
  | done a => trivial
  | call c next ih => exact ⟨h.1, fun x l' he => ih x (h.2 x l' he)⟩

theorem steered_bind {α β : Type} {p : Prog ExecSig α} {f : α → Prog ExecSig β} {l : Cursor}
    (hp : Steered p l) (hf : ∀ a l, Steered (f a) l) : Steered (p >>= f) l :=
  (wp_bind p f _ l).mpr (wp_mono p hp fun a l' _ => hf a l')

theorem steered_fileImpl (c : ExecCall) (hc : c.plain) (l : Cursor) : Steered (fileImpl c) l := by
  cases c with
  | io site c => exact hc.elim
  | copy name spec =>
      by_cases hname : name = BackendName.file
      · have himpl : fileImpl (.copy name spec) = (FileBackend.copy spec).embed (ioHom .copy) :=
          if_pos hname
        rw [himpl]
        exact steered_embed (FileBackend.copy_aimed spec l)
      · have himpl : fileImpl (.copy name spec) = exec (.copy name spec) := if_neg hname
        rw [himpl]
        exact ⟨trivial, fun _ _ _ => trivial⟩
  | _ => exact ⟨trivial, fun _ _ _ => trivial⟩

theorem steered_plain {α : Type} {p : Prog ExecSig α} (h : Calls ExecCall.plain p) (l : Cursor) :
    Steered (p.expand fileImpl) l := h.wp_expand steered_fileImpl l

theorem steered_expand_bind {α β : Type} {p : Prog ExecSig α} {f : α → Prog ExecSig β} {l : Cursor}
    (hp : Steered (p.expand fileImpl) l) (hf : ∀ a l, Steered ((f a).expand fileImpl) l) :
    Steered ((p >>= f).expand fileImpl) l :=
  Prog.expand_bind fileImpl p f ▸ steered_bind hp hf

theorem steered_hash (site : IoSite) (ep : EndpointRecord) (offset len : ByteCount)
    (mode : VerificationMode) (l : Cursor) :
    Steered (((hashEndpointRegion ep offset len mode).embed (ioHom site)).expand fileImpl) l := by
  have hself : ∀ c, fileImpl ((ioHom site).call c) = Prog.request ((ioHom site).call c) :=
    fun _ => rfl
  exact (Prog.expand_embed hself _).symm ▸
    steered_embed (hashEndpointRegion_aimed ep offset len mode l)

theorem RunContext.steered_verify (ctx : RunContext) (l : Cursor) :
    Steered (ctx.verify.expand fileImpl) l := by
  refine steered_expand_bind (steered_plain (calls_request (by trivial)) l) fun _ l => ?_
  split_ifs
  · exact steered_expand_bind (steered_hash _ _ _ _ _ l) fun src l =>
      steered_expand_bind (steered_hash _ _ _ _ _ l) fun dst l =>
        steered_plain (ctx.calls_compareDigests (fun _ => trivial) _ _ _ _) l
  · exact steered_plain (calls_bind (calls_request (by trivial)) fun _ => calls_pure _) l

theorem RunContext.steered_fileTransfer (ctx : RunContext) (l : Cursor) :
    Steered ctx.fileTransfer l := by
  unfold fileTransfer runTransfer
  split_ifs
  · exact steered_plain (calls_bind (calls_request (by trivial)) fun _ => calls_pure _) l
  · trivial
  · split
    · trivial
    · refine steered_expand_bind (steered_plain (ctx.calls_openIfWanted (fun _ => trivial)
        (fun _ => trivial) _) l) fun useAsync l => ?_
      refine steered_expand_bind (steered_plain (ctx.calls_moveChunks
        (fun _ => ExecCall.plain_of_moves) (fun _ _ => trivial) trivial (fun _ => trivial)
        useAsync) l) fun s l => ?_
      split_ifs
      · trivial
      · exact ctx.steered_verify l

/-! Transfers together. -/

/-- The files and memory, the position of every handle, and for each transfer what its own calls
say of the handles. -/
structure FileWorld where
  store : Store Cell Byte
  pos : Handle → ByteOffset
  due : Nat → Cursor

namespace FileWorld

variable (w : FileWorld) (i : Nat) (h : Handle)

/-- Transfer `i` seeks, and goes on as if that could not fail. -/
def seek (off : ByteOffset) : FileWorld :=
  { w with
    pos := Function.update w.pos h (setFilePointer off off (w.pos h))
    due := Function.update w.due i (Function.update (w.due i) h off) }

/-- Transfer `i` has read or written `k` bytes. -/
def advance (k : ByteCount) : FileWorld :=
  { w with
    pos := Function.update w.pos h (w.pos h + k)
    due := Function.update w.due i (Function.update (w.due i) h (w.due i h + k)) }

/-- A call on the handle has failed and left it anywhere. -/
def lose (off : ByteOffset) : FileWorld :=
  { w with pos := Function.update w.pos h off }

end FileWorld

/-- What a call of transfer `i` to the operating system does. -/
def fileEffect (fileOf : Handle → Nat) (i : Nat) : Effect IoSig FileWorld := fun w c x w' =>
  match c, x with
  | .seek h off, _ => w' = w.seek i h off
  | .readFile h n _, x => match x with
    | none => ∃ off, w' = w.lose h off
    | some data => List.length data ≤ n.toNat ∧
        data = w.store.read (fileBytes fileOf h (w.pos h)) (List.length data) ∧
        w' = w.advance i h (UInt64.ofNat (List.length data))
  | .writeFile h data _, x => match x with
    | none => ∃ off st, w' = { w.lose h off with store := st }
    | some wr => UInt64.toNat wr ≤ data.length ∧
        ∃ st, Writes (fileBytes fileOf h (w.pos h)) (data.take (UInt64.toNat wr)) w.store st ∧
          w' = { w.advance i h wr with store := st }
  | .load p n, x => x = w.store.read (memRegion p) n.toNat ∧ w' = w
  | .store .., _ => ∃ st, w' = { w with store := st }
  | .flushFileBuffers _, _ | .deviceToHost .., _ => w' = w

def transferEffect (fileOf : Handle → Nat) (i : Nat) : Effect ExecSig FileWorld := fun w c x w' =>
  match c, x with
  | .io _ c, x => fileEffect fileOf i w c x w'
  | _, _ => ∃ st, w' = { w with store := st }

/-- Any transfer may be started at any time. -/
def startTransfer (w : FileWorld) (prog : Prog ExecSig Error) (w' : FileWorld) : Prop :=
  w' = w ∧ ∃ ctx : RunContext, prog = ctx.fileTransfer

abbrev Transfers := Pool ExecSig FileWorld Error

abbrev Transfers.Step (fileOf : Handle → Nat) : Transfers → Transfers → Prop :=
  Pool.Step (transferEffect fileOf) startTransfer

/-- No transfer runs yet. -/
def Transfers.start (st : Store Cell Byte) (pos : Handle → ByteOffset) : Transfers :=
  ⟨{ store := st, pos, due := fun _ => pos }, []⟩

/-! The cursors are right, whoever goes next. -/

section Effect

variable {fileOf : Handle → Nat} {i : Nat} {w w' : FileWorld}

/-- A call moves the caller's cursor and nobody else's. -/
theorem fileEffect_due {c : IoCall} {x : IoAnswer c} (he : fileEffect fileOf i w c x w') :
    Cursor.step (w.due i) c x (w'.due i) ∧ ∀ j ≠ i, w'.due j = w.due j := by
  cases c with
  | seek h off =>
      obtain rfl : w' = _ := he
      exact ⟨Function.update_self .., fun j hj => Function.update_of_ne hj ..⟩
  | readFile h n asked =>
      cases x with
      | none =>
          obtain ⟨off, rfl⟩ := he
          exact ⟨rfl, fun _ _ => rfl⟩
      | some data =>
          obtain ⟨hlen, -, rfl⟩ := he
          exact ⟨⟨hlen, Function.update_self ..⟩, fun j hj => Function.update_of_ne hj ..⟩
  | writeFile h data asked =>
      cases x with
      | none =>
          obtain ⟨off, st, rfl⟩ := he
          exact ⟨rfl, fun _ _ => rfl⟩
      | some wr =>
          obtain ⟨hle, st, -, rfl⟩ := he
          exact ⟨⟨hle, Function.update_self ..⟩, fun j hj => Function.update_of_ne hj ..⟩
  | flushFileBuffers h | deviceToHost p n =>
      obtain rfl : w' = w := he
      exact ⟨rfl, fun _ _ => rfl⟩
  | load p n =>
      obtain ⟨hx, rfl⟩ := he
      exact ⟨⟨by rw [hx, Store.length_read], rfl⟩, fun _ _ => rfl⟩
  | store p data =>
      obtain ⟨st, rfl⟩ := he
      exact ⟨rfl, fun _ _ => rfl⟩

/-- The same for every call of a transfer. -/
theorem transferEffect_due {c : ExecCall} {x : ExecAnswer c}
    (he : transferEffect fileOf i w c x w') :
    Cursor.follow (w.due i) c x (w'.due i) ∧ ∀ j ≠ i, w'.due j = w.due j := by
  cases c with
  | io site c => exact fileEffect_due he
  | _ =>
      obtain ⟨st, rfl⟩ := he
      exact ⟨rfl, fun _ _ => rfl⟩

end Effect

/-- Each transfer is verified by its own cursor. -/
def cursors (fileOf : Handle → Nat) :
    Discipline (transferEffect fileOf) startTransfer Cursor where
  allowed := Cursor.permits
  view := Cursor.follow
  post := fun _ _ => True
  Coupled := fun w l n => ∀ i < n, w.due i = l i
  act := by
    rintro w w' l n i c x hdue hi - he
    obtain ⟨hstep, hothers⟩ := transferEffect_due he
    rw [hdue i hi] at hstep
    refine ⟨w'.due i, hstep, ?_⟩
    exact forall_update rfl fun j hj hne => (hothers j hne).trans (hdue j hj)
  start := by
    rintro w w' l n prog hdue ⟨rfl, ctx, rfl⟩
    exact ⟨w'.due n, ctx.steered_fileTransfer _, forall_start rfl hdue⟩

theorem Transfers.cursors_hold {fileOf : Handle → Nat} {st : Store Cell Byte}
    {pos : Handle → ByteOffset} {p : Transfers}
    (hr : ReflTransGen (Transfers.Step fileOf) (Transfers.start st pos) p) :
    ∃ l, (cursors fileOf).Holds p l :=
  (cursors fileOf).sound (l := fun _ => pos)
    ⟨fun _ _ => rfl, fun _ _ hi => by cases hi⟩ hr

/-! Where a read or a write takes place. -/

/-- The handle a call reads or writes through. -/
def IoCall.through : IoCall → Option Handle
  | .readFile h .. | .writeFile h .. => some h
  | _ => none

/-- A successful read has returned the bytes at the offset asked for, and a successful write has
landed there. -/
def Served (fileOf : Handle → Nat) (w : FileWorld) (c : IoCall) (x : IoAnswer c)
    (w' : FileWorld) : Prop :=
  match c, x with
  | .readFile h _ asked, x => match x with
    | none => True
    | some data => data = w.store.read (fileBytes fileOf h asked) (List.length data)
  | .writeFile h data asked, x => match x with
    | none => True
    | some wr =>
        Writes (fileBytes fileOf h asked) (data.take (UInt64.toNat wr)) w.store w'.store
  | _, _ => True

/-- The call is served whatever the files hold when it is made. -/
def AlwaysServed (fileOf : Handle → Nat) (i : Nat) (w : FileWorld) (c : IoCall) : Prop :=
  ∀ (st : Store Cell Byte) (x : IoAnswer c) (w' : FileWorld),
    fileEffect fileOf i { w with store := st } c x w' → Served fileOf { w with store := st } c x w'

section Served

variable {fileOf : Handle → Nat} {i : Nat} {w : FileWorld} {h : Handle} {asked : ByteOffset}

theorem readFile_served_iff {n : ByteCount} (hn : n ≠ 0) :
    AlwaysServed fileOf i w (.readFile h n asked) ↔ w.pos h = asked := by
  constructor
  · intro hserved
    by_contra hne
    -- the file holds a one where the handle stands and zeros elsewhere
    let st : Store Cell Byte := fun cell =>
      if cell = .file (fileOf h) (w.pos h) then 1 else 0
    have hone : 1 ≤ n.toNat := Nat.pos_of_ne_zero ((toNat_ne_zero n).mpr hn)
    have hread := hserved st (some [1]) _ ⟨hone, by simp [Store.read, fileBytes, st], rfl⟩
    have hask : ¬ asked = w.pos h := fun heq => hne heq.symm
    simp [Served, Store.read, fileBytes, st, hask] at hread
  · rintro rfl st x w' he
    cases x with
    | none => trivial
    | some data => exact he.2.1

theorem writeFile_served_iff {data : List Byte} (hdata : data ≠ []) :
    AlwaysServed fileOf i w (.writeFile h data asked) ↔ w.pos h = asked := by
  constructor
  · intro hserved
    by_contra hne
    obtain ⟨b, rest, rfl⟩ := List.exists_cons_of_ne_nil hdata
    -- no byte of the file is the one that is written
    let st : Store Cell Byte := fun _ => b + 1
    let st' : Store Cell Byte := Function.update st (fileBytes fileOf h (w.pos h) 0) b
    have hwrites : Writes (fileBytes fileOf h (w.pos h)) [b] st st' := Writes.single ..
    have hland := hserved st (some (1 : ByteCount)) _ ⟨by simp, st', hwrites, rfl⟩
    have hbyte := hland.written 0 b (by simp)
    have hask : ¬ asked = w.pos h := fun heq => hne heq.symm
    simp [fileBytes, st', st, hask] at hbyte
  · rintro rfl st x w' he
    cases x with
    | none => trivial
    | some wr =>
        obtain ⟨-, st', hwrites, rfl⟩ := he
        exact hwrites

end Served

section Reached

variable {fileOf : Handle → Nat} {st : Store Cell Byte} {pos : Handle → ByteOffset}
  {p : Transfers} {i : Nat} {site : IoSite} {c : IoCall} {next : IoAnswer c → Prog ExecSig Error}
  {h : Handle}

/-- In any state that any interleaving reaches, the next read or write of a transfer is served,
whatever the file holds, just when the handle stands at the offset of the transfer's last seek
plus what the transfer has moved since. -/
theorem Transfers.calls_served_iff
    (hr : ReflTransGen (Transfers.Step fileOf) (Transfers.start st pos) p)
    (hi : p.threads[i]? = some (.call (.io site c) next)) (hc : c.through = some h) :
    AlwaysServed fileOf i p.world c ↔ p.world.pos h = p.world.due i h := by
  obtain ⟨l, hl⟩ := Transfers.cursors_hold hr
  have hlt : i < p.threads.length := (List.getElem?_eq_some_iff.mp hi).1
  have hallowed : Cursor.allowed (p.world.due i) c := hl.1 i hlt ▸ hl.allowed hi
  cases c with
  | readFile g n asked =>
      obtain rfl : g = h := Option.some.inj hc
      rw [readFile_served_iff hallowed.2, hallowed.1]
  | writeFile g data asked =>
      obtain rfl : g = h := Option.some.inj hc
      rw [writeFile_served_iff hallowed.2, hallowed.1]
  | _ => cases hc

end Reached

/-! Two transfers read the same sixteen bytes of one file through one handle. -/

def fileToHost : RunContext :=
  let ctx := oneLeg BackendName.file (.fileRegion "data" 0 16) (.hostMemory 0x20000 16)
  { ctx with record := { ctx.record with srcEp := { ctx.record.srcEp with fileHandle := 1 } } }

/-- Reads give all they are asked for, writes fail, and nothing is stored. -/
def eager (i : Nat) (w : FileWorld) : (c : ExecCall) → ExecAnswer c × FileWorld
  | .io _ (.seek h off) => ((), w.seek i h off)
  | .io _ (.readFile h n _) =>
      (some (w.store.read (fileBytes UInt64.toNat h (w.pos h)) n.toNat), w.advance i h n)
  | .io _ (.writeFile h _ _) => (none, w.lose h 0)
  | .io _ (.load p n) => (w.store.read (memRegion p) n.toNat, w)
  | c => (obliging c, w)

theorem eager_effect (i : Nat) (w : FileWorld) (c : ExecCall) :
    transferEffect UInt64.toNat i w c (eager i w c).1 (eager i w c).2 := by
  cases c with
  | io site c =>
      cases c with
      | readFile h n asked =>
          exact ⟨by simp, by simp, by simp [eager]⟩
      | writeFile h data asked => exact ⟨0, w.store, rfl⟩
      | load p n => exact ⟨rfl, rfl⟩
      | store p data => exact ⟨w.store, rfl⟩
      | _ => rfl
  | _ => exact ⟨w.store, rfl⟩

/-- Both transfers have been started; every byte of the file is its own position. -/
def twoReaders : Transfers :=
  ⟨{ store := fun cell => match cell with
      | .file _ off => off.toUInt8
      | .mem _ => 0
     pos := fun _ => 0, due := fun _ _ => 0 },
    [fileToHost.fileTransfer, fileToHost.fileTransfer]⟩

theorem twoReaders_play (schedule : List Nat) :
    ReflTransGen (Transfers.Step UInt64.toNat)
      (Transfers.start twoReaders.world.store fun _ => 0) (twoReaders.play eager schedule) := by
  refine ReflTransGen.trans ?_ (Pool.play_runs eager_effect twoReaders schedule)
  exact (ReflTransGen.single (.start ⟨rfl, fileToHost, rfl⟩)).tail (.start ⟨rfl, fileToHost, rfl⟩)

instance : DecidableEq ExecSig.Call := inferInstanceAs (DecidableEq ExecCall)

/-- The first transfer has seeked and is about to read, with nobody in between. -/
theorem calls_served_first :
    AlwaysServed UInt64.toNat 0 (twoReaders.play eager [0, 0, 0]).world (.readFile 1 16 0) := by
  have hnext : (twoReaders.play eager [0, 0, 0]).nextCall 0 =
      some (.io .copy (.readFile 1 16 0)) := by decide +kernel
  obtain ⟨next, hi⟩ := Pool.exists_of_nextCall hnext
  exact (Transfers.calls_served_iff (twoReaders_play [0, 0, 0]) hi rfl).mpr (by decide +kernel)

/-- Both transfers seek to the start of the file, the first reads, and the second reads what
follows. -/
theorem calls_not_served :
    let p := twoReaders.play eager [0, 0, 0, 1, 1, 1, 0]
    ReflTransGen (Transfers.Step UInt64.toNat)
        (Transfers.start twoReaders.world.store fun _ => 0) p ∧
      p.nextCall 1 = some (.io .copy (.readFile 1 16 0)) ∧
      ∃ (x : IoAnswer (.readFile 1 16 0)) (w' : FileWorld),
        fileEffect UInt64.toNat 1 p.world (.readFile 1 16 0) x w' ∧
          ¬ Served UInt64.toNat p.world (.readFile 1 16 0) x w' := by
  intro p
  have heffect : fileEffect UInt64.toNat 1 p.world (.readFile 1 16 0)
      (some (p.world.store.read (fileBytes UInt64.toNat 1 (p.world.pos 1)) 16))
      (p.world.advance 1 1 16) := eager_effect 1 p.world (.io .copy (.readFile 1 16 0))
  refine ⟨twoReaders_play _, by decide +kernel, _, _, heffect, fun hserved => ?_⟩
  have hdata : p.world.store.read (fileBytes UInt64.toNat 1 (p.world.pos 1)) 16 =
      p.world.store.read (fileBytes UInt64.toNat 1 0) 16 := by
    simpa [Served] using hserved
  exact absurd hdata (by decide +kernel)

end TransferFabric
