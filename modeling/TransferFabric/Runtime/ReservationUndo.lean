import TransferFabric.Runtime.Custody
import TransferFabric.Runtime.Repertoire
import TransferFabric.Runtime.StagingHistory
import TransferFabric.Runtime.StagingOwnership
import TransferFabric.Runtime.StagingSpecs

/-!
A staging reservation that fails. It runs alone, from any state of the two pools
and with an allocator that may fail at any call. Each pool sees a history of its
own, in which the buffers out are those the reservation has drawn; when it fails
there are none left, and each has gone back as often as it was drawn. A block that
was on a free list twice before the call is on it twice after it.

What other threads do to the pools in the meantime is not considered here.
-/

namespace TransferFabric

open Interaction

/-! A thread by itself. -/

/-- The blocks of a pool: those on its free list and those in use. -/
def World.liveIn (w : World) (k : PoolKind) : List Address :=
  (w.pool k).freeList.map Prod.snd ++ (w.heldIn k).map fun h => h.buf.data

/-- The pool a call draws from. -/
def RtCall.drawsFrom : RtCall → Option PoolKind
  | .allocate _ k _ => some k
  | _ => none

/-- The allocator, if asked, fails or has a block that is not live. -/
def World.Unused (w : World) (ch : Chance) (c : RtCall) : Prop :=
  ∀ k ∈ c.drawsFrom, ∀ a ∈ World.allocation ch, a ∉ w.liveIn k
  deriving Decidable

/-- A step of thread `i` while the others rest. -/
def alone (i : Tid) : Effect RtSig World := fun w c x w' =>
  (∃ ch, w.Unused ch c ∧ w.answer ch c = some x) ∧ w' = w.after i c x

/-- The states of a pool, whatever is asked of it and given back to it, also more than once. -/
inductive StagingPool.Arises : StagingPool → Prop
  | fresh (capacity : ByteCount) : Arises { capacityBytes := capacity }
  | answer {p p' : StagingPool} {bytes : ByteCount} {allocated : Option Address}
      {b : Option StagingBuffer} (hp : p.Arises) (h : p.Answers bytes allocated b p') : Arises p'
  | release {p : StagingPool} (b : StagingBuffer) (hp : p.Arises) : Arises (p.release b)
  | drain {p : StagingPool} (hp : p.Arises) : Arises p.drain

/-- No null block gets on a free list. -/
theorem StagingPool.Arises.real {p : StagingPool} (h : p.Arises) : ∀ f ∈ p.freeList, f.2 ≠ 0 := by
  induction h with
  | fresh capacity | drain hp ih => exact List.forall_mem_nil _
  | answer hp h ih =>
      cases h with
      | same hb => exact ih
      | reused data hne hfree hrest => exact fun f hf => ih f (hrest.mem_iff.mpr (.tail _ hf))
      | grown data hne hfits hdata => exact fun f hf => ih f ((grows_grow _ _ data).freeList ▸ hf)
  | release b hp ih =>
      unfold StagingPool.release
      split_ifs with hb
      · exact ih
      · exact List.forall_mem_append.mpr ⟨ih, List.forall_mem_singleton.mpr (not_or.mp hb).1⟩

/-! What has been drawn from each pool. -/

/-- The kinds name the same pool. -/
abbrev SamePool (k k' : PoolKind) : Prop := k = .hostPinned ↔ k' = .hostPinned

def inPool (k : PoolKind) (bufs : List (PoolKind × StagingBuffer)) : List StagingBuffer :=
  (bufs.filter fun p => decide (SamePool p.1 k)).map Prod.snd

theorem inPool_perm {k : PoolKind} {bufs bufs' : List (PoolKind × StagingBuffer)}
    (h : List.Perm bufs bufs') : List.Perm (inPool k bufs) (inPool k bufs') :=
  (h.filter _).map _

theorem inPool_cons {k k' : PoolKind} {b : StagingBuffer} {bufs : List (PoolKind × StagingBuffer)} :
    inPool k ((k', b) :: bufs) = if SamePool k' k then b :: inPool k bufs else inPool k bufs := by
  unfold inPool
  rw [List.filter_cons]
  simp only [decide_eq_true_eq]
  split_ifs <;> rfl

/-- One pool, with what a thread has drawn from it. -/
def drawn (w : World) (k : PoolKind) (bufs : List (PoolKind × StagingBuffer)) : PoolHistory :=
  { pool := w.pool k, outstanding := inPool k bufs }

theorem inPool_take {k k' : PoolKind} (hk : SamePool k k') (w : World) (b : StagingBuffer)
    (bufs : List (PoolKind × StagingBuffer)) :
    List.Perm (inPool k' (bufs ++ liveBufs k [b])) ((drawn w k' bufs).take (some b)) := by
  by_cases hb : b.null
  · have hnone : liveBufs k [b] = [] := liveBufs_cons_null hb
    rw [hnone, List.append_nil, PoolHistory.take_null hb]
    exact List.Perm.refl _
  · refine (inPool_perm List.perm_append_comm).trans ?_
    rw [liveBufs_cons_live hb, List.cons_append, inPool_cons, if_pos hk, PoolHistory.take_some hb]
    exact List.Perm.refl _

theorem inPool_take_other {k k' : PoolKind} (hk : ¬ SamePool k k') (b : StagingBuffer)
    (bufs : List (PoolKind × StagingBuffer)) :
    List.Perm (inPool k' (bufs ++ liveBufs k [b])) (inPool k' bufs) := by
  refine (inPool_perm List.perm_append_comm).trans ?_
  by_cases hb : b.null
  · rw [liveBufs_cons_null hb]
    exact List.Perm.refl _
  · rw [liveBufs_cons_live hb, List.cons_append, inPool_cons, if_neg hk]
    exact List.Perm.refl _

/-- Between the world `base`, where the call began, and `w` the thread has drawn the buffers
it knows of. -/
structure Draws (base : World) (r : Ref) (w : World) (m : View) : Prop where
  own : m.own = some (r, w.heap r)
  real : ∀ k, (drawn w k m.bufs).Real
  usage : ∀ k, (w.pool k).usage.toNat =
    ((base.pool k).usage.toNat + (drawn w k m.bufs).outBytes) % 2 ^ 64
  stock : ∀ k, ∃ new, List.Perm (drawn w k m.bufs).blocks ((base.pool k).freeList ++ new) ∧
    (new.map Prod.snd).Nodup ∧ ∀ f ∈ new, f ∉ (base.pool k).freeList
  held : List.Subperm (m.bufs.map fun p => (⟨r, p.1, p.2⟩ : Hold)) w.held
  obtained : ∃ new, w.obtained = base.obtained ++ new ∧
    ∀ h ∈ new, h.buf.block ∈ (drawn w h.pool m.bufs).blocks

variable {base w w' : World} {m m' : View} {r : Ref} {i : Tid}

theorem Draws.same (h : Draws base r w m) (hown : m'.own = some (r, w'.heap r))
    (hbufs : m'.bufs = m.bufs) (hs : w.StagingSame w') : Draws base r w' m' := by
  have hdrawn : ∀ k, drawn w' k m'.bufs = drawn w k m.bufs := fun k => by
    rw [drawn, drawn, hs.pool, hbufs]
  refine ⟨hown, fun k => hdrawn k ▸ h.real k, fun k => ?_, fun k => hdrawn k ▸ h.stock k, ?_, ?_⟩
  · rw [hdrawn, hs.pool]
    exact h.usage k
  · rw [hbufs, hs.held]
    exact h.held
  · obtain ⟨new, hnew, hmem⟩ := h.obtained
    exact ⟨new, hs.obtained.trans hnew, fun x hx => hdrawn x.pool ▸ hmem x hx⟩

/-- The pool goes on along its history, and what it gets from the allocator is new. -/
structure Continues (s : PoolHistory) (e : PoolEvent) (t : PoolHistory) : Prop where
  change : PoolHistory.Change s e t
  lasting : e ≠ .drain
  fresh : ∀ n a, (n, a) ∈ e.grant → a ∉ s.addresses

/-- A pool the call does not touch. -/
theorem Continues.same {k : PoolKind} {bufs bufs' : List (PoolKind × StagingBuffer)}
    (hpool : w'.pool k = w.pool k) (hbufs : List.Perm (inPool k bufs') (inPool k bufs)) :
    Continues (drawn w k bufs) (.release {}) (drawn w' k bufs') where
  change := .same hpool hbufs
  lasting he := by cases he
  fresh n a h := by cases h

/-- A step of the pools, each along its own history. -/
theorem Draws.step (h : Draws base r w m) (extra : List Hold)
    (hown : m'.own = some (r, w'.heap r))
    (hchange : ∀ k, ∃ e, Continues (drawn w k m.bufs) e (drawn w' k m'.bufs))
    (hheld : List.Subperm (m'.bufs.map fun p => (⟨r, p.1, p.2⟩ : Hold)) w'.held)
    (hobtained : w'.obtained = w.obtained ++ extra)
    (hextra : ∀ x ∈ extra, x.buf.block ∈ (drawn w' x.pool m'.bufs).blocks) : Draws base r w' m' := by
  refine ⟨hown, fun k => ?_, fun k => ?_, fun k => ?_, hheld, ?_⟩
  · obtain ⟨e, hc⟩ := hchange k
    exact hc.change.real (h.real k)
  · obtain ⟨e, hc⟩ := hchange k
    have husage := h.usage k
    have hlt := (w'.pool k).usage.toNat_lt
    rcases hc.change.usage with hmoved | ⟨he, -⟩
    · change ((w'.pool k).usage.toNat + _) % _ = ((w.pool k).usage.toNat + _) % _ at hmoved
      omega
    · exact absurd he hc.lasting
  · obtain ⟨e, hc⟩ := hchange k
    obtain ⟨new, hperm, hnodup, hnew⟩ := h.stock k
    cases hc.change.stock with
    | same hblocks halloc => exact ⟨new, hblocks.trans hperm, hnodup, hnew⟩
    | more bytes data hgrant hfits hblocks halloc =>
        -- the new block is live nowhere, neither in the pool's first state nor since
        have hlive : data ∉ ((base.pool k).freeList ++ new).map Prod.snd := fun hmem =>
          hc.fresh bytes data hgrant ((hperm.map Prod.snd).mem_iff.mpr hmem)
        rw [List.map_append, List.mem_append, not_or] at hlive
        refine ⟨(bytes, data) :: new, (hblocks.trans (hperm.cons _)).trans List.perm_middle.symm,
          List.nodup_cons.mpr ⟨hlive.2, hnodup⟩, List.forall_mem_cons.mpr ⟨fun hmem => ?_, hnew⟩⟩
        exact hlive.1 (List.mem_map_of_mem hmem)
    | none he hblocks halloc => exact absurd he hc.lasting
  · obtain ⟨new, hnew, hmem⟩ := h.obtained
    refine ⟨new ++ extra, by rw [hobtained, hnew, List.append_assoc], fun x hx => ?_⟩
    rcases List.mem_append.mp hx with hx | hx
    · obtain ⟨e, hc⟩ := hchange x.pool
      cases hc.change.stock with
      | same hblocks halloc => exact hblocks.mem_iff.mpr (hmem x hx)
      | more bytes data hgrant hfits hblocks halloc =>
          exact hblocks.mem_iff.mpr (.tail _ (hmem x hx))
      | none he hblocks halloc => exact absurd he hc.lasting
    · exact hextra x hx

/-- The pools after a buffer was obtained. -/
theorem pool_after_allocate (w : World) (i : Tid) (r : Ref) (k k' : PoolKind) (bytes : ByteCount)
    (b : StagingBuffer) :
    (w.after i (.allocate r k bytes) (some b)).pool k' =
      if SamePool k' k then ((w.pool k).allocate bytes (some b.data)).2 else w.pool k' := by
  rw [(w.after_staging i (.allocate r k bytes) (some b)).pool]
  exact (World.pool_takeHold _ r k b k').trans (World.pool_setPool w k k' _)

theorem pool_after_release (w : World) (i : Tid) (r : Ref) (k k' : PoolKind) (b : StagingBuffer) :
    (w.after i (.release r k b) ()).pool k' =
      if SamePool k' k then (w.pool k).release b else w.pool k' := by
  rw [(w.after_staging i (.release r k b) ()).pool]
  exact (World.pool_giveBack w r k b k').trans (World.pool_setPool w k k' _)

/-- What the thread holds is live. -/
theorem Draws.addresses_live (h : Draws base r w m) {k : PoolKind} {a : Address}
    (ha : a ∈ (drawn w k m.bufs).addresses) : a ∈ w.liveIn k := by
  rw [PoolHistory.addresses, PoolHistory.blocks, List.map_append] at ha
  refine List.mem_append.mpr ((List.mem_append.mp ha).imp_right fun ha => ?_)
  obtain ⟨x, hx, rfl⟩ := List.mem_map.mp ha
  obtain ⟨b, hb, rfl⟩ := List.mem_map.mp hx
  obtain ⟨⟨k', b'⟩, hmem, rfl⟩ := List.mem_map.mp hb
  obtain ⟨hbuf, hsame⟩ := List.mem_filter.mp hmem
  refine List.mem_map.mpr ⟨⟨r, k', b'⟩, List.mem_filter.mpr ⟨?_, hsame⟩, rfl⟩
  exact h.held.subset (List.mem_map_of_mem hbuf)

theorem allocation_ne_zero {ch : Chance} {a : Address} (h : World.allocation ch = some a) : a ≠ 0 := by
  rintro rfl
  simpa using (Option.filter_eq_some_iff.mp h).2

/-- The pool that was asked for a buffer, and gave one. -/
theorem Draws.continues_allocate {k k' : PoolKind} {bytes : ByteCount} {ch : Chance}
    {b : StagingBuffer} (h : Draws base r w m) (hunused : w.Unused ch (.allocate r k bytes))
    (hx : ((w.pool k).allocate bytes (World.allocation ch)).1 = some b) (hk : SamePool k k')
    (hpool : w'.pool k' = ((w.pool k).allocate bytes (some b.data)).2) :
    Continues (drawn w k' m.bufs) (.allocate bytes (World.allocation ch))
      (drawn w' k' (m.bufs ++ liveBufs k [b])) := by
  have hanswer : (drawn w k' m.bufs).pool.Answers bytes (World.allocation ch) (some b)
      (drawn w' k' (m.bufs ++ liveBufs k [b])).pool := by
    have hans := (w.pool k).allocate_answers bytes (World.allocation ch)
    rw [hx, ← StagingPool.allocate_data hx, ← hpool, ← World.pool_congr hk] at hans
    exact hans
  refine ⟨?_, fun he => (by cases he), ?_⟩
  · refine PoolHistory.change_of_answers (h.real k').free (fun a ha => ?_) hanswer
      (inPool_take hk w b m.bufs)
    exact ⟨allocation_ne_zero ha, by rw [PoolEvent.grant, ha]; rfl⟩
  · intro n a ha hmem
    obtain ⟨a', ha', heq⟩ := Option.mem_map.mp ha
    obtain ⟨-, rfl⟩ := Prod.mk.inj heq
    refine hunused k rfl a' ha' ?_
    have hlive := h.addresses_live hmem
    unfold World.liveIn World.heldIn at hlive ⊢
    rw [World.pool_congr hk] at hlive
    simpa only [hk] using hlive

theorem Draws.allocate {k : PoolKind} {bytes : ByteCount} {ch : Chance} {b : StagingBuffer}
    (h : Draws base r w m) (hunused : w.Unused ch (.allocate r k bytes))
    (hx : ((w.pool k).allocate bytes (World.allocation ch)).1 = some b)
    (hw' : w' = w.after i (.allocate r k bytes) (some b)) : Draws base r w' (m.takeBuf k b) := by
  have hs := w.after_staging i (.allocate r k bytes) (some b)
  have hheap := (w.after_changes i (.allocate r k bytes) (some b)).heap (fun _ h => by cases h) r
  obtain ⟨hobtained, hheld, -⟩ := w.setPool_ledger k ((w.pool k).allocate bytes (some b.data)).2
  obtain ⟨hheld', hobtained'⟩ :=
    (w.setPool k ((w.pool k).allocate bytes (some b.data)).2).takeHold_ledger r k b
  rw [hheld] at hheld'
  rw [hobtained] at hobtained'
  rw [← hw'] at hs hheap
  obtain ⟨left, htake, rfl⟩ := takeBuf_eq m k b
  rw [htake]
  refine h.step (if b.null then [] else [⟨r, k, b⟩]) ?_ (fun k' => ?_) ?_
    (hs.obtained.trans hobtained') ?_
  · rw [hheap]
    exact h.own
  · by_cases hk : SamePool k k'
    · refine ⟨_, h.continues_allocate hunused hx hk ?_⟩
      rw [hw', pool_after_allocate, if_pos hk.symm]
    · refine ⟨_, Continues.same ?_ (inPool_take_other hk b m.bufs)⟩
      rw [hw', pool_after_allocate, if_neg fun h' => hk h'.symm]
  · have hmap : (liveBufs k [b]).map (fun p => (⟨r, p.1, p.2⟩ : Hold)) =
        if b.null then [] else [⟨r, k, b⟩] := by
      split_ifs with hb
      · rw [liveBufs_cons_null hb]
        rfl
      · rw [liveBufs_cons_live hb]
        rfl
    rw [hs.held.trans hheld', List.map_append, hmap]
    exact (List.subperm_append_right _).mpr h.held
  · intro x hx
    split_ifs at hx with hb
    · cases hx
    · obtain rfl := List.mem_singleton.mp hx
      have hmem : b ∈ inPool k (m.bufs ++ liveBufs k [b]) := by
        rw [(inPool_take (Iff.refl _) w b m.bufs).mem_iff, PoolHistory.take_some hb]
        exact List.mem_cons_self
      exact List.mem_append_right _ (List.mem_map_of_mem hmem)

theorem Draws.release {k : PoolKind} {b : StagingBuffer} (h : Draws base r w m)
    (hmem : ¬ b.null → (k, b) ∈ m.bufs) (hw' : w' = w.after i (.release r k b) ()) :
    Draws base r w' (m.dropBuf k b) := by
  have hs := w.after_staging i (.release r k b) ()
  have hheap := (w.after_changes i (.release r k b) ()).heap (fun _ h => by cases h) r
  rw [← hw'] at hs hheap
  have hown : m.own = some (r, w'.heap r) := by
    rw [hheap]
    exact h.own
  by_cases hb : b.null
  · have hdrop : m.dropBuf k b = m := if_pos hb
    have hgive : w.share i (.release r k b) () = w := World.giveBack_null hb
    rw [hgive] at hs
    rw [hdrop]
    exact h.same hown rfl hs
  · have hdrop : m.dropBuf k b = { m with bufs := m.bufs.erase (k, b) } := if_neg hb
    have hperm := List.perm_cons_erase (hmem hb)
    obtain ⟨hheld, hobtained⟩ := World.giveBack_ledger (w := w) (r := r) (k := k) hb
    rw [hdrop]
    refine h.step [] hown (fun k' => ?_) ?_ ?_ (fun x hx => by cases hx)
    · have hout := inPool_perm (k := k') hperm
      rw [inPool_cons] at hout
      by_cases hk : SamePool k k'
      · rw [if_pos hk] at hout
        refine ⟨.release b, .released b hb ?_ hout, fun he => (by cases he), fun n a ha => (by cases ha)⟩
        show w'.pool k' = (w.pool k').release b
        rw [hw', pool_after_release, if_pos hk.symm, World.pool_congr hk]
      · rw [if_neg hk] at hout
        refine ⟨_, Continues.same ?_ hout.symm⟩
        rw [hw', pool_after_release, if_neg fun h' => hk h'.symm]
    · rw [hs.held.trans hheld]
      have hinj : Function.Injective fun p : PoolKind × StagingBuffer => (⟨r, p.1, p.2⟩ : Hold) := by
        rintro ⟨k₁, b₁⟩ ⟨k₂, b₂⟩ heq
        simpa using heq
      have hmap : (m.bufs.erase (k, b)).map (fun p => (⟨r, p.1, p.2⟩ : Hold)) =
          (m.bufs.map fun p => (⟨r, p.1, p.2⟩ : Hold)).erase ⟨r, k, b⟩ :=
        List.map_erase hinj m.bufs
      exact hmap ▸ h.held.erase ⟨r, k, b⟩
    · rw [List.append_nil]
      exact hs.obtained.trans hobtained

/-- One call of a reservation or of its undoing. -/
theorem Draws.call {rt : Runtime} {c : RtCall} {x : RtAnswer c} (h : Draws base r w m)
    (hc : c.prepares r = true) (hpermit : m.Permits rt True c) (he : alone i w c x w') :
    m.Sees c x ∧ Draws base r w' (m.after c x) := by
  obtain ⟨⟨ch, hunused, hx⟩, rfl⟩ := he
  have hheap := (w.after_changes i c x).heap (by rintro t rfl; cases hc) r
  cases c with
  | load r' =>
      obtain rfl : r' = r := of_decide_eq_true hc
      obtain rfl : w.heap r' = x := Option.some.inj hx
      refine ⟨fun t ht => ?_, ?_⟩
      · rw [h.own] at ht
        exact (Prod.mk.inj (Option.some.inj ht)).2
      · rw [View.after, View.edit_none _ rfl]
        exact h.same (hheap ▸ h.own) rfl (w.after_staging_same i rfl _)
  | setStaging r' bufs =>
      obtain rfl : r' = r := of_decide_eq_true hc
      have hedit : (RtCall.setStaging r' bufs).edits = some r' := rfl
      refine ⟨trivial, ?_⟩
      rw [View.after, View.edit_own x h.own hedit]
      refine h.same ?_ rfl (w.after_staging_same i rfl _)
      rw [hheap, if_pos hedit]
      rfl
  | pushStaging r' j b =>
      obtain rfl : r' = r := of_decide_eq_true hc
      have hedit : (RtCall.pushStaging r' j b).edits = some r' := rfl
      refine ⟨trivial, ?_⟩
      rw [View.after, View.edit_own x h.own hedit]
      refine h.same ?_ rfl (w.after_staging_same i rfl _)
      rw [hheap, if_pos hedit]
      rfl
  | allocate r' k bytes =>
      obtain rfl : r' = r := of_decide_eq_true hc
      refine ⟨trivial, ?_⟩
      rw [View.after, View.edit_none _ rfl]
      cases x with
      | none =>
          refine h.same (hheap ▸ h.own) rfl ?_
          exact w.after_staging i (.allocate r' k bytes) none
      | some b => exact h.allocate hunused (Option.some.inj hx) rfl
  | release r' k b =>
      obtain rfl : r' = r := of_decide_eq_true hc
      refine ⟨trivial, ?_⟩
      rw [View.after, View.edit_none _ rfl]
      exact h.release (hpermit.2 trivial) rfl
  | count op =>
      refine ⟨trivial, ?_⟩
      rw [View.after, View.edit_none _ rfl]
      have hplain : op.Plain := by
        cases op <;> first | (cases hc; done) | exact ⟨by simp, rfl⟩
      have hlearn : m.learn (.count op) x = m := by
        show m.noteCount op = m
        simp [View.noteCount, hplain.1, hplain.2]
      rw [hlearn]
      exact h.same (hheap ▸ h.own) rfl (w.after_staging_same i rfl _)
  | _ => cases hc

/-! The reservation. -/

/-- The pools follow what the thread knows of its buffers. -/
theorem draws_step {rt : Runtime} (w : World) (m : View) (c : RtSig.Call) (x : RtSig.Answer c)
    (w' : World) (hc : c.prepares r = true) (h : Draws base r w m) (hpermit : m.Permits rt True c)
    (he : alone i w c x w') : ∃ m', View.step m c x m' ∧ Draws base r w' m' :=
  ⟨m.after c x, ⟨(h.call hc hpermit he).1, rfl⟩, (h.call hc hpermit he).2⟩

theorem draws_start (w : World) (i : Tid) (op : Op) (r : Ref) (hpools : ∀ k, (w.pool k).Arises) :
    Draws w r w { me := i, op, own := some (r, w.heap r) } where
  own := rfl
  real k := ⟨(hpools k).real, fun b hb => (by cases hb)⟩
  usage k := (Nat.mod_eq_of_lt (w.pool k).usage.toNat_lt).symm
  stock k := ⟨[], List.Perm.refl _, List.nodup_nil, List.forall_mem_nil _⟩
  held := List.nil_subperm
  obtained := ⟨[], (List.append_nil _).symm, fun x hx => (by cases hx)⟩

/-- The buffers obtained since `w`. -/
def takenSince (w w' : World) : List Hold := w'.obtained.drop w.obtained.length

/-- Nothing is left of a reservation: the pools are in use as before, the record has no
buffers, what was free is free as often as before, besides new blocks that are free once, and every
buffer that was taken is free in its own pool, once unless it was there more than once. -/
structure Undone (w w' : World) (r : Ref) : Prop where
  usage : ∀ k, (w'.pool k).usage = (w.pool k).usage
  unstaged : (w'.heap r).body.stagingBufs = []
  stock : ∀ k, ∃ new, List.Perm (w'.pool k).freeList ((w.pool k).freeList ++ new) ∧
    (new.map Prod.snd).Nodup ∧ ∀ f ∈ new, f ∉ (w.pool k).freeList
  free : ∀ h ∈ takenSince w w', (w'.pool h.pool).freeList.count h.buf.block = 1 ↔
    (w.pool h.pool).freeList.count h.buf.block ≤ 1

/-- A block of two lists, in the second of which each is once and new. -/
theorem count_append_eq_one_iff {α : Type} [BEq α] [LawfulBEq α] {l new : List α} {x : α}
    (hnodup : new.Nodup) (hnew : ∀ f ∈ new, f ∉ l) (hx : x ∈ l ++ new) :
    (l ++ new).count x = 1 ↔ l.count x ≤ 1 := by
  have hone := List.nodup_iff_count_le_one.mp hnodup x
  rw [List.count_append]
  by_cases hmem : x ∈ new
  · have hzero := List.count_eq_zero.mpr (hnew x hmem)
    have hpos := List.count_pos_iff.mpr hmem
    omega
  · have hzero := List.count_eq_zero.mpr hmem
    have hpos := List.count_pos_iff.mpr ((List.mem_append.mp hx).resolve_right hmem)
    omega

theorem Draws.undone (h : Draws base r w m) (hbufs : m.bufs = [])
    (hrecord : (w.heap r).body.stagingBufs = []) : Undone base w r := by
  have hnone : ∀ k, inPool k m.bufs = [] := fun k => by rw [hbufs]; rfl
  have hblocks : ∀ k, (drawn w k m.bufs).blocks = (w.pool k).freeList := fun k => by
    rw [PoolHistory.blocks, drawn, hnone, List.map_nil, List.append_nil]
  have hstock := h.stock
  simp only [hblocks] at hstock
  refine ⟨fun k => UInt64.toNat_inj.mp ?_, hrecord, hstock, fun x hx => ?_⟩
  · have hout : (drawn w k m.bufs).outBytes = 0 := by
      rw [PoolHistory.outBytes, drawn, hnone]
      rfl
    rw [h.usage k, hout, Nat.add_zero]
    exact Nat.mod_eq_of_lt (base.pool k).usage.toNat_lt
  · obtain ⟨since, hsince, hmem⟩ := h.obtained
    rw [takenSince, hsince, List.drop_left] at hx
    obtain ⟨new, hperm, hnodup, hnew⟩ := hstock x.pool
    rw [hperm.count_eq]
    exact count_append_eq_one_iff hnodup.of_map hnew
      (hperm.mem_iff.mp (hblocks x.pool ▸ hmem x hx))

/-- The buffers of a record that lists none. -/
theorem releaseNodes_bare {t : Transfer} (h : t.body.stagingBufs = []) (r : Ref) (count start : Nat) :
    releaseNodes r t count start = pure () := by
  induction count generalizing start with
  | zero => rfl
  | succ count ih =>
      have hnode : t.body.stagingBufs.getD start [] = [] := by
        rw [h]
        rfl
      unfold releaseNodes forLoop
      rw [hnode]
      exact ih (start + 1)

/-- The pools are those of `base`, and the record lists no buffers. -/
structure Bare (base : World) (r : Ref) (w : World) : Prop where
  pools : ∀ k, w.pool k = base.pool k
  unstaged : (w.heap r).body.stagingBufs = []

/-- A call that touches neither the staging memory nor the body of a record. -/
def RtCall.spares (c : RtCall) : Prop :=
  c.stages = false ∧ (∀ t, c ≠ .insert t) ∧ ∀ t x, (c.edit t x).body = t.body

theorem Bare.call {c : RtCall} {x : RtAnswer c} (h : Bare base r w) (hc : c.spares)
    (he : alone i w c x w') : Bare base r w' := by
  obtain ⟨-, rfl⟩ := he
  obtain ⟨hstages, hinsert, hbody⟩ := hc
  refine ⟨fun k => ((w.after_staging_same i hstages x).pool k).trans (h.pools k), ?_⟩
  rw [(w.after_changes i c x).heap hinsert r]
  split_ifs
  · rw [hbody]
    exact h.unstaged
  · exact h.unstaged

theorem wp_releaseStaging_bare (h : Bare base r w) :
    wp (fun _ _ => True) (alone i) (releaseStaging r) (fun _ w' => ∀ k, w'.pool k = base.pool k) w := by
  refine ⟨trivial, fun t w₁ he => ?_⟩
  have h₁ : Bare base r w₁ := h.call ⟨rfl, fun _ h => (by cases h), fun _ _ => rfl⟩ he
  obtain ⟨⟨ch, -, ht⟩, -⟩ := he
  obtain rfl : w.heap r = t := Option.some.inj ht
  change wp _ _ (if (w.heap r).body.route.legs = [] then _ else _) _ w₁
  split_ifs
  · exact h₁.pools
  · rw [releaseNodes_bare h.unstaged]
    refine ⟨trivial, ?_⟩
    rintro _ w₂ ⟨-, rfl⟩ k
    have hsame := w₁.after_staging_same i (c := .setStaging r []) rfl ()
    exact (hsame.pool k).trans (h₁.pools k)

theorem Transfer.setTerminal_body (t : Transfer) (s : TransferState) (e : Error) :
    (t.setTerminal s e).body = t.body := by
  unfold Transfer.setTerminal
  split_ifs <;> rfl

theorem spares_count (op : TelemetryOp) : (RtCall.count op).spares :=
  ⟨rfl, fun _ h => (by cases h), fun _ _ => rfl⟩

theorem wp_finalize_bare (e : Error) (h : Bare base r w) :
    wp (fun _ _ => True) (alone i) (finalize r e) (fun _ w' => ∀ k, w'.pool k = base.pool k) w := by
  have hrest : ∀ w₁, Bare base r w₁ → wp (fun _ _ => True) (alone i) (do
      let t : Transfer ← ask (.load r)
      countAll (t.outcomeOps e)
      releaseStaging r) (fun _ w' => ∀ k, w'.pool k = base.pool k) w₁ := by
    intro w₁ h₁
    refine ⟨trivial, fun t w₂ he => ?_⟩
    have h₂ : Bare base r w₂ := h₁.call ⟨rfl, fun _ h => (by cases h), fun _ _ => rfl⟩ he
    have hcount : wp (fun _ _ => True) (alone i) (countAll (t.outcomeOps e))
        (fun _ => Bare base r) w₂ :=
      (calls_countAll (P := RtCall.spares) fun op _ => spares_count op).wp_invariant
        (Bare base r) (fun _ _ _ _ => trivial) (fun _ _ _ _ hc hI he => hI.call hc he) h₂
    refine (wp_bind (countAll (t.outcomeOps e)) _ _ _).mpr ?_
    exact wp_mono _ hcount fun _ _ h₃ => wp_releaseStaging_bare h₃
  refine ⟨trivial, fun _ w₁ he => ?_⟩
  have hspares : (RtCall.setTerminal r (terminalFor e) e).spares :=
    ⟨rfl, fun _ h => (by cases h), fun t _ => t.setTerminal_body _ _⟩
  have h₁ : Bare base r w₁ := h.call hspares he
  refine ⟨trivial, fun started w₂ he => ?_⟩
  have h₂ : Bare base r w₂ := h₁.call ⟨rfl, fun _ h => (by cases h), fun _ _ => rfl⟩ he
  cases started with
  | false => exact hrest w₂ h₂
  | true => exact ⟨trivial, fun _ w₃ he => hrest w₃ (h₂.call (spares_count _) he)⟩

theorem failed_reservation_undone (rt : Runtime) (i : Tid) (r : Ref) (w w' : World) (e : Error)
    (hpools : ∀ k, (w.pool k).Arises) (hrun : Exec (alone i) (reserveStaging rt.depth r) w e w')
    (herr : e.ok = false) :
    Undone w w' r ∧
      ∀ u w'', Exec (alone i) (finalize r e) w' u w'' → ∀ k, w''.pool k = w'.pool k := by
  have hkeeps : Keeps rt True (reserveStaging rt.depth r)
      (fun e m => e.ok = false → m.bufs = [] ∧ ∃ t, m.own = some (r, t) ∧ t.body.stagingBufs = [])
      { me := i, op := .shutdown, own := some (r, w.heap r) } := by
    refine keeps_reserveStaging rfl (fun _ => rfl) ?_
    rintro e bufs left (rfl | ⟨rfl, rfl⟩) hleft herr
    · cases herr
    · have hnone := hleft trivial
      rw [Transfer.staged_bare fun j => rfl] at hnone
      exact ⟨List.perm_nil.mp hnone, _, rfl, rfl⟩
  have hwp := (calls_reserveStaging rt.depth).wp_simulates (Draws w r)
    (draws_step (i := i)) hkeeps (draws_start w i .shutdown r hpools)
  obtain ⟨m, hdraws, hend⟩ := wp_exec _ hwp hrun
  obtain ⟨hbufs, t, hown, hrecord⟩ := hend herr
  obtain rfl : w'.heap r = t := by
    rw [hdraws.own] at hown
    exact (Prod.mk.inj (Option.some.inj hown)).2
  exact ⟨hdraws.undone hbufs hrecord, fun u w'' hfinal =>
    wp_exec _ (wp_finalize_bare e ⟨fun _ => rfl, hrecord⟩) hfinal⟩

/-! A reservation that gets the first of its two buffers. -/

/-- The allocator counts its blocks. -/
def countingBlocks (w : World) : Chance :=
  { fair 1 with allocated := some (0x1000 * (UInt64.ofNat w.obtained.length + 1)) }

def World.serve (i : Tid) (w : World) (c : RtCall) : Option (RtAnswer c × World) :=
  if w.Unused (countingBlocks w) c then
    (w.answer (countingBlocks w) c).map fun x => (x, w.after i c x)
  else none

theorem World.serve_alone (w : World) (c : RtCall) (y : RtAnswer c × World)
    (h : w.serve i c = some y) : alone i w c y.1 y.2 := by
  unfold World.serve at h
  split_ifs at h with hunused
  obtain ⟨x, hx, rfl⟩ := Option.map_eq_some_iff.mp h
  exact ⟨⟨_, hunused, hx⟩, rfl⟩

theorem emptyOf64_built : ({ chunkSize := 64 } : ChunkPlan).Built :=
  Or.inr ⟨{ preferredChunk := 64 }, rfl⟩

/-- The route goes through one host buffer, and the pool has room for one of 64 bytes. -/
def roomForOne : World :=
  { loopback.initial with
    hostPool := { capacityBytes := 100 }
    heap := fun _ =>
      { body := { route := stagedRoute, chunkPlan := ⟨{ chunkSize := 64 }, emptyOf64_built⟩ } } }

theorem roomForOne_arises (k : PoolKind) : (roomForOne.pool k).Arises := by
  cases k <;> exact .fresh _

theorem refusedSecond_undone :
    ∃ e w', Exec (alone 0) (reserveStaging loopback.depth 0) roomForOne e w' ∧ e.ok = false ∧
      (takenSince roomForOne w').length = 1 ∧ Undone roomForOne w' 0 ∧
      ∀ u w'', Exec (alone 0) (finalize 0 e) w' u w'' → ∀ k, w''.pool k = w'.pool k := by
  obtain ⟨e, w', hrun, hcheck⟩ := Prog.perform_exec (World.serve_alone (i := 0))
    (reserveStaging loopback.depth 0) (w := roomForOne)
    (P := fun y => y.1.ok = false ∧ (takenSince roomForOne y.2).length = 1) (by decide +kernel)
  obtain ⟨hfails, hone⟩ := of_decide_eq_true hcheck
  exact ⟨e, w', hrun, hfails, hone,
    failed_reservation_undone loopback 0 0 _ _ _ roomForOne_arises hrun hfails⟩

/-- Two blocks of a pool have each been given back twice. -/
def givenBackTwice : StagingPool :=
  let p := ((StagingPool.allocate { capacityBytes := 128 } 64 (some 0x30000)).2.allocate 64
    (some 0x40000)).2
  ((((p.release ⟨0x30000, 64, 0⟩).release ⟨0x40000, 64, 0⟩).release ⟨0x30000, 64, 0⟩).release
    ⟨0x40000, 64, 0⟩)

/-- The host pool is in that state, and the route goes on through a pinned pool without room. -/
def noPinnedRoom : World :=
  { roomForOne with
    hostPool := givenBackTwice
    pinnedPool := { capacityBytes := 0 }
    heap := fun _ => { body :=
      { route :=
          { legs := [{ sourceDomain := .storage, destDomain := .hostPageable },
              { sourceDomain := .hostPageable, destDomain := .hostPinned },
              { sourceDomain := .hostPinned, destDomain := .device }] }
        chunkPlan := ⟨{ chunkSize := 64 }, emptyOf64_built⟩ } } }

theorem noPinnedRoom_arises (k : PoolKind) : (noPinnedRoom.pool k).Arises := by
  have hgiven : givenBackTwice.Arises := .release _ (.release _ (.release _ (.release _
    (.answer (.answer (.fresh 128) (StagingPool.allocate_answers ..))
      (StagingPool.allocate_answers ..)))))
  cases k with
  | hostPinned => exact .fresh 0
  | none | host | device => exact hgiven

/-- The reservation fails at the pinned pool, and a buffer it had taken is free twice. -/
theorem noPinnedRoom_free_twice :
    (∀ k, (noPinnedRoom.pool k).Arises) ∧
      ∃ e w', Exec (alone 0) (reserveStaging loopback.depth 0) noPinnedRoom e w' ∧ e.ok = false ∧
        ∃ h ∈ takenSince noPinnedRoom w', (w'.pool h.pool).freeList.count h.buf.block = 2 := by
  obtain ⟨e, w', hrun, hcheck⟩ := Prog.perform_exec (World.serve_alone (i := 0))
    (reserveStaging loopback.depth 0) (w := noPinnedRoom) (P := fun y => y.1.ok = false ∧
      ∃ h ∈ takenSince noPinnedRoom y.2, (y.2.pool h.pool).freeList.count h.buf.block = 2)
    (by decide +kernel)
  exact ⟨noPinnedRoom_arises, e, w', hrun, of_decide_eq_true hcheck⟩

end TransferFabric
