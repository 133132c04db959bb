import TransferFabric.Transports.Frame

/-!
A decoder over a whole stream, from one reset to the next. What it was fed is
accounted for byte by byte; a rejection is final, since the bytes that caused it
stay at the head of the buffer; and a call that neither delivers nor rejects
leaves less than one frame of the greatest size.

Nothing is claimed about the size of the buffer after a rejection: the bytes of
every later call are still added to it.
-/

namespace TransferFabric

open Framing FrameLayout

namespace FrameDecoder

def reset (_ : FrameDecoder) : FrameDecoder := {}

/-- The decoder after the calls. -/
def after (d : FrameDecoder) (calls : List (List Byte)) : FrameDecoder :=
  calls.foldl (fun d data => (d.feed data {}).2.2) d

/-- The bytes of one frame, and what is read from them. -/
structure Raw (f : DecodedFrame) (raw : List Byte) : Prop where
  magic : f.header.magic = Protocol.kMagic
  version : f.header.version = Protocol.kVersion
  fits : f.header.payloadLength.toNat ≤ Protocol.kMaxPayload
  declared : f.payload.length = f.header.payloadLength.toNat
  header : f.header = headerAt raw
  bytes : raw = raw.take kHeaderSize ++ f.payload
  size : raw.length = kHeaderSize + f.header.payloadLength.toNat

theorem raw_of_scan {f : DecodedFrame} {raw : List Byte} (h : scan raw = .frame f []) :
    Raw f raw := by
  have hs := scanned raw
  generalize ho : scan raw = out at hs
  rw [h] at ho
  subst ho
  generalize hrest : ([] : List Byte) = rest at hs
  cases hs with
  | frame hwhole _ =>
      have hlen : raw.length = kHeaderSize + (get32 raw kPayloadLenOff).toNat :=
        Nat.le_antisymm (List.drop_eq_nil_iff.mp hrest.symm) hwhole.complete
      have hpayload : payloadAt raw = raw.drop kHeaderSize := by
        refine List.take_of_length_le ?_
        rw [List.length_drop]
        omega
      refine ⟨hwhole.magic, hwhole.version, hwhole.fits, ?_, rfl, ?_, hlen⟩
      · rw [hpayload, List.length_drop, hlen]
        exact Nat.add_sub_cancel_left _ _
      · rw [hpayload, List.take_append_drop]

theorem scan_wait_lt {p : List Byte} (h : scan p = .wait) :
    p.length < kHeaderSize + Protocol.kMaxPayload := by
  unfold scan at h
  split at h
  · rename_i hshort
    exact Nat.lt_of_lt_of_le hshort (Nat.le_add_right _ _)
  repeat' split at h
  all_goals cases h
  rename_i hfits hshort
  exact Nat.lt_of_lt_of_le hshort (Nat.add_le_add_left (Nat.not_lt.mp hfits) _)

/-! One call. -/

section Call

variable (d : FrameDecoder) (data : List Byte)

/-- The caller's error is overwritten by a rejection and left alone otherwise. -/
theorem feed_error (err : Error) :
    d.feed data err = ((d.feed data {}).1,
      if (d.feed data {}).2.1.ok = true then err else (d.feed data {}).2.1, (d.feed data {}).2.2) := by
  cases hs : scan (d.buf ++ data) with
  | frame f rest =>
      rw [feed_frame err hs, feed_frame {} hs]
      rfl
  | wait =>
      rw [feed_wait err hs, feed_wait {} hs]
      rfl
  | bad e =>
      rw [feed_bad err hs, feed_bad {} hs]
      simp only [scan_bad hs, Bool.false_eq_true, if_false]

theorem feed_cuts {s : List Byte} {fs : List DecodedFrame} (h : scanner.Cuts s fs d.buf) :
    scanner.Cuts (s ++ data) (fs ++ (d.feed data {}).1.toList) (d.feed data {}).2.2.buf := by
  have hmore := h.more data
  cases hs : scan (d.buf ++ data) with
  | frame f rest =>
      rw [feed_frame {} hs]
      exact hmore.frame (scan_exact hs)
  | wait =>
      rw [feed_wait {} hs, Option.toList_none, List.append_nil]
      exact hmore
  | bad e =>
      rw [feed_bad {} hs, Option.toList_none, List.append_nil]
      exact hmore

/-- A rejected buffer is rejected again, whatever comes after it. -/
theorem feed_rejected {e : Error} (h : scan d.buf = .bad e) :
    (d.feed data {}).1 = none ∧ (d.feed data {}).2.1 = e ∧
      scan (d.feed data {}).2.2.buf = .bad e := by
  have hs := scanner.bad_append data h
  rw [feed_bad {} hs]
  exact ⟨rfl, rfl, hs⟩

theorem feed_reports (h : (d.feed data {}).2.1.ok = false) :
    scan (d.feed data {}).2.2.buf = .bad (d.feed data {}).2.1 := by
  cases hs : scan (d.buf ++ data) with
  | frame f rest =>
      rw [feed_frame {} hs] at h
      cases h
  | wait =>
      rw [feed_wait {} hs] at h
      cases h
  | bad e =>
      rw [feed_bad {} hs]
      exact hs

theorem feed_idle_lt (hnone : (d.feed data {}).1 = none) (hok : (d.feed data {}).2.1.ok = true) :
    (d.buf ++ data).length < kHeaderSize + Protocol.kMaxPayload := by
  cases hs : scan (d.buf ++ data) with
  | frame f rest =>
      rw [feed_frame {} hs] at hnone
      cases hnone
  | wait => exact scan_wait_lt hs
  | bad e =>
      rw [feed_bad {} hs, scan_bad hs] at hok
      cases hok

end Call

/-! A whole stream. -/

def deliveries (d : FrameDecoder) (calls : List (List Byte)) : List DecodedFrame :=
  (d.feeds calls).filterMap FeedCall.delivered

theorem feeds_cuts (calls : List (List Byte)) {d : FrameDecoder} {s : List Byte}
    {fs : List DecodedFrame} (h : scanner.Cuts s fs d.buf) :
    scanner.Cuts (s ++ calls.flatten) (fs ++ d.deliveries calls) (d.after calls).buf := by
  induction calls generalizing d s fs with
  | nil =>
      rw [List.flatten_nil, List.append_nil]
      exact (List.append_nil fs).symm ▸ h
  | cons data calls ih =>
      have hlater := ih (d.feed_cuts data h)
      have hsplit : d.deliveries (data :: calls) =
          (d.feed data {}).1.toList ++ (d.feed data {}).2.2.deliveries calls := by
        simp only [deliveries, feeds, List.filterMap_cons]
        cases (d.feed data {}).1 <;> rfl
      rw [hsplit, List.flatten_cons, ← List.append_assoc, ← List.append_assoc]
      exact hlater

theorem feeds_rejected (calls : List (List Byte)) {d : FrameDecoder} {e : Error}
    (h : scan d.buf = .bad e) :
    ∀ c ∈ d.feeds calls, c.delivered = none ∧ c.reported = e := by
  induction calls generalizing d with
  | nil => exact fun _ hc => absurd hc List.not_mem_nil
  | cons data calls ih =>
      obtain ⟨hnone, herr, hbuf⟩ := d.feed_rejected data h
      simp only [feeds, List.forall_mem_cons]
      exact ⟨⟨hnone, herr⟩, ih hbuf⟩

theorem feeds_final (d : FrameDecoder) (calls : List (List Byte)) :
    (d.feeds calls).Pairwise fun c later =>
      c.reported.ok = false → later.delivered = none ∧ later.reported = c.reported := by
  induction calls generalizing d with
  | nil => exact .nil
  | cons data calls ih =>
      refine .cons (fun c hc hbad => ?_) (ih _)
      exact feeds_rejected calls (d.feed_reports data hbad) c hc

theorem feeds_bounded (d : FrameDecoder) (calls : List (List Byte)) :
    ∀ c ∈ d.feeds calls, c.delivered = none → c.reported.ok = true →
      c.buffered.length < kHeaderSize + Protocol.kMaxPayload := by
  induction calls generalizing d with
  | nil => exact fun _ hc => absurd hc List.not_mem_nil
  | cons data calls ih =>
      simp only [feeds, List.forall_mem_cons]
      exact ⟨d.feed_idle_lt data, ih _⟩

/-- Since the last reset, whatever was fed: the bytes are those of the delivered frames and those
buffered; after an error there is nothing but that error; and without a frame or an error less
than a frame of the greatest size is buffered. None of it depends on the error a caller passes. -/
theorem decodes_soundly (d : FrameDecoder) (calls : List (List Byte)) :
    (∃ raws, List.Forall₂ Raw (d.reset.deliveries calls) raws ∧
        calls.flatten = raws.flatten ++ (d.reset.after calls).buf) ∧
      ((d.reset.feeds calls).Pairwise fun c later =>
        c.reported.ok = false → later.delivered = none ∧ later.reported = c.reported) ∧
      (∀ c ∈ d.reset.feeds calls, c.delivered = none → c.reported.ok = true →
        c.buffered.length < kHeaderSize + Protocol.kMaxPayload) ∧
      ∀ data err, (d.reset.after calls).feed data err =
        (((d.reset.after calls).feed data {}).1,
          if ((d.reset.after calls).feed data {}).2.1.ok = true then err
          else ((d.reset.after calls).feed data {}).2.1,
          ((d.reset.after calls).feed data {}).2.2) := by
  refine ⟨?_, feeds_final _ _, feeds_bounded _ _, fun data err => feed_error _ data err⟩
  obtain ⟨raws, hraws, heq⟩ := feeds_cuts calls (d := d.reset) (Scanner.Cuts.nil [])
  exact ⟨raws, hraws.imp fun _ _ => raw_of_scan, heq⟩

end FrameDecoder

end TransferFabric
