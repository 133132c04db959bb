import Mathlib.Algebra.Ring.Nat
import Mathlib.Data.List.Forall2
import Mathlib.Tactic.Common

/-!
Wire formats: fixed-width little-endian fields, and the cutting of a byte
stream into frames from one buffered prefix of it at a time.

A scanner looks at the buffered bytes only. It finds a frame at their head,
waits for more, or rejects them, and more bytes never change an answer other
than `wait`. That alone makes the frames of a stream independent of how the
stream was cut into segments.
-/

namespace Framing

section LittleEndian

/-- The `w` least significant bytes of `n`, least significant first. -/
def toLE : Nat → Nat → List UInt8
  | 0, _ => []
  | w + 1, n => UInt8.ofNat (n % 256) :: toLE w (n / 256)

def ofLE : List UInt8 → Nat
  | [] => 0
  | b :: bs => b.toNat + 256 * ofLE bs

@[simp] theorem length_toLE (w n : Nat) : (toLE w n).length = w := by
  induction w generalizing n with
  | zero => rfl
  | succ w ih => exact congrArg (· + 1) (ih _)

theorem ofLE_toLE (w n : Nat) : ofLE (toLE w n) = n % 256 ^ w := by
  induction w generalizing n with
  | zero => rw [Nat.pow_zero, Nat.mod_one]; rfl
  | succ w ih =>
      have hbyte : (UInt8.ofNat (n % 256)).toNat = n % 256 := by
        rw [UInt8.toNat_ofNat']
        exact Nat.mod_eq_of_lt (Nat.mod_lt _ (by decide))
      calc ofLE (toLE (w + 1) n)
          = (UInt8.ofNat (n % 256)).toNat + 256 * ofLE (toLE w (n / 256)) := rfl
        _ = n % 256 + 256 * (n / 256 % 256 ^ w) := by rw [hbyte, ih]
        _ = n % 256 ^ (w + 1) := by rw [Nat.pow_succ', Nat.mod_mul]

theorem ofLE_toLE_of_lt {w n : Nat} (h : n < 256 ^ w) : ofLE (toLE w n) = n := by
  rw [ofLE_toLE, Nat.mod_eq_of_lt h]

end LittleEndian

/-- What the head of a buffer turns out to be. -/
inductive Scan (B F E : Type) where
  | frame (f : F) (rest : List B)
  | wait
  | bad (e : E)

/-- A frame takes at least one byte, and bytes that arrive later change neither
a frame nor a rejection. -/
structure Scanner (B F E : Type) where
  scan : List B → Scan B F E
  shrinks : ∀ {s f r}, scan s = .frame f r → r.length < s.length
  frame_append : ∀ {s f r} (t : List B), scan s = .frame f r → scan (s ++ t) = .frame f (r ++ t)
  bad_append : ∀ {s e} (t : List B), scan s = .bad e → scan (s ++ t) = .bad e

namespace Scanner

variable {B F E : Type} (σ : Scanner B F E)

/-- All frames at the head of the buffer, the rejection that stopped the cutting
if there was one, and the bytes left in the buffer. -/
def drain (s : List B) : List F × Option E × List B :=
  match h : σ.scan s with
  | .frame f r =>
      have := σ.shrinks h
      (f :: (drain r).1, (drain r).2)
  | .wait => ([], none, s)
  | .bad e => ([], some e, s)
termination_by s.length

variable {σ}

theorem drain_frame {s r : List B} {f : F} (h : σ.scan s = .frame f r) :
    σ.drain s = (f :: (σ.drain r).1, (σ.drain r).2) := by
  rw [drain]
  split <;> simp_all

theorem drain_wait {s : List B} (h : σ.scan s = .wait) : σ.drain s = ([], none, s) := by
  rw [drain]
  split <;> simp_all

theorem drain_bad {s : List B} {e : E} (h : σ.scan s = .bad e) :
    σ.drain s = ([], some e, s) := by
  rw [drain]
  split <;> simp_all

/-- Cutting the frames of a longer buffer is cutting the ones already complete
and going on from what they leave. -/
theorem drain_append (s t : List B) :
    σ.drain (s ++ t) =
      ((σ.drain s).1 ++ (σ.drain ((σ.drain s).2.2 ++ t)).1,
        (σ.drain ((σ.drain s).2.2 ++ t)).2) := by
  induction hn : s.length using Nat.strongRecOn generalizing s with
  | ind n ih =>
      cases hs : σ.scan s with
      | frame f r =>
          have hr := ih r.length (hn ▸ σ.shrinks hs) r rfl
          rw [drain_frame (σ.frame_append t hs), drain_frame hs, hr]
          rfl
      | wait => rw [drain_wait hs]; rfl
      | bad e => rw [drain_bad hs]; rfl

/-- The cutting stops at a buffer it can do nothing with. -/
theorem scan_drain_rest (s : List B) :
    σ.scan (σ.drain s).2.2 = match (σ.drain s).2.1 with
      | none => .wait
      | some e => .bad e := by
  induction hn : s.length using Nat.strongRecOn generalizing s with
  | ind n ih =>
      cases hs : σ.scan s with
      | frame f r =>
          rw [drain_frame hs]
          exact ih r.length (hn ▸ σ.shrinks hs) r rfl
      | wait => rw [drain_wait hs]; exact hs
      | bad e => rw [drain_bad hs]; exact hs

theorem drain_rest (s : List B) :
    σ.drain (σ.drain s).2.2 = ([], (σ.drain s).2.1, (σ.drain s).2.2) := by
  have hrest := scan_drain_rest (σ := σ) s
  cases he : (σ.drain s).2.1 with
  | none =>
      rw [he] at hrest
      exact drain_wait hrest
  | some e =>
      rw [he] at hrest
      exact drain_bad hrest

/-- A rejection is final. -/
theorem drain_rejected {s : List B} {e : E} (h : (σ.drain s).2.1 = some e) (t : List B) :
    (σ.drain ((σ.drain s).2.2 ++ t)).2.1 = some e := by
  have hrest := scan_drain_rest (σ := σ) s
  rw [h] at hrest
  rw [drain_bad (σ.bad_append t hrest)]

/-- No proper initial part of what is a frame by itself is taken for anything. -/
theorem scan_wait_of_append {s t : List B} {f : F} (h : σ.scan (s ++ t) = .frame f [])
    (ht : t ≠ []) : σ.scan s = .wait := by
  cases hs : σ.scan s with
  | wait => rfl
  | frame f r =>
      rw [σ.frame_append t hs] at h
      injection h with _ hr
      exact absurd (List.append_eq_nil_iff.mp hr).2 ht
  | bad e =>
      rw [σ.bad_append t hs] at h
      cases h

/-- The stream `s` is the bytes of the frames `fs`, each by itself a frame, and then `rest`. -/
def Cuts (σ : Scanner B F E) (s : List B) (fs : List F) (rest : List B) : Prop :=
  ∃ raws, List.Forall₂ (fun f raw => σ.scan raw = .frame f []) fs raws ∧ s = raws.flatten ++ rest

theorem Cuts.nil (s : List B) : σ.Cuts s [] s := ⟨[], .nil, rfl⟩

theorem Cuts.more {s rest : List B} {fs : List F} (h : σ.Cuts s fs rest) (t : List B) :
    σ.Cuts (s ++ t) fs (rest ++ t) := by
  obtain ⟨raws, hraws, rfl⟩ := h
  exact ⟨raws, hraws, List.append_assoc _ _ _⟩

theorem Cuts.frame {s rest r : List B} {fs : List F} {f : F} (h : σ.Cuts s fs rest)
    (hexact : ∃ raw, rest = raw ++ r ∧ σ.scan raw = .frame f []) : σ.Cuts s (fs ++ [f]) r := by
  obtain ⟨raws, hraws, rfl⟩ := h
  obtain ⟨raw, rfl, hraw⟩ := hexact
  refine ⟨raws ++ [raw], List.rel_append hraws (.cons hraw .nil), ?_⟩
  rw [List.flatten_append, List.flatten_singleton, List.append_assoc]

section Encoded

variable {M : Type} {encode : M → List B} {decode : M → F}
  (hscan : ∀ m rest, σ.scan (encode m ++ rest) = .frame (decode m) rest)
include hscan

/-- A concatenation of encodings is cut back into its frames, with nothing left. -/
theorem drain_encoded (hnil : σ.scan [] = .wait) (ms : List M) :
    σ.drain (ms.map encode).flatten = (ms.map decode, none, []) := by
  induction ms with
  | nil => exact drain_wait hnil
  | cons m ms ih =>
      rw [List.map_cons, List.flatten_cons, drain_frame (hscan m _), ih]
      rfl

theorem scan_part {m : M} {s t : List B} (hst : s ++ t = encode m) (ht : t ≠ []) :
    σ.scan s = .wait := by
  have hm := hscan m []
  rw [List.append_nil, ← hst] at hm
  exact scan_wait_of_append hm ht

end Encoded

end Scanner

/-! One direction of a connection. -/

/-- One message `w`, or none, is on its way: some of it received, some of it in flight.
A channel that was cut may have lost the rest. A receiver that has all of a message has
consumed it. -/
structure Carries {B : Type} (cut : Bool) (buf flight w : List B) : Prop where
  part : buf ++ flight <+: w
  unfinished : buf = w → w = []
  whole : cut = false → buf ++ flight = w

namespace Carries

variable {B : Type} {cut : Bool} {buf flight w : List B}

theorem nil : Carries cut [] [] ([] : List B) := ⟨List.prefix_rfl, fun _ => rfl, fun _ => rfl⟩

theorem of_nil (h : Carries cut buf flight []) : buf = [] ∧ flight = [] :=
  List.append_eq_nil_iff.mp (List.prefix_nil.mp h.part)

/-- A message is put on an empty channel; one that was cut loses it. -/
theorem send (h : Carries cut buf flight []) (w : List B) :
    Carries cut buf (if cut then flight else flight ++ w) w := by
  obtain ⟨rfl, rfl⟩ := h.of_nil
  cases cut with
  | true => exact ⟨List.nil_prefix, fun h => h.symm, (fun h => by cases h)⟩
  | false => exact ⟨List.prefix_rfl, fun h => h.symm, fun _ => rfl⟩

theorem lose (h : Carries cut buf flight w) (k : Nat) : Carries true buf (flight.take k) w :=
  ⟨((List.prefix_append_right_inj buf).mpr (List.take_prefix k flight)).trans h.part,
    h.unfinished, (fun h => by cases h)⟩

theorem ne_nil_of_recv {seg : List B} (h : Carries cut buf flight w) (hseg : seg <+: flight)
    (hne : seg ≠ []) : w ≠ [] := by
  rintro rfl
  rw [h.of_nil.2, List.prefix_nil] at hseg
  exact hne hseg

/-- Receiving completes the message, and then nothing else is in flight, or leaves more
of it to come. -/
theorem recv {seg : List B} (h : Carries cut buf flight w) (hseg : seg <+: flight) :
    (buf ++ seg = w ∧ flight.drop seg.length = []) ∨
      Carries cut (buf ++ seg) (flight.drop seg.length) w ∧ ∃ t, t ≠ [] ∧ buf ++ seg ++ t = w := by
  obtain ⟨rest, rfl⟩ := hseg
  obtain ⟨t, ht⟩ := h.part
  rw [← List.append_assoc, List.append_assoc (buf ++ seg)] at ht
  rw [List.drop_left]
  by_cases hall : buf ++ seg = w
  · rw [hall] at ht
    exact .inl ⟨hall, (List.append_eq_nil_iff.mp (List.append_right_eq_self.mp ht)).1⟩
  · refine .inr ⟨⟨⟨t, by rw [List.append_assoc, ht]⟩, fun he => absurd he hall, fun hc => ?_⟩,
      rest ++ t, ?_, ht⟩
    · rw [List.append_assoc]
      exact h.whole hc
    · intro hnil
      rw [hnil, List.append_nil] at ht
      exact hall ht

/-- On a channel that works, a message that is not in flight is not there. -/
theorem nil_of_idle (h : Carries false buf [] w) : w = [] := by
  have hall := h.whole rfl
  rw [List.append_nil] at hall
  exact h.unfinished hall

end Carries

end Framing
