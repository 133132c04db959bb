import TransferFabric.Foundation.HighWater
import TransferFabric.Foundation.Transition
import TransferFabric.Runtime.Telemetry

/-!
The high-water marks of the queue and of the active transfers, one atomic
operation at a time. A call that raises a gauge adds to it, reads it again, reads
the mark, and then exchanges the mark until it is no lower than what it read; a
call that lowers a gauge is one subtraction. Any thread may go next, and an
exchange may fail for no reason.

The mark follows what the calls read, not what they added to: a gauge that is
lowered between an addition and the reading after it has held a value that no
mark shows. The operations are taken in one order for all threads; what weaker
orders allow beyond that is not the subject here, and neither is the mark of the
staging bytes, which nothing in the repository moves.
-/

namespace TransferFabric

open Transition HighWater

inductive Gauge where
  | queueDepth | active
  deriving DecidableEq, Repr

/-- The calls that move a gauge. -/
inductive GaugeCall where
  | queuePushed | queuePopped | transferStarted | transferDone
  deriving DecidableEq, Repr

namespace GaugeCall

def gauge : GaugeCall → Gauge
  | .queuePushed | .queuePopped => .queueDepth
  | .transferStarted | .transferDone => .active

/-- Whether the call adds, and then records the high-water mark. -/
def raises : GaugeCall → Bool
  | .queuePushed | .transferStarted => true
  | .queuePopped | .transferDone => false

def op : GaugeCall → TelemetryOp
  | .queuePushed => .queuePushed
  | .queuePopped => .queuePopped
  | .transferStarted => .transferStarted
  | .transferDone => .transferDone

end GaugeCall

/-- Where a thread stands: between two calls, or before the next atomic operation of
`record_depth_high_water` or `record_active_high_water`. -/
inductive Pc where
  | idle
  | loadGauge (g : Gauge)
  | loadMark (g : Gauge) (a : UInt64)
  | exchange (g : Gauge) (a hw : UInt64) (below : hw < a)
  deriving DecidableEq, Repr

/-- The gauge whose mark is being recorded. -/
def Pc.on : Pc → Option Gauge
  | .idle => none
  | .loadGauge g | .loadMark g _ | .exchange g _ _ _ => some g

/-- What the call has read this gauge as. -/
def Pc.readOn (g : Gauge) : Pc → Option Nat
  | .idle | .loadGauge _ => none
  | .loadMark g' a | .exchange g' a _ _ => if g' = g then some a.toNat else none

/-- `while (hw < a)`. -/
def Pc.test (g : Gauge) (a hw : UInt64) : Pc :=
  if below : hw < a then .exchange g a hw below else .idle

/-- A gauge and its mark, with every value the gauge has held and every value a call has read
it as; the two lists are no part of the source. -/
structure GaugeState where
  value : UInt64 := 0
  highWater : UInt64 := 0
  held : List UInt64 := [0]
  readAs : List UInt64 := []
  deriving DecidableEq, Repr

def GaugeState.set (s : GaugeState) (v : UInt64) : GaugeState :=
  { s with value := v, held := v :: s.held }

structure GaugeBoard where
  gauge : Gauge → GaugeState := fun _ => {}
  pc : Nat → Pc := fun _ => .idle

/-- A thread between two calls makes one, or a thread inside a call goes on; `spurious` lets a
weak exchange fail. -/
inductive GaugeMove where
  | start (i : Nat) (c : GaugeCall)
  | next (i : Nat) (spurious : Bool)
  deriving DecidableEq, Repr

namespace GaugeBoard

def setGauge (σ : GaugeBoard) (g : Gauge) (s : GaugeState) : GaugeBoard :=
  { σ with gauge := Function.update σ.gauge g s }

def setPc (σ : GaugeBoard) (i : Nat) (pc : Pc) : GaugeBoard :=
  { σ with pc := Function.update σ.pc i pc }

/-- The first atomic operation of a call: `fetch_add(1)` or `fetch_sub(1)`. -/
def begin (σ : GaugeBoard) (i : Nat) (c : GaugeCall) : GaugeBoard :=
  let s := σ.gauge c.gauge
  if c.raises then (σ.setGauge c.gauge (s.set (s.value + 1))).setPc i (.loadGauge c.gauge)
  else σ.setGauge c.gauge (s.set (s.value - 1))

def goOn (σ : GaugeBoard) (i : Nat) (spurious : Bool) : Pc → GaugeBoard
  | .idle => σ
  | .loadGauge g =>
      let s := σ.gauge g
      (σ.setGauge g { s with readAs := s.value :: s.readAs }).setPc i (.loadMark g s.value)
  | .loadMark g a => σ.setPc i (Pc.test g a (σ.gauge g).highWater)
  | .exchange g a hw _ =>
      let s := σ.gauge g
      if s.highWater = hw ∧ ¬ spurious then (σ.setGauge g { s with highWater := a }).setPc i .idle
      else σ.setPc i (Pc.test g a s.highWater)

/-- A move that is not enabled changes nothing. -/
def act (σ : GaugeBoard) : GaugeMove → GaugeBoard
  | .start i c => if σ.pc i = .idle then σ.begin i c else σ
  | .next i spurious => σ.goOn i spurious (σ.pc i)

/-- The state that an interleaving leads to. -/
def run (ms : List GaugeMove) : GaugeBoard := ms.foldl act {}

@[simp] theorem setPc_gauge (σ : GaugeBoard) (i : Nat) (pc : Pc) :
    (σ.setPc i pc).gauge = σ.gauge := rfl

@[simp] theorem setGauge_pc (σ : GaugeBoard) (g : Gauge) (s : GaugeState) :
    (σ.setGauge g s).pc = σ.pc := rfl

theorem setPc_pc (σ : GaugeBoard) (i j : Nat) (pc : Pc) :
    (σ.setPc i pc).pc j = if j = i then pc else σ.pc j := Function.update_apply ..

theorem setGauge_gauge (σ : GaugeBoard) (g g' : Gauge) (s : GaugeState) :
    (σ.setGauge g s).gauge g' = if g' = g then s else σ.gauge g' := Function.update_apply ..

end GaugeBoard

/-! The gauges are those of the telemetry. -/

def Gauge.read (t : Telemetry) : Gauge → UInt64
  | .queueDepth => t.queueDepth
  | .active => t.active

/-- The first operation of a call is what the call does to the counters. -/
theorem GaugeBoard.begin_value {σ : GaugeBoard} {t : Telemetry}
    (h : ∀ g, (σ.gauge g).value = Gauge.read t g) (i : Nat) (c : GaugeCall) (g : Gauge) :
    ((σ.begin i c).gauge g).value = Gauge.read (t.apply c.op) g := by
  cases c <;> cases g <;>
    simp [begin, GaugeCall.gauge, GaugeCall.raises, GaugeCall.op, setGauge_gauge, GaugeState.set,
      Telemetry.apply, Gauge.read, h]

/-! Each gauge is a meter. -/

namespace GaugeBoard

/-- One gauge, with what the calls under way have read it as. -/
def meter (g : Gauge) (σ : GaugeBoard) : Meter Nat where
  value := (σ.gauge g).value.toNat
  mark := (σ.gauge g).highWater.toNat
  held := (σ.gauge g).held.map UInt64.toNat
  seen := (σ.gauge g).readAs.map UInt64.toNat
  taken := fun i => (σ.pc i).readOn g

variable {g : Gauge} {σ : GaugeBoard}

theorem meter_taken (g : Gauge) (σ : GaugeBoard) (i : Nat) :
    (meter g σ).taken i = (σ.pc i).readOn g := rfl

theorem meter_setPc (g : Gauge) (σ : GaugeBoard) (i : Nat) (pc : Pc) :
    meter g (σ.setPc i pc) =
      { meter g σ with taken := Function.update (meter g σ).taken i (pc.readOn g) } := by
  have htaken : (fun j => ((σ.setPc i pc).pc j).readOn g) =
      Function.update (fun j => (σ.pc j).readOn g) i (pc.readOn g) := by
    funext j
    rw [setPc_pc, Function.update_apply]
    split <;> rfl
  exact congrArg (Meter.mk _ _ _ _) htaken

/-- A thread that carries on with the same reading is not seen by the meter. -/
theorem meter_setPc_same {i : Nat} (pc : Pc) (h : (σ.pc i).readOn g = pc.readOn g) :
    meter g (σ.setPc i pc) = meter g σ := by
  rw [meter_setPc, ← h]
  exact congrArg (Meter.mk _ _ _ _) (Function.update_eq_self i _)

theorem meter_setGauge_ne {g' : Gauge} (h : g ≠ g') (s : GaugeState) :
    meter g (σ.setGauge g' s) = meter g σ := by
  simp only [meter, setGauge_gauge, if_neg h, setGauge_pc]

theorem meter_setGauge (s : GaugeState) :
    meter g (σ.setGauge g s) =
      { value := s.value.toNat, mark := s.highWater.toNat, held := s.held.map UInt64.toNat,
        seen := s.readAs.map UInt64.toNat, taken := (meter g σ).taken } := by
  simp only [meter, setGauge_gauge, if_pos, setGauge_pc]

theorem begin_step (i : Nat) (c : GaugeCall) (hi : σ.pc i = .idle) :
    (meter g σ).Step (meter g (σ.begin i c)) := by
  have hset : ∀ v, (meter g σ).Step (meter g (σ.setGauge c.gauge ((σ.gauge c.gauge).set v))) := by
    intro v
    by_cases hg : g = c.gauge
    · subst hg
      rw [meter_setGauge]
      exact .move _ v.toNat
    · rw [meter_setGauge_ne hg]
      exact .still _
  unfold begin
  dsimp only
  split
  · rw [meter_setPc_same _ (by rw [setGauge_pc, hi]; rfl)]
    exact hset _
  · exact hset _

theorem test_step {i : Nat} {g' : Gauge} {a : UInt64}
    (hi : ∀ g, (σ.pc i).readOn g = if g' = g then some a.toNat else none) :
    (meter g σ).Step (meter g (σ.setPc i (Pc.test g' a (σ.gauge g').highWater))) := by
  unfold Pc.test
  split
  · rw [meter_setPc_same _ (hi g)]
    exact .still _
  · rename_i hlow
    by_cases hg : g' = g
    · subst hg
      have hmax : max (meter g' σ).mark a.toNat = (meter g' σ).mark :=
        max_eq_left (UInt64.le_iff_toNat_le.mp (UInt64.not_lt.mp hlow))
      have hleave := Meter.Step.leave (meter g' σ) i a.toNat ((hi g').trans (if_pos rfl))
      rw [hmax] at hleave
      rw [meter_setPc]
      exact hleave
    · rw [meter_setPc_same _ ((hi g).trans (if_neg hg))]
      exact .still _

theorem goOn_step (i : Nat) (spurious : Bool) :
    (meter g σ).Step (meter g (σ.goOn i spurious (σ.pc i))) := by
  cases hi : σ.pc i with
  | idle => exact .still _
  | loadGauge g' =>
      by_cases hg : g = g'
      · subst hg
        have htake := Meter.Step.take (meter g σ) i (by rw [meter_taken, hi]; rfl)
        rw [goOn, meter_setPc, meter_setGauge, Pc.readOn, if_pos rfl]
        exact htake
      · rw [goOn, meter_setPc_same, meter_setGauge_ne hg]
        · exact .still _
        · rw [setGauge_pc, hi]
          exact (if_neg (Ne.symm hg)).symm
  | loadMark g' a => exact test_step fun g => by rw [hi]; rfl
  | exchange g' a hw below =>
      unfold goOn
      dsimp only
      split
      · rename_i hwon
        by_cases hg : g = g'
        · subst hg
          have hmax : max (meter g σ).mark a.toNat = a.toNat :=
            max_eq_right (Nat.le_of_lt (UInt64.lt_iff_toNat_lt.mp (hwon.1 ▸ below)))
          have hleave := Meter.Step.leave (meter g σ) i a.toNat
            (by rw [meter_taken, hi]; exact if_pos rfl)
          rw [hmax] at hleave
          rw [meter_setPc, meter_setGauge]
          exact hleave
        · rw [meter_setPc_same, meter_setGauge_ne hg]
          · exact .still _
          · rw [setGauge_pc, hi]
            exact if_neg (Ne.symm hg)
      · exact test_step fun g => by rw [hi]; rfl

/-- Whatever a thread does next, each gauge takes a step of a meter. -/
theorem act_step (mv : GaugeMove) : (meter g σ).Step (meter g (σ.act mv)) := by
  cases mv with
  | start i c =>
      show (meter g σ).Step (meter g (if σ.pc i = .idle then σ.begin i c else σ))
      split_ifs with hi
      · exact begin_step i c hi
      · exact .still _
  | next i spurious => exact goOn_step i spurious

theorem sound_run (g : Gauge) (ms : List GaugeMove) : (meter g (run ms)).Sound 0 :=
  foldl_invariant (fun σ => (meter g σ).Sound 0) (fun _ _ => True)
    (fun _ mv hs _ => hs.step (act_step mv)) (Meter.sound_start 0) fun _ _ => trivial

/-! Runs in which no gauge is lowered under a call that is about to read it. -/

/-- Some call has raised the gauge and not read it yet. -/
def Rereads (g : Gauge) (σ : GaugeBoard) : Prop := ∃ i, σ.pc i = .loadGauge g

/-- A raise does not wrap. A gauge is lowered only above zero, and while no call stands between
its addition and its reading. -/
def Orderly (g : Gauge) (σ : GaugeBoard) : GaugeMove → Prop
  | .start _ c => c.gauge = g →
      if c.raises then (σ.gauge g).value ≠ 0xFFFFFFFFFFFFFFFF
      else (σ.gauge g).value ≠ 0 ∧ ¬ σ.Rereads g
  | .next .. => True

/-- Every value held is below one that was read, or a call is about to read at least that. -/
def Watched (g : Gauge) (σ : GaugeBoard) : Prop :=
  ∀ v ∈ (σ.gauge g).held, v = 0 ∨ (∃ a ∈ (σ.gauge g).readAs, v ≤ a) ∨
    (σ.Rereads g ∧ v ≤ (σ.gauge g).value)

theorem Rereads.setPc {i : Nat} {pc : Pc} (h : σ.Rereads g) (hi : σ.pc i ≠ .loadGauge g) :
    (σ.setPc i pc).Rereads g := by
  obtain ⟨j, hj⟩ := h
  have hne : j ≠ i := fun heq => hi (heq ▸ hj)
  exact ⟨j, by rw [setPc_pc, if_neg hne, hj]⟩

/-- A thread that is not about to read the gauge goes on, and the gauge is left alone up to its
mark. -/
theorem Watched.frame {σ' : GaugeBoard} (h : σ.Watched g)
    (hheld : (σ'.gauge g).held = (σ.gauge g).held)
    (hread : (σ'.gauge g).readAs = (σ.gauge g).readAs)
    (hvalue : (σ'.gauge g).value = (σ.gauge g).value) (hre : σ.Rereads g → σ'.Rereads g) :
    σ'.Watched g := by
  intro v hv
  rw [hread, hvalue]
  exact (h v (hheld ▸ hv)).imp_right (Or.imp_right (And.imp_left hre))

theorem Watched.raise {i : Nat} (h : σ.Watched g)
    (hmax : (σ.gauge g).value ≠ 0xFFFFFFFFFFFFFFFF) :
    ((σ.setGauge g ((σ.gauge g).set ((σ.gauge g).value + 1))).setPc i (.loadGauge g)).Watched g := by
  have hlt : (σ.gauge g).value.toNat + 1 < 2 ^ 64 := by
    have := (σ.gauge g).value.toNat_lt
    have hne : (σ.gauge g).value.toNat ≠ 2 ^ 64 - 1 := fun heq => hmax (UInt64.toNat_inj.mp heq)
    omega
  have hle : (σ.gauge g).value ≤ (σ.gauge g).value + 1 := by
    rw [UInt64.le_iff_toNat_le, toNat_succ _ hlt]
    exact Nat.le_succ _
  have hre : ((σ.setGauge g ((σ.gauge g).set ((σ.gauge g).value + 1))).setPc i
      (.loadGauge g)).Rereads g := ⟨i, by rw [setPc_pc, if_pos rfl]⟩
  intro v hv
  rw [setPc_gauge, setGauge_gauge, if_pos rfl] at hv ⊢
  rcases List.mem_cons.mp hv with rfl | hv
  · exact Or.inr (Or.inr ⟨hre, UInt64.le_refl _⟩)
  · exact (h v hv).imp_right (Or.imp_right fun hthird => ⟨hre, UInt64.le_trans hthird.2 hle⟩)

theorem Watched.lower (h : σ.Watched g) (hvalue : (σ.gauge g).value ∈ (σ.gauge g).held)
    (hpos : (σ.gauge g).value ≠ 0) (hre : ¬ σ.Rereads g) :
    (σ.setGauge g ((σ.gauge g).set ((σ.gauge g).value - 1))).Watched g := by
  have hle : (σ.gauge g).value - 1 ≤ (σ.gauge g).value := by
    have hnat := (toNat_ne_zero _).mpr hpos
    have hone : (1 : UInt64) ≤ (σ.gauge g).value := by
      rw [UInt64.le_iff_toNat_le, UInt64.toNat_one]
      omega
    rw [UInt64.le_iff_toNat_le, UInt64.toNat_sub_of_le _ _ hone]
    exact Nat.sub_le _ _
  intro v hv
  rw [setGauge_gauge, if_pos rfl] at hv ⊢
  rcases List.mem_cons.mp hv with rfl | hv
  · rcases h _ hvalue with hzero | ⟨a, ha, hva⟩ | hthird
    · exact absurd hzero hpos
    · exact Or.inr (Or.inl ⟨a, ha, UInt64.le_trans hle hva⟩)
    · exact absurd hthird.1 hre
  · exact (h v hv).imp_right (Or.imp_right fun hthird => absurd hthird.1 hre)

theorem Watched.read {i : Nat} (h : σ.Watched g) :
    ((σ.setGauge g { σ.gauge g with
      readAs := (σ.gauge g).value :: (σ.gauge g).readAs }).setPc i
        (.loadMark g (σ.gauge g).value)).Watched g := by
  intro v hv
  rw [setPc_gauge, setGauge_gauge, if_pos rfl] at hv ⊢
  rcases h v hv with hzero | ⟨a, ha, hva⟩ | ⟨-, hva⟩
  · exact Or.inl hzero
  · exact Or.inr (Or.inl ⟨a, List.mem_cons_of_mem _ ha, hva⟩)
  · exact Or.inr (Or.inl ⟨_, List.mem_cons_self, hva⟩)

theorem Watched.begin (h : σ.Watched g) (hvalue : (σ.gauge g).value ∈ (σ.gauge g).held) (i : Nat)
    (c : GaugeCall) (hi : σ.pc i = .idle) (ho : Orderly g σ (.start i c)) :
    (σ.begin i c).Watched g := by
  have hidle : ∀ g, σ.pc i ≠ .loadGauge g := fun g heq => by rw [hi] at heq; cases heq
  unfold GaugeBoard.begin
  dsimp only
  by_cases hg : c.gauge = g
  · have ho := ho hg
    subst hg
    split_ifs with hraises
    · rw [if_pos hraises] at ho
      exact h.raise ho
    · rw [if_neg hraises] at ho
      exact h.lower hvalue ho.1 ho.2
  · have hframe : ∀ s, (σ.setGauge c.gauge s).gauge g = σ.gauge g := fun s => by
      rw [setGauge_gauge, if_neg (Ne.symm hg)]
    split_ifs
    · refine h.frame ?_ ?_ ?_ fun hre => Rereads.setPc hre (hidle g) <;> rw [setPc_gauge, hframe]
    · exact h.frame (by rw [hframe]) (by rw [hframe]) (by rw [hframe]) id

theorem Watched.goOn (h : σ.Watched g) (i : Nat) (spurious : Bool) :
    (σ.goOn i spurious (σ.pc i)).Watched g := by
  cases hi : σ.pc i with
  | idle => exact h
  | loadGauge g' =>
      by_cases hg : g' = g
      · subst hg
        exact h.read
      · have hnot : σ.pc i ≠ .loadGauge g := fun heq => hg (Pc.loadGauge.inj (hi.symm.trans heq))
        refine h.frame ?_ ?_ ?_ fun hre => Rereads.setPc hre hnot <;>
          rw [GaugeBoard.goOn, setPc_gauge, setGauge_gauge, if_neg (Ne.symm hg)]
  | loadMark g' a =>
      exact h.frame rfl rfl rfl fun hre => hre.setPc fun heq => by rw [hi] at heq; cases heq
  | exchange g' a hw below =>
      have hnot : σ.pc i ≠ .loadGauge g := fun heq => by rw [hi] at heq; cases heq
      unfold GaugeBoard.goOn
      dsimp only
      split_ifs
      · refine h.frame ?_ ?_ ?_ fun hre => Rereads.setPc hre hnot <;>
          rw [setPc_gauge, setGauge_gauge] <;> split_ifs with hg <;> first | rfl | rw [hg]
      · exact h.frame rfl rfl rfl fun hre => hre.setPc hnot

theorem watched_run {g : Gauge} {ms : List GaugeMove}
    (ho : ∀ x ∈ trace act {} ms, Orderly g x.1 x.2) : (run ms).Watched g := by
  have hboth : (ms.foldl act {}).Watched g ∧ (meter g (ms.foldl act {})).Sound 0 :=
    foldl_invariant (fun σ => σ.Watched g ∧ (meter g σ).Sound 0) (Orderly g) ?_
      ⟨?_, Meter.sound_start 0⟩ ho
  · exact hboth.1
  · rintro σ mv ⟨hwatched, hsound⟩ hmv
    refine ⟨?_, hsound.step (act_step mv)⟩
    have hvalue : (σ.gauge g).value ∈ (σ.gauge g).held := by
      obtain ⟨v, hv, heq⟩ := List.mem_map.mp hsound.value
      exact UInt64.toNat_inj.mp heq ▸ hv
    cases mv with
    | start i c =>
        show (if σ.pc i = .idle then σ.begin i c else σ).Watched g
        split_ifs with hi
        · exact hwatched.begin hvalue i c hi hmv
        · exact hwatched
    | next i spurious => exact hwatched.goOn i spurious
  · intro v hv
    exact Or.inl (List.mem_singleton.mp hv)

theorem meter_quiet {g : Gauge} {σ : GaugeBoard} (h : ∀ i, (σ.pc i).on ≠ some g) (i : Nat) :
    (meter g σ).taken i = none := by
  have hi := h i
  rw [meter_taken]
  cases hpc : σ.pc i with
  | idle | loadGauge g' => rfl
  | loadMark g' a | exchange g' a hw below =>
      rw [hpc] at hi
      exact if_neg fun heq => hi (congrArg some heq)

/-- With no call on a gauge in progress, the mark is one of the values the gauge has held. It
reaches all of them exactly if the gauge has only been zero, or a call has read it at its
highest; and it does in every run whose moves are orderly. -/
theorem highWater_peak_iff (ms : List GaugeMove) (g : Gauge)
    (hquiet : ∀ i, ((run ms).pc i).on ≠ some g) :
    ((run ms).gauge g).highWater ∈ ((run ms).gauge g).held ∧
      ((∀ v ∈ ((run ms).gauge g).held, v ≤ ((run ms).gauge g).highWater) ↔
        (∀ v ∈ ((run ms).gauge g).held, v = 0) ∨
          ∃ a ∈ ((run ms).gauge g).readAs, ∀ v ∈ ((run ms).gauge g).held, v ≤ a) ∧
      ((∀ x ∈ trace act {} ms, Orderly g x.1 x.2) →
        ∀ v ∈ ((run ms).gauge g).held, v ≤ ((run ms).gauge g).highWater) := by
  have hsound := sound_run g ms
  refine ⟨?_, ?_, fun ho v hv => ?_⟩
  · obtain ⟨v, hv, heq⟩ := List.mem_map.mp hsound.mark_held
    exact UInt64.toNat_inj.mp heq ▸ hv
  · have hpeak := hsound.peak_iff (Nat.zero_le _) (meter_quiet hquiet)
    have hzero : ∀ v : UInt64, v.toNat ≤ 0 ↔ v = 0 := fun v => by
      rw [Nat.le_zero, ← UInt64.toNat_zero, UInt64.toNat_inj]
    simpa only [meter, List.mem_map, exists_exists_and_eq_and, forall_exists_index, and_imp,
      forall_apply_eq_imp_iff₂, hzero, ← UInt64.le_iff_toNat_le] using hpeak
  · rcases watched_run ho v hv with rfl | ⟨a, ha, hva⟩ | ⟨⟨i, hi⟩, -⟩
    · exact UInt64.zero_le
    · rcases hsound.covered _ (List.mem_map_of_mem ha) with hle | ⟨i, hi⟩
      · exact UInt64.le_trans hva (UInt64.le_iff_toNat_le.mpr hle)
      · rw [meter_quiet hquiet] at hi
        cases hi
    · exact absurd (congrArg Pc.on hi) (hquiet i)

/-- One thread raises the queue depth and records it, and another lowers it afterwards. -/
def raisedThenLowered : List GaugeMove :=
  [.start 0 .queuePushed, .next 0 false, .next 0 false, .next 0 false, .start 1 .queuePopped]

theorem highWater_peak_raised :
    1 ∈ ((run raisedThenLowered).gauge .queueDepth).held ∧
      ∀ v ∈ ((run raisedThenLowered).gauge .queueDepth).held,
        v ≤ ((run raisedThenLowered).gauge .queueDepth).highWater := by
  refine ⟨by decide +kernel,
    (highWater_peak_iff raisedThenLowered .queueDepth fun i => ?_).2.1.mpr (Or.inr ?_)⟩
  · cases i with
    | zero => decide +kernel
    | succ i => exact fun h => by cases h
  · have hall : ((run raisedThenLowered).gauge .queueDepth).held.all (· ≤ 1) = true := by
      decide +kernel
    exact ⟨1, by decide +kernel, fun v hv => of_decide_eq_true (List.all_eq_true.mp hall v hv)⟩

/-- The queue depth is lowered before the call that raised it reads it again. -/
def loweredUnderneath : List GaugeMove :=
  [.start 0 .queuePushed, .start 1 .queuePopped, .next 0 false, .next 0 false]

/-- The depth has been one, no call is in progress, and the mark is zero. -/
theorem highWater_misses_peak :
    (∀ i, (run loweredUnderneath).pc i = .idle) ∧
      1 ∈ ((run loweredUnderneath).gauge .queueDepth).held ∧
      ((run loweredUnderneath).gauge .queueDepth).highWater = 0 := by
  refine ⟨fun i => ?_, by decide +kernel, by decide +kernel⟩
  cases i with
  | zero => decide +kernel
  | succ i => rfl

end GaugeBoard

end TransferFabric
