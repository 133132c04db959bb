import TransferFabric.Runtime.Bytes
import TransferFabric.Runtime.Handles
import TransferFabric.Runtime.Queueing

/-!
What a shutdown leaves behind. The call raises a flag that submissions and
registrations read once, at their beginning, and then empties the scheduler, the
two staging pools and the endpoint registry one after the other. A call that has
read the flag before it was raised goes on and fills them again. If no such call
is under way when the flag is raised, nothing is left, up to the records of
submissions that name an unknown dependency, which nobody ends.
-/

namespace TransferFabric

open Interaction Relation

/-! What a call does to the parts a shutdown empties. -/

namespace World

variable {w : World} {i : Tid} {c : RtCall}

structure Spares (w w' : World) (c : RtCall) : Prop where
  shutdown : c ≠ .exchangeShutdown → w'.shutdown = w.shutdown
  scheduler : (∀ t, c ≠ .schedule t) → c ≠ .stopScheduler → w'.scheduler = w.scheduler
  stopping : c ≠ .stopScheduler → w'.scheduler.shuttingDown = w.scheduler.shuttingDown
  busy : c ≠ .workerReturns → w'.busy = w.busy
  pool : c.stages = false → ∀ k, w'.pool k = w.pool k
  endpoints : (∀ ep, c ≠ .allocateEndpoint ep) → (∀ h, c ≠ .removeEndpoint h) →
    c ≠ .clearEndpoints → w'.endpoints = w.endpoints

theorem setPool_spares (w : World) (k : PoolKind) (p : StagingPool) (hc : c.stages = true) :
    w.Spares (w.setPool k p) c := by
  have hpool : c.stages = false → ∀ k', (w.setPool k p).pool k' = w.pool k' := fun h => by
    rw [hc] at h
    cases h
  unfold setPool at *
  split_ifs at *
  · exact ⟨fun _ => rfl, fun _ _ => rfl, fun _ => rfl, fun _ => rfl, hpool, fun _ _ _ => rfl⟩
  · exact ⟨fun _ => rfl, fun _ _ => rfl, fun _ => rfl, fun _ => rfl, hpool, fun _ _ _ => rfl⟩

theorem giveBack_spares (w : World) (r : Ref) (k : PoolKind) (b : StagingBuffer)
    (hc : c.stages = true) : w.Spares (w.giveBack r k b) c := by
  have h := w.setPool_spares k ((w.pool k).release b) hc
  unfold giveBack
  dsimp only
  split_ifs
  · exact h
  · exact ⟨h.shutdown, h.scheduler, h.stopping, h.busy, fun hs => absurd hs (by simp [hc]),
      h.endpoints⟩

theorem share_spares (w : World) (i : Tid) (c : RtCall) (x : RtAnswer c) :
    w.Spares (w.share i c x) c := by
  have hsame : w.Spares w c := ⟨fun _ => rfl, fun _ _ => rfl, fun _ => rfl, fun _ => rfl,
    fun _ _ => rfl, fun _ _ _ => rfl⟩
  cases c with
  | exchangeShutdown => exact { hsame with shutdown := fun h => absurd rfl h }
  | allocateEndpoint ep => exact { hsame with endpoints := fun h => absurd rfl (h ep) }
  | removeEndpoint h => exact { hsame with endpoints := fun _ h' => absurd rfl (h' h) }
  | clearEndpoints => exact { hsame with endpoints := fun _ _ h => absurd rfl h }
  | schedule t =>
      exact { hsame with
        scheduler := fun h => absurd rfl (h t)
        stopping := fun _ => w.scheduler.submit_shuttingDown t }
  | stopScheduler =>
      exact { hsame with
        scheduler := fun _ h => absurd rfl h
        stopping := fun h => absurd rfl h }
  | workerReturns => exact { hsame with busy := fun h => absurd rfl h }
  | allocate r k bytes =>
      cases x with
      | none => exact hsame
      | some b =>
          have h := w.setPool_spares (c := .allocate r k bytes) k
            ((w.pool k).allocate bytes (some b.data)).2 rfl
          show w.Spares (takeHold _ r k b) _
          unfold takeHold
          split_ifs
          · exact h
          · exact ⟨h.shutdown, h.scheduler, h.stopping, h.busy, fun hs => (by cases hs), h.endpoints⟩
  | release r k b => exact w.giveBack_spares r k b rfl
  | drain k => exact w.setPool_spares k _ rfl
  | exec r ec =>
      cases ec with
      | release k b => exact w.giveBack_spares r k b rfl
      | _ => exact { hsame with }
  | _ => exact { hsame with }

theorem after_spares (w : World) (i : Tid) (c : RtCall) (x : RtAnswer c) :
    w.Spares (w.after i c x) c := by
  have h := w.share_spares i c x
  obtain ⟨heap, past, heq⟩ := w.after_eq_share i c x
  rw [heq]
  exact ⟨h.shutdown, h.scheduler, h.stopping, h.busy, h.pool, h.endpoints⟩

end World

theorem World.Answers.loadShutdown {w : World} {x : Bool} (h : w.Answers .loadShutdown x) :
    x = w.shutdown := by
  obtain ⟨ch, h⟩ := h
  exact (Option.some.inj h).symm

theorem World.Answers.exchangeShutdown {w : World} {x : Bool}
    (h : w.Answers .exchangeShutdown x) : x = w.shutdown := by
  obtain ⟨ch, h⟩ := h
  exact (Option.some.inj h).symm

/-- Calls that fill nothing that was emptied. -/
def RtCall.gentle : RtCall → Bool
  | .loadShutdown | .exchangeShutdown => true
  | c => c.asks

theorem World.Answers.stopScheduler {w : World} {x : Bool} (h : w.Answers .stopScheduler x) :
    x = !w.scheduler.shuttingDown := by
  obtain ⟨ch, h⟩ := h
  exact (Option.some.inj h).symm

theorem World.Answers.joinWorkers {w : World} (h : w.Answers .joinWorkers ()) :
    w.busy = 0 ∧ w.scheduler.queueDepth = 0 := by
  obtain ⟨ch, h⟩ := h
  have h : (if w.busy = 0 ∧ w.scheduler.queueDepth = 0 then some () else none) = some () := h
  split_ifs at h with hidle
  exact hidle

def StagingPool.Drained (p : StagingPool) : Prop :=
  p.usage = 0 ∧ p.allocatedBytes = 0 ∧ p.freeList = []

def EndpointRegistry.Vacant (g : EndpointRegistry) : Prop := ∀ h, g.get h = none

theorem EndpointRegistry.Vacant.remove {g : EndpointRegistry} (hg : g.Vacant)
    (h : EndpointHandle) : (g.remove h).2.Vacant := by
  unfold EndpointRegistry.remove
  dsimp only
  split_ifs with hslot
  · exact hg
  · exact hg
  · intro h'
    obtain ⟨hzero, hlen⟩ := not_or.mp hslot
    have hpos : h.slot.toNat ≠ 0 := fun h0 => hzero (UInt64.toNat_inj.mp h0)
    rw [get_eq_lookup, lookup_set (by omega), ← get_eq_lookup, hg h']
    simp

/-- The calls that empty the runtime, and those that fill it. -/
def Op.matters : Op → Bool
  | .shutdown | .submit _ | .registerEndpoint _ => true
  | _ => false

def Op.isShutdown : Op → Bool
  | .shutdown => true
  | _ => false

/-! The workers of the scheduler. -/

def isBack : RtEvent → Bool
  | ⟨.workerReturns, _⟩ => true
  | _ => false

/-- A worker that is not back at its queue. -/
def atWork (p : Option Op × RtTrace) : Bool := p.1.any Op.isWork && !p.2.any isBack

/-- What a thread was started for, and what it did. -/
def World.account (w : World) (i : Tid) : Option Op × RtTrace := (w.calls[i]?, w.past i)

theorem last_work {rt : Runtime} (task : Task) :
    Last (fun c : RtCall => c = .workerReturns) (rt.program (.work task)) := by
  refine last_bind (calls_runDriver (fun _ h => by cases h) fun c hc _ h => ?_) fun _ => ?_
  · rw [h] at hc
    cases hc
  · exact fun x => ⟨trivial, fun _ => ⟨_, rfl⟩⟩

namespace Runtime

variable {rt : Runtime} {σ : System} {i s : Tid} {k : Nat}

theorem returned_of_done {res : Result} (h : σ.threads[i]? = some (.done res)) :
    (returned σ i).isSome = true := by
  unfold returned
  rw [h]
  rfl

theorem not_returned {c : RtCall} {next : RtAnswer c → Prog RtSig Result}
    (h : σ.threads[i]? = some (.call c next)) : (returned σ i).isSome = false := by
  unfold returned
  rw [h]
  rfl

/-- A worker that is back at its queue has returned. -/
theorem Reaches.back (h : rt.Reaches σ) {task : Task}
    (hop : σ.world.calls[i]? = some (.work task))
    (hback : (⟨.workerReturns, ()⟩ : RtEvent) ∈ σ.world.past i) :
    (Runtime.returned σ i).isSome = true := by
  obtain ⟨q, hq⟩ := h.thread hop
  obtain ⟨res, rfl⟩ := (last_work task).follows (h.follows hop hq) hback rfl
  exact returned_of_done hq

/-- The scheduler of a runtime is the queue of its specification. -/
theorem Reaches.queue (h : rt.Reaches σ) :
    ∃ q, σ.world.scheduler.Represents rt.maxQueued q := by
  induction h with
  | refl => exact ⟨{}, .initial _⟩
  | @tail σ₁ σ₂ hrun hstep ih =>
      obtain ⟨q, hq⟩ := ih
      cases hstep with
      | @act i c next x w' hi he =>
          obtain ⟨-, rfl⟩ := he
          by_cases hstop : c = .stopScheduler
          · subst hstop
            obtain ⟨q', -, hq'⟩ := hq.step .stop
            exact ⟨q', hq'⟩
          by_cases hsubmit : ∃ t, c = .schedule t
          · obtain ⟨t, rfl⟩ := hsubmit
            obtain ⟨q', -, hq'⟩ := hq.submit t
            exact ⟨q', hq'⟩
          · have hsame :=
              (σ₁.world.after_spares i c x).scheduler (not_exists.mp hsubmit) hstop
            exact ⟨q, hsame ▸ hq⟩
      | start hs =>
          cases hs with
          | call op hop => exact ⟨q, hq⟩
          | task hdepth hbusy hpop =>
              obtain ⟨q', -, hq'⟩ := hq.pop
              rw [hpop] at hq'
              exact ⟨q', hq'⟩

theorem Reaches.no_tasks (h : rt.Reaches σ) (hdepth : σ.world.scheduler.queueDepth = 0) :
    σ.world.scheduler.tasks = [] := by
  obtain ⟨q, hq⟩ := h.queue
  have hlength := hq.tasks_perm.length_eq
  rw [← hq.depth, hdepth] at hlength
  exact List.length_eq_zero_iff.mp hlength

theorem account_after (w : World) (i : Tid) (c : RtCall) (x : RtAnswer c) :
    (w.after i c x).account =
      Function.update w.account i (w.calls[i]?, w.past i ++ [⟨c, x⟩]) := by
  have hw := w.after_changes i c x
  funext j
  unfold World.account
  rw [hw.calls, hw.past]
  by_cases hj : j = i
  · subst hj
    simp
  · simp [hj]

theorem busy_act (h : rt.Reaches σ) {c : RtCall} {next : RtAnswer c → Prog RtSig Result}
    {x : RtAnswer c} (hi : σ.threads[i]? = some (.call c next))
    (ih : σ.world.busy = tally atWork σ.world.account σ.threads.length) :
    (σ.world.after i c x).busy =
      tally atWork (σ.world.after i c x).account σ.threads.length := by
  have hlt : i < σ.threads.length := (List.getElem?_eq_some_iff.mp hi).1
  obtain ⟨op, hop⟩ := h.called hi
  rw [account_after]
  by_cases hc : c = .workerReturns
  · subst hc
    -- the worker was counted until now
    obtain ⟨task, rfl⟩ : ∃ task, op = .work task := by
      have hmay := ((h.may hop).2 _ hi).1
      cases op with
      | work task => exact ⟨task, rfl⟩
      | _ => cases hmay
    have hcounted : atWork (σ.world.account i) = true := by
      simp only [atWork, World.account, hop, Option.any_some, Op.isWork, Bool.true_and,
        Bool.not_eq_true', List.any_eq_false]
      intro ev hev hback
      obtain ⟨c, x⟩ := ev
      cases c with
      | workerReturns =>
          have hret := h.back hop hev
          rw [not_returned hi] at hret
          cases hret
      | _ => cases hback
    have hmove := tally_update atWork σ.world.account hlt
      (σ.world.calls[i]?, σ.world.past i ++ [⟨.workerReturns, x⟩])
    rw [hcounted, show atWork (σ.world.calls[i]?, σ.world.past i ++ [⟨.workerReturns, x⟩]) = false
      by simp [atWork, isBack]] at hmove
    show σ.world.busy - 1 = _
    rw [ih]
    simp only [Bool.toNat_true, Bool.toNat_false] at hmove
    omega
  · rw [(σ.world.after_spares i c x).busy hc, ih, tally_same _ _ hlt]
    have hback : isBack ⟨c, x⟩ = false := by
      cases c with
      | workerReturns => exact absurd rfl hc
      | _ => rfl
    simp [atWork, World.account, hback]

/-- The scheduler knows how many of its workers are inside a task. -/
theorem Reaches.busy (h : rt.Reaches σ) :
    σ.world.busy = tally atWork σ.world.account σ.threads.length := by
  induction h with
  | refl => rfl
  | @tail σ₁ σ₂ hrun hstep ih =>
      have hreach : rt.Reaches σ₁ := hrun
      cases hstep with
      | @act i c next x w' hi he =>
          obtain ⟨-, rfl⟩ := he
          rw [List.length_set]
          exact busy_act hreach hi ih
      | @start prog w' hs =>
          have hsilent := hreach.kept.silent σ₁.threads.length (Nat.le_refl _)
          have hlength := hreach.calls_length
          have haccount : ∀ op, w'.calls = σ₁.world.calls ++ [op] → w'.past = σ₁.world.past →
              w'.account = Function.update σ₁.world.account σ₁.threads.length (some op, []) := by
            intro op hcalls hpast
            funext j
            unfold World.account
            rw [hcalls, hpast, ← hlength, Function.update_apply]
            split_ifs with hj
            · subst hj
              rw [List.getElem?_concat_length, hlength]
              exact congrArg _ hsilent
            · rcases Nat.lt_or_gt_of_ne hj with hlt | hgt
              · rw [List.getElem?_append_left hlt]
              · rw [List.getElem?_eq_none (by simp; omega), List.getElem?_eq_none (by omega)]
          rw [List.length_append, List.length_singleton]
          cases hs with
          | call op hop =>
              rw [haccount op rfl rfl, tally_start, show atWork (some op, []) = false from ?_]
              · exact ih
              · cases op with
                | work t => exact absurd rfl (hop t)
                | _ => rfl
          | @task task queue hdepth hbusy hpop =>
              rw [haccount (.work task) rfl rfl, tally_start, ← ih]
              rfl

theorem Reaches.idle (h : rt.Reaches σ) (hbusy : σ.world.busy = 0) {task : Task}
    (hop : σ.world.calls[i]? = some (.work task)) : (Runtime.returned σ i).isSome = true := by
  have hcount := h.busy
  rw [hbusy, eq_comm, tally, List.countP_eq_zero] at hcount
  have hi : i < σ.threads.length := by
    rw [← h.calls_length]
    exact (List.getElem?_eq_some_iff.mp hop).1
  have hnot := hcount i (List.mem_range.mpr hi)
  simp only [atWork, World.account, hop, Option.any_some, Op.isWork, Bool.true_and,
    Bool.not_eq_true', Bool.not_eq_false, List.any_eq_true] at hnot
  obtain ⟨⟨c, x⟩, hev, hback⟩ := hnot
  cases c with
  | workerReturns => exact h.back hop hev
  | _ => cases hback

/-! The call that raises the flag. -/

/-- What it does, in order. -/
def closing : RtTrace :=
  [⟨.exchangeShutdown, false⟩, ⟨.stopScheduler, true⟩, ⟨.joinWorkers, ()⟩, ⟨.drain .host, ()⟩,
    ⟨.drain .hostPinned, ()⟩, ⟨.clearEndpoints, ()⟩]

theorem closing_next {c : RtCall} {next : RtAnswer c → Prog RtSig Result}
    (h : Follows (closing.take (k + 1)) shutdown (.call c next)) :
    (k = 0 ∧ c = .stopScheduler) ∨ (k = 1 ∧ c = .joinWorkers) ∨ (k = 2 ∧ c = .drain .host) ∨
      (k = 3 ∧ c = .drain .hostPinned) ∨ (k = 4 ∧ c = .clearEndpoints) := by
  rcases k with _ | _ | _ | _ | _ | k
  · cases h.unique ⟨false, rfl, rfl⟩
    exact Or.inl ⟨rfl, rfl⟩
  · cases h.unique ⟨false, rfl, true, rfl, rfl⟩
    simp
  · cases h.unique ⟨false, rfl, true, rfl, (), rfl, rfl⟩
    simp
  · cases h.unique ⟨false, rfl, true, rfl, (), rfl, (), rfl, rfl⟩
    simp
  · cases h.unique ⟨false, rfl, true, rfl, (), rfl, (), rfl, (), rfl, rfl⟩
    simp
  · rw [List.take_of_length_le (by simp [closing])] at h
    cases h.unique ⟨false, rfl, true, rfl, (), rfl, (), rfl, (), rfl, (), rfl, rfl⟩

theorem closing_done {res : Result} (h : Follows (closing.take (k + 1)) shutdown (.done res)) :
    5 ≤ k := by
  rcases k with _ | _ | _ | _ | _ | k
  · cases h.unique ⟨false, rfl, rfl⟩
  · cases h.unique ⟨false, rfl, true, rfl, rfl⟩
  · cases h.unique ⟨false, rfl, true, rfl, (), rfl, rfl⟩
  · cases h.unique ⟨false, rfl, true, rfl, (), rfl, (), rfl, rfl⟩
  · cases h.unique ⟨false, rfl, true, rfl, (), rfl, (), rfl, (), rfl, rfl⟩
  · omega

/-- What is empty after the first `k` calls behind the flag. -/
structure Emptied (w : World) (k : Nat) : Prop where
  running : k = 0 → w.scheduler.shuttingDown = false
  idle : 2 ≤ k → w.busy = 0 ∧ w.scheduler.queueDepth = 0
  host : 3 ≤ k → (w.pool .host).Drained
  pinned : 4 ≤ k → (w.pool .hostPinned).Drained
  vacant : 5 ≤ k → w.endpoints.Vacant

theorem Emptied.gentle {w : World} {c : RtCall} {x : RtAnswer c} (h : Emptied w k)
    (hc : c.gentle = true) : Emptied (w.after i c x) k := by
  have hw := w.after_spares i c x
  have hsched := hw.scheduler (by rintro t rfl; cases hc) (by rintro rfl; cases hc)
  have hbusy := hw.busy (by rintro rfl; cases hc)
  have hpool := hw.pool (by cases c <;> first | rfl | cases hc)
  refine ⟨?_, ?_, ?_, ?_, fun hk => ?_⟩
  · rw [hsched]
    exact h.running
  · rw [hsched, hbusy]
    exact h.idle
  · rw [hpool]
    exact h.host
  · rw [hpool]
    exact h.pinned
  · by_cases hremove : ∃ h, c = .removeEndpoint h
    · obtain ⟨h', rfl⟩ := hremove
      exact (h.vacant hk).remove h'
    · rw [hw.endpoints (by rintro ep rfl; cases hc) (not_exists.mp hremove) (by rintro rfl; cases hc)]
      exact h.vacant hk

/-- Nobody has asked for a shutdown yet. -/
structure Open (σ : System) : Prop where
  flag : σ.world.shutdown = false
  running : σ.world.scheduler.shuttingDown = false
  fresh : ∀ j b, (⟨.exchangeShutdown, b⟩ : RtEvent) ∉ σ.world.past j

/-- Thread `s` has raised the flag and made `k` calls since. -/
structure Closing (σ : System) (s : Tid) (k : Nat) : Prop where
  op : σ.world.calls[s]? = some .shutdown
  past : σ.world.past s = closing.take (k + 1)
  flag : σ.world.shutdown = true
  alone : ∀ j ≠ s, (⟨.exchangeShutdown, false⟩ : RtEvent) ∉ σ.world.past j
  /-- Whoever has seen the flag down is done. -/
  quiet : ∀ j, (⟨.loadShutdown, false⟩ : RtEvent) ∈ σ.world.past j → (returned σ j).isSome = true
  emptied : Emptied σ.world k

/-- The calls of the other threads while the runtime is closed. -/
theorem Closing.turn {c : RtCall} {next : RtAnswer c → Prog RtSig Result} (h : Closing σ s k)
    (hreach : rt.Reaches σ) (hne : i ≠ s) (hi : σ.threads[i]? = some (.call c next)) :
    c.gentle = true ∨ k < 2 ∧ (c.serves = true ∨ c = .workerReturns) := by
  obtain ⟨op, hop⟩ := hreach.called hi
  have hfollows := hreach.follows hop hi
  have hmay := ((hreach.may hop).2 _ hi).1
  -- a call that reads the flag first has not got beyond that
  have hreads : ∀ f : Bool → Prog RtSig Result, (∃ res, f true = .done res) →
      Follows (σ.world.past i) (.call .loadShutdown f) (.call c next) → c = .loadShutdown := by
    rintro f ⟨res, hf⟩ hfollows
    rcases hfollows.head with ⟨-, heq⟩ | ⟨x, u, hpast, hrest⟩
    · cases heq
      rfl
    · cases x with
      | true =>
          rw [hf] at hrest
          cases hrest.over.2
      | false =>
          have hret := h.quiet i (by rw [hpast]; exact List.mem_cons_self)
          rw [not_returned hi] at hret
          cases hret
  cases op with
  | submit opts =>
      obtain rfl := hreads _ ⟨_, rfl⟩ hfollows
      exact Or.inl rfl
  | registerEndpoint desc =>
      obtain rfl := hreads _ ⟨_, rfl⟩ hfollows
      exact Or.inl rfl
  | shutdown =>
      rcases Follows.head hfollows with ⟨-, heq⟩ | ⟨x, u, hpast, hrest⟩
      · cases heq
        exact Or.inl rfl
      · cases x with
        | true => cases hrest.over.2
        | false => exact absurd (by rw [hpast]; exact List.mem_cons_self) (h.alone i hne)
  | work task =>
      refine Or.inr ⟨?_, ?_⟩
      · by_contra hk
        have hret := hreach.idle (h.emptied.idle (Nat.le_of_not_lt hk)).1 hop
        rw [not_returned hi] at hret
        cases hret
      · cases c with
        | workerReturns => exact Or.inr rfl
        | _ => exact Or.inl hmay
  | _ =>
      refine Or.inl ?_
      cases c with
      | loadShutdown | exchangeShutdown => rfl
      | _ => exact hmay

/-- The thread that raised the flag empties one thing after the other. -/
theorem Emptied.next {w : World} {c : RtCall} {x : RtAnswer c} (h : Emptied w k)
    (hx : w.Answers c x)
    (hc : (k = 0 ∧ c = .stopScheduler) ∨ (k = 1 ∧ c = .joinWorkers) ∨ (k = 2 ∧ c = .drain .host) ∨
      (k = 3 ∧ c = .drain .hostPinned) ∨ (k = 4 ∧ c = .clearEndpoints)) :
    Emptied (w.after i c x) (k + 1) := by
  rcases hc with ⟨rfl, rfl⟩ | ⟨rfl, rfl⟩ | ⟨rfl, rfl⟩ | ⟨rfl, rfl⟩ | ⟨rfl, rfl⟩
  · exact ⟨by omega, by omega, by omega, by omega, by omega⟩
  · exact ⟨by omega, fun _ => hx.joinWorkers, by omega, by omega, by omega⟩
  · exact ⟨by omega, fun _ => h.idle (by omega), fun _ => ⟨rfl, rfl, rfl⟩, by omega, by omega⟩
  · exact ⟨by omega, fun _ => h.idle (by omega), fun _ => h.host (by omega),
      fun _ => ⟨rfl, rfl, rfl⟩, by omega⟩
  · refine ⟨by omega, fun _ => h.idle (by omega), fun _ => h.host (by omega),
      fun _ => h.pinned (by omega), fun _ h' => ?_⟩
    show EndpointRegistry.get {} h' = none
    rw [EndpointRegistry.get_eq_lookup]
    unfold EndpointRegistry.lookup
    split_ifs <;> rfl

/-- The flag stays up, nobody else finds it down, and nobody sees it down any more. -/
theorem Closing.keeps {c : RtCall} {next : RtAnswer c → Prog RtSig Result} {x : RtAnswer c}
    (h : Closing σ s k) (hi : σ.threads[i]? = some (.call c next)) (hx : σ.world.Answers c x) :
    (σ.world.after i c x).shutdown = true ∧
      (∀ j ≠ s, (⟨.exchangeShutdown, false⟩ : RtEvent) ∉ (σ.world.after i c x).past j) ∧
      ∀ j, (⟨.loadShutdown, false⟩ : RtEvent) ∈ (σ.world.after i c x).past j →
        (returned ⟨σ.world.after i c x, σ.threads.set i (next x)⟩ j).isSome = true := by
  refine ⟨?_, fun j hj hmem => ?_, fun j hmem => ?_⟩
  · by_cases hc : c = .exchangeShutdown
    · subst hc
      rfl
    · rw [(σ.world.after_spares i c x).shutdown hc, h.flag]
  · rcases World.mem_after_past.mp hmem with hmem | ⟨-, hev⟩
    · exact h.alone j hj hmem
    · cases hev
      have hup := World.Answers.exchangeShutdown hx
      rw [h.flag] at hup
      cases hup
  · rcases World.mem_after_past.mp hmem with hmem | ⟨-, hev⟩
    · obtain ⟨res, hres⟩ := Option.isSome_iff_exists.mp (h.quiet j hmem)
      have hret : σ.threads[j]? = some (.done res) := returned_eq hres
      refine returned_of_done (?_ : _ = some (Prog.done res))
      rw [List.getElem?_set_ne ?_, hret]
      rintro rfl
      rw [hi] at hret
      cases hret
    · cases hev
      have hup := World.Answers.loadShutdown hx
      rw [h.flag] at hup
      cases hup

theorem Closing.act {c : RtCall} {next : RtAnswer c → Prog RtSig Result} {x : RtAnswer c}
    (h : Closing σ s k) (hreach : rt.Reaches σ) (hi : σ.threads[i]? = some (.call c next))
    (hx : σ.world.Answers c x) :
    ∃ k', Closing ⟨σ.world.after i c x, σ.threads.set i (next x)⟩ s k' := by
  obtain ⟨hflag, halone, hquiet⟩ := h.keeps hi hx
  have hw := σ.world.after_changes i c x
  have hop : (σ.world.after i c x).calls[s]? = some .shutdown := by rw [hw.calls, h.op]
  by_cases his : i = s
  · subst his
    have hfollows := hreach.follows h.op hi
    rw [h.past] at hfollows
    have hnext := closing_next hfollows
    refine ⟨k + 1, hop, ?_, hflag, halone, hquiet, h.emptied.next hx hnext⟩
    show (σ.world.after i c x).past i = _
    rw [hw.past, Function.update_self, h.past]
    rcases hnext with ⟨rfl, rfl⟩ | ⟨rfl, rfl⟩ | ⟨rfl, rfl⟩ | ⟨rfl, rfl⟩ | ⟨rfl, rfl⟩
    · -- the scheduler was running, so its workers will be joined
      obtain rfl : x = true := by
        rw [World.Answers.stopScheduler hx, h.emptied.running rfl]
        rfl
      rfl
    all_goals rfl
  · refine ⟨k, hop, ?_, hflag, halone, hquiet, ?_⟩
    · show (σ.world.after i c x).past s = _
      rw [hw.past, Function.update_of_ne (Ne.symm his), h.past]
    · rcases h.turn hreach his hi with hgentle | ⟨hk, hserves⟩
      · exact h.emptied.gentle hgentle
      · refine ⟨?_, by omega, by omega, by omega, by omega⟩
        show _ → (σ.world.after i c x).scheduler.shuttingDown = false
        rw [(σ.world.after_spares i c x).stopping]
        · exact h.emptied.running
        · rintro rfl
          rcases hserves with hserves | hserves <;> cases hserves

theorem Closing.start {prog : Prog RtSig Result} {w' : World} (h : Closing σ s k)
    (hs : rt.Starts σ.world prog w') : Closing ⟨w', σ.threads ++ [prog]⟩ s k := by
  obtain ⟨hpast, -, -, new, hcalls⟩ := hs.same
  have hop : w'.calls[s]? = some .shutdown := by
    rw [hcalls, List.getElem?_append_left (List.getElem?_eq_some_iff.mp h.op).1, h.op]
  have hstep : rt.Step σ ⟨w', σ.threads ++ [prog]⟩ := .start hs
  refine ⟨hop, hpast ▸ h.past, ?_, fun j hj => hpast ▸ h.alone j hj, fun j hmem => ?_, ?_⟩
  · cases hs <;> exact h.flag
  · obtain ⟨res, hres⟩ := Option.isSome_iff_exists.mp (h.quiet j (hpast ▸ hmem))
    rw [returned_step hstep hres]
    rfl
  · cases hs with
    | call op hop => exact ⟨h.emptied.running, h.emptied.idle, h.emptied.host, h.emptied.pinned,
        h.emptied.vacant⟩
    | @task task queue hdepth hbusy hpop =>
        -- a worker finds a task, so the workers are not joined yet
        have hk : k < 2 := by
          by_contra hk
          have := (h.emptied.idle (Nat.le_of_not_lt hk)).2
          omega
        refine ⟨fun hzero => ?_, by omega, by omega, by omega, by omega⟩
        have hsame := σ.world.scheduler.pop_shuttingDown
        rw [hpop] at hsame
        exact hsame.trans (h.emptied.running hzero)

/-! Raising the flag. -/

def sawOpen : RtEvent → Bool
  | ⟨.loadShutdown, down⟩ => !down
  | _ => false

/-- The flag is raised only when every call that has seen it down has returned, and every id that
a submission looks up is registered. -/
def tidy (σ : System) (i : Tid) : RtEvent → Bool
  | ⟨.exchangeShutdown, up⟩ => up || (List.range σ.threads.length).all fun j =>
      !(σ.world.past j).any sawOpen || (returned σ j).isSome
  | ⟨.find _, found⟩ => found.isSome || !(σ.world.calls[i]?).any Op.isSubmit
  | _ => true

theorem Open.act {c : RtCall} {next : RtAnswer c → Prog RtSig Result} {x : RtAnswer c}
    (h : Open σ) (hreach : rt.Reaches σ) (hi : σ.threads[i]? = some (.call c next))
    (hx : σ.world.Answers c x) (hok : tidy σ i ⟨c, x⟩ = true) :
    Open ⟨σ.world.after i c x, σ.threads.set i (next x)⟩ ∨
      Closing ⟨σ.world.after i c x, σ.threads.set i (next x)⟩ i 0 := by
  have hw := σ.world.after_changes i c x
  obtain ⟨op, hop⟩ := hreach.called hi
  by_cases hshut : op = .shutdown
  · subst hshut
    -- the thread is at its first call
    have hpast : σ.world.past i = [] ∧ c = .exchangeShutdown := by
      rcases Follows.head (hreach.follows hop hi) with ⟨hpast, heq⟩ | ⟨b, u, hpast, -⟩
      · cases heq
        exact ⟨hpast, rfl⟩
      · exact absurd (by rw [hpast]; exact List.mem_cons_self) (h.fresh i b)
    obtain ⟨hpast, rfl⟩ := hpast
    obtain rfl : x = false := by rw [World.Answers.exchangeShutdown hx, h.flag]
    refine Or.inr ⟨by rw [← hop]; exact congrArg (fun l : List Op => l[i]?) hw.calls, ?_, rfl,
      fun j hj hmem => ?_, fun j hmem => ?_, ⟨fun _ => h.running, by omega, by omega, by omega,
      by omega⟩⟩
    · show (σ.world.after i .exchangeShutdown false).past i = _
      rw [hw.past, Function.update_self, hpast]
      rfl
    · rcases World.mem_after_past.mp hmem with hmem | ⟨hji, -⟩
      · exact h.fresh j false hmem
      · exact hj hji
    · rcases World.mem_after_past.mp hmem with hmem | ⟨-, hev⟩
      · have hj : j < σ.threads.length := by
          by_contra hge
          have hsilent : σ.world.past j = [] := hreach.kept.silent j (Nat.le_of_not_lt hge)
          rw [hsilent] at hmem
          cases hmem
        have hall := List.all_eq_true.mp hok j (List.mem_range.mpr hj)
        have hany : (σ.world.past j).any sawOpen = true :=
          List.any_eq_true.mpr ⟨_, hmem, rfl⟩
        rw [hany] at hall
        obtain ⟨res, hres⟩ := Option.isSome_iff_exists.mp (by simpa using hall)
        have hstep : rt.Step σ ⟨σ.world.after i .exchangeShutdown false,
          σ.threads.set i (next false)⟩ := .act hi ⟨hx, rfl⟩
        rw [returned_step hstep hres]
        rfl
      · cases hev
  · have hmay := ((hreach.may hop).2 _ hi).1
    have hexchange : c ≠ .exchangeShutdown := by
      rintro rfl
      cases op <;> first | exact absurd rfl hshut | cases hmay
    have hstop : c ≠ .stopScheduler := by
      rintro rfl
      cases op <;> first | exact absurd rfl hshut | cases hmay
    refine Or.inl ⟨?_, ?_, fun j b hmem => ?_⟩
    · exact ((σ.world.after_spares i c x).shutdown hexchange).trans h.flag
    · exact ((σ.world.after_spares i c x).stopping hstop).trans h.running
    · rcases World.mem_after_past.mp hmem with hmem | ⟨-, hev⟩
      · exact h.fresh j b hmem
      · exact hexchange (congrArg Sigma.fst hev).symm

theorem Open.start {prog : Prog RtSig Result} {w' : World} (h : Open σ)
    (hs : rt.Starts σ.world prog w') : Open ⟨w', σ.threads ++ [prog]⟩ := by
  cases hs with
  | call op hop => exact ⟨h.flag, h.running, h.fresh⟩
  | task hdepth hbusy hpop =>
      have hsame := σ.world.scheduler.pop_shuttingDown
      rw [hpop] at hsame
      exact ⟨h.flag, hsame.trans h.running, h.fresh⟩

theorem ReachesWhere.closing (h : rt.ReachesWhere tidy σ) : Open σ ∨ ∃ s k, Closing σ s k := by
  induction h with
  | refl => exact Or.inl ⟨rfl, rfl, fun _ _ hmem => by cases hmem⟩
  | @tail σ₁ σ₂ hrun hstep ih =>
      have hreach := ReachesWhere.reaches hrun
      cases hstep with
      | @act i c next x w' hi he hok =>
          obtain ⟨hx, rfl⟩ := he
          rcases ih with hopen | ⟨s, k, hclosing⟩
          · exact (hopen.act hreach hi hx hok).imp_right fun h => ⟨i, 0, h⟩
          · obtain ⟨k', h'⟩ := hclosing.act hreach hi hx
            exact Or.inr ⟨s, k', h'⟩
      | start hs =>
          rcases ih with hopen | ⟨s, k, hclosing⟩
          · exact Or.inl (hopen.start hs)
          · exact Or.inr ⟨s, k, hclosing.start hs⟩

/-! Nothing is left behind. -/

/-- The runtime was shut down, and no call that could fill it again is under way. -/
structure Stopped (σ : System) : Prop where
  called : ∃ op ∈ σ.world.calls, op.isShutdown = true
  ended : ∀ i op, σ.world.calls[i]? = some op → op.matters = true → (returned σ i).isSome = true

/-- No handle resolves, every transfer has ended, and the staging pools are empty. -/
structure Bare (σ : System) : Prop where
  handles : ∀ h, σ.world.endpoints.get h = none
  transfers : ∀ r < σ.world.next, (σ.world.heap r).state.isTerminal = true
  host : σ.world.hostPool.Drained
  pinned : σ.world.pinnedPool.Drained

theorem ReachesWhere.known_dependencies (h : rt.ReachesWhere tidy σ) :
    unknownDependencies σ = 0 := by
  unfold unknownDependencies
  rw [List.countP_eq_zero]
  intro i _
  cases hop : σ.world.calls[i]? with
  | none => simp
  | some op =>
      cases hsubmit : op.isSubmit with
      | false => simp [hsubmit]
      | true =>
          have hevents := h.events (fun op ev => op.isSubmit = true →
            ∀ p ∈ lookups [ev], p.2.isSome = true) ?_ hop
          · simp only [Option.any_some, hsubmit, Bool.true_and, List.any_eq_true, not_exists,
              not_and]
            intro p hp
            obtain ⟨ev, hev, hl⟩ := List.mem_filterMap.mp hp
            have hsome := hevents ev hev hsubmit p
              (List.mem_filterMap.mpr ⟨ev, List.mem_singleton_self ev, hl⟩)
            simp [Option.isSome_iff_ne_none.mp hsome]
          · rintro σ i op ⟨c, x⟩ hop hok hsubmit p hp
            cases c with
            | find id =>
                obtain rfl : p = (id, x) := by simpa [lookups] using hp
                simpa [tidy, hop, hsubmit] using hok
            | _ => cases hp

/-- In a run in which the flag is raised only when every call that has seen it down has returned,
and every dependency is known: once the shutdown and all submissions and registrations have
returned, nothing is left. -/
theorem shutdown_leaves_nothing (h : rt.ReachesWhere tidy σ) (hstopped : Stopped σ) : Bare σ := by
  have hreach := h.reaches
  rcases h.closing with hopen | ⟨s, k, hclosing⟩
  · -- no shutdown returns without having asked for the flag
    obtain ⟨op, hmem, hshut⟩ := hstopped.called
    obtain ⟨i, hop⟩ := List.mem_iff_getElem?.mp hmem
    obtain rfl : op = .shutdown := by cases op <;> first | rfl | cases hshut
    obtain ⟨res, hres⟩ := Option.isSome_iff_exists.mp (hstopped.ended i _ hop rfl)
    rcases Follows.head (hreach.follows hop (returned_eq hres)) with ⟨-, heq⟩ | ⟨b, u, hpast, -⟩
    · cases heq
    · exact absurd (by rw [hpast]; exact List.mem_cons_self) (hopen.fresh i b)
  · obtain ⟨res, hres⟩ := Option.isSome_iff_exists.mp (hstopped.ended s _ hclosing.op rfl)
    have hfollows := hreach.follows hclosing.op (returned_eq hres)
    rw [hclosing.past] at hfollows
    have hk : 5 ≤ k := closing_done hfollows
    obtain ⟨hbusy, hdepth⟩ := hclosing.emptied.idle (by omega)
    have hquiet : Quiescent σ := by
      refine ⟨hreach.no_tasks hdepth, fun i op hop hends => ?_⟩
      cases op with
      | submit opts => exact hstopped.ended i _ hop rfl
      | work task => exact hreach.idle hbusy hop
      | _ => rcases hends with hends | hends <;> cases hends
    exact ⟨hclosing.emptied.vacant hk,
      fun r hr => hquiet.all_ended hreach h.known_dependencies hr,
      hclosing.emptied.host (by omega), hclosing.emptied.pinned (by omega)⟩

theorem stopped_of_check (hcalled : σ.world.calls.any Op.isShutdown = true)
    (hcheck : ∀ i < σ.world.calls.length, (σ.world.calls[i]?).any Op.matters = true →
      (returned σ i).isSome = true) : Stopped σ := by
  refine ⟨List.any_eq_true.mp hcalled,
    fun i op hop hends => hcheck i (List.getElem?_eq_some_iff.mp hop).1 ?_⟩
  rw [hop]
  exact hends

/-- A completed transfer, and then a shutdown. -/
def closedLate : List Move := oneCompleted ++ Move.whole 4 6 .shutdown 0

theorem closedLate_bare :
    Stopped (loopback.play closedLate) ∧ Bare (loopback.play closedLate) := by
  have hstopped : Stopped (loopback.play closedLate) :=
    stopped_of_check (by decide +kernel) (by decide +kernel)
  exact ⟨hstopped, shutdown_leaves_nothing (play_where (by decide +kernel)) hstopped⟩

/-- A registration reads the flag, a shutdown runs from its beginning to its end, and the
registration goes on. -/
def closedEarly : List Move :=
  .call (.registerEndpoint (.hostMemory 0x10000 16)) :: .act 0 (fair 0) ::
    (Move.whole 1 6 .shutdown 0 ++ [.act 0 (fair 0)])

theorem closedEarly_not_bare :
    loopback.Reaches (loopback.play closedEarly) ∧ Stopped (loopback.play closedEarly) ∧
      ((loopback.play closedEarly).world.endpoints.get { slot := 1, generation := 1 }).isSome =
        true ∧
      ¬ Bare (loopback.play closedEarly) := by
  have hget : ((loopback.play closedEarly).world.endpoints.get
      { slot := 1, generation := 1 }).isSome = true := by decide +kernel
  refine ⟨loopback.play_reaches _, stopped_of_check (by decide +kernel)
    (by decide +kernel), hget,
    fun hbare => ?_⟩
  rw [hbare.handles] at hget
  cases hget

end Runtime

end TransferFabric
