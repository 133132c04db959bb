import TransferFabric.Runtime.Lifecycle

/-!
What a submission leaves behind, in every run of the runtime: the record of a
submission that failed, the record behind a returned handle, the dependencies a
transfer waited for, and who waits for whom.

Three of the results are conditional, and each condition is needed: a dependency that is
not registered leaves a live record, an id that is used again leads to another
record, and a submission that finds itself, or a record made after its own, can wait forever.
-/

namespace TransferFabric

open Interaction Relation

namespace Runtime

variable {rt : Runtime} {σ σ' : System} {r : Ref} {i : Tid}

/-! Failed submissions. -/

/-- A submission that returns an error leaves its record settled, so that nobody waits
for it in vain, exactly if every dependency it looked up was registered. -/
theorem failed_submit_settled_iff (h : rt.Reaches σ) {err : Error} {out : TransferId}
    (hi : σ.threads[i]? = some (.done (.submitted err out))) (herr : err.ok = false) :
    (∀ r < σ.world.next, (σ.world.heap r).maker = i → (σ.world.heap r).settled = true) ↔
      ∀ p ∈ lookups (σ.world.past i), p.2.isSome = true := by
  obtain ⟨l, ⟨hhistory, hrecords, htruth, -⟩, -, hreturned⟩ := h.known
  obtain ⟨hlt, -, hend⟩ := hreturned i _ hi
  rw [← hhistory.looked i hlt]
  have hmade : ∀ r < σ.world.next, (σ.world.heap r).maker = i →
      (l i).made = some (r, (σ.world.heap r).id) := fun r hr hmk => hmk ▸ (hrecords.maker r hr).2
  -- the one record of the call is settled if its state is terminal
  have hone : ∀ {r id t}, (l i).made = some (r, id) → (l i).own = some (r, t) →
      ∀ r' < σ.world.next, (σ.world.heap r').maker = i →
        (σ.world.heap r').settled = t.state.isTerminal := by
    intro r id t hmd hown r' hr' hmk
    obtain ⟨rfl, -⟩ := Prod.mk.inj (Option.some.inj ((hmade r' hr' hmk).symm.trans hmd))
    have hnotified := (htruth.sound r' hr').notified
    obtain ⟨-, rfl⟩ := hrecords.own i hlt r' t hown
    unfold Transfer.settled
    rw [hnotified]
    cases (σ.world.heap r').state.isTerminal <;> rfl
  cases hend with
  | rejected idle looked awaited err_bad out =>
      refine iff_of_true (fun r hr hmk => ?_) (by simp [looked])
      have := hmade r hr hmk
      rw [idle.made] at this
      cases this
  | queued | failed => cases herr
  | dependencyFailed made own state created handed closed counted awaited looked err_bad =>
      refine iff_of_true (fun r hr hmk => ?_) looked
      rw [hone made own r hr hmk, state]
      rfl
  | @unknownDependency r id out t err made own state created handed closed counted awaited looked err_bad =>
      refine iff_of_false (fun hall => ?_) (fun hall => ?_)
      · obtain ⟨hr, hmk, -⟩ := hrecords.made i hlt r id made
        have := hall r hr hmk
        rw [hone made own r hr hmk, state] at this
        cases this
      · obtain ⟨p, hp, hnone⟩ := looked
        have := hall p hp
        rw [hnone] at this
        cases this

/-- A submission that depends on a transfer that was cancelled. -/
def dependsOnCancelled : List Move :=
  cancelledInQueue ++
    Move.whole 5 30 (.submit { firstToSecond with dependencies := [{ hi := 0, lo := 7 }] }) 8

theorem dependsOnCancelled_settled :
    ((loopback.play dependsOnCancelled).world.heap 1).maker = 5 ∧
      ((loopback.play dependsOnCancelled).world.heap 1).settled = true :=
  have hreturned : returned (loopback.play dependsOnCancelled) 5 =
      some (.submitted { category := .permanentFailure, message := "a dependency failed" } {}) := by
    decide +kernel
  ⟨by decide +kernel, (failed_submit_settled_iff (loopback.play_reaches dependsOnCancelled)
    (returned_eq hreturned) rfl).mpr (by decide +kernel) 1 (by decide +kernel)
    (by decide +kernel)⟩

def dependsOnUnknown : List Move :=
  twoRegions 16 ++
    Move.whole 2 30 (.submit { firstToSecond with dependencies := [{ hi := 0, lo := 99 }] }) 7

/-- A submission with a dependency that is not registered returns an error and leaves its
record planned. -/
theorem unknown_dependency_leaves_record :
    ∃ (σ : System) (i : Tid) (err : Error) (out : TransferId), loopback.Reaches σ ∧
      σ.threads[i]? = some (.done (.submitted err out)) ∧ err.ok = false ∧
      ∃ r < σ.world.next, (σ.world.heap r).maker = i ∧
        (σ.world.heap r).state.isTerminal = false :=
  ⟨loopback.play dependsOnUnknown, 2,
    { category := .invalidRequest, message := "unknown dependency" }, {},
    loopback.play_reaches _, returned_eq (by decide +kernel), rfl, 0, by decide +kernel,
    by decide +kernel, by decide +kernel⟩

/-! Handles. -/

/-- The id a successful submission returns leads to the record of this very call, in all
calls that look it up, exactly as long as no later record has the same id. -/
theorem handle_resolves_iff (h : rt.Reaches σ) {err : Error} {id : TransferId}
    (hi : σ.threads[i]? = some (.done (.submitted err id))) (herr : err.ok = true) :
    ∃ r < σ.world.next, (σ.world.heap r).maker = i ∧ (σ.world.heap r).id = id ∧
      ((∀ x, σ.world.Answers (.find id) x → x = some r) ↔
        ∀ r' < σ.world.next, r < r' → (σ.world.heap r').id ≠ id) := by
  obtain ⟨l, ⟨-, hrecords, -, -⟩, -, hreturned⟩ := h.known
  obtain ⟨hlt, -, hend⟩ := hreturned i _ hi
  obtain ⟨r, hmade⟩ : ∃ r, (l i).made = some (r, id) := by
    cases hend with
    | queued made | failed made => exact ⟨_, made⟩
    | rejected _ _ _ err_bad | dependencyFailed _ _ _ _ _ _ _ _ _ err_bad
    | unknownDependency _ _ _ _ _ _ _ _ _ err_bad =>
        rw [err_bad] at herr
        cases herr
  obtain ⟨hr, hmk, hid⟩ := hrecords.made i hlt r id hmade
  refine ⟨r, hr, hmk, hid, ⟨fun hfind r' hr' hlater hid' => ?_, fun hnone x hx => ?_⟩⟩
  · -- the id leads to the later record or to one after it
    obtain ⟨r'', hge, hto⟩ := hrecords.covered r' hr'
    rw [hid'] at hto
    have hback := hfind _ ⟨{ respond := obliging }, rfl⟩
    rw [hto, Option.some_inj] at hback
    exact absurd (Nat.lt_of_lt_of_le hlater hge) (hback ▸ Nat.lt_irrefl _)
  · obtain ⟨r'', hge, hto⟩ := hrecords.covered r hr
    rw [hid] at hto
    obtain ⟨hr'', hid''⟩ := hrecords.registered id r'' hto
    rw [hx.find, hto]
    rcases Nat.lt_or_eq_of_le hge with hlater | heq
    · exact absurd hid'' (hnone r'' hr'' hlater)
    · rw [heq]

def oneTransfer : List Move := twoRegions 16 ++ Move.whole 2 30 (.submit firstToSecond) 7

theorem oneTransfer_resolves :
    ∃ r < (loopback.play oneTransfer).world.next,
      ((loopback.play oneTransfer).world.heap r).maker = 2 ∧
      ((loopback.play oneTransfer).world.heap r).id = { hi := 0, lo := 7 } ∧
      ∀ x, (loopback.play oneTransfer).world.Answers (.find { hi := 0, lo := 7 }) x →
        x = some r := by
  have hreturned : returned (loopback.play oneTransfer) 2 =
      some (.submitted {} { hi := 0, lo := 7 }) := by decide +kernel
  obtain ⟨r, hr, hmk, hid, hiff⟩ := handle_resolves_iff (loopback.play_reaches oneTransfer)
    (returned_eq hreturned) rfl
  have hnext : (loopback.play oneTransfer).world.next = 1 := by decide +kernel
  refine ⟨r, hr, hmk, hid, hiff.mpr fun r' hr' hlater => ?_⟩
  rw [hnext] at hr'
  exact absurd (Nat.lt_of_lt_of_le hlater (Nat.le_of_lt_succ hr')) (Nat.not_lt_zero r)

def sameIdTwice : List Move :=
  twoRegions 16 ++
    Move.whole 2 30 (.submit { firstToSecond with explicitId := { hi := 0, lo := 9 } }) 0 ++
    Move.whole 3 30 (.submit { firstToSecond with explicitId := { hi := 0, lo := 9 } }) 0

/-- A second submission under the same explicit id takes over the handle of the first. -/
theorem handle_taken_over :
    ∃ (σ : System) (i : Tid) (id : TransferId) (r : Ref), loopback.Reaches σ ∧
      σ.threads[i]? = some (.done (.submitted {} id)) ∧ σ.world.Answers (.find id) (some r) ∧
      (σ.world.heap r).maker ≠ i :=
  ⟨loopback.play sameIdTwice, 2, { hi := 0, lo := 9 }, 1, loopback.play_reaches _,
    returned_eq (by decide +kernel), ⟨fair 0, congrArg some (by decide +kernel)⟩,
    by decide +kernel⟩

/-! Dependencies. -/

theorem past_step (hs : rt.Step σ σ') (j : Tid) :
    ∃ u, σ'.world.past j = σ.world.past j ++ u := by
  cases hs with
  | @act i c next x w' hi he =>
      obtain ⟨-, rfl⟩ := he
      show ∃ u, (σ.world.after i c x).past j = _
      rw [(σ.world.after_changes i c x).past, Function.update_apply]
      split_ifs with hj
      · exact ⟨[⟨c, x⟩], by rw [hj]⟩
      · exact ⟨[], (List.append_nil _).symm⟩
  | start hsp =>
      refine ⟨[], ?_⟩
      cases hsp <;> exact (List.append_nil _).symm

/-- A record keeps its maker and its options for the rest of the run. -/
theorem same_step (h : rt.Reaches σ) (hs : rt.Step σ σ') (hr : r < σ.world.next) :
    (σ.world.heap r).Same (σ'.world.heap r) := by
  obtain ⟨l, hl, ⟨i, c, x, hi, hp, hx, heq⟩ | ⟨heq, -⟩⟩ := h.step_cases hs
  · rw [heq]
    exact hl.records.same hi hp hx hr
  · rw [heq]
    exact ⟨rfl, rfl, rfl⟩

/-- The lookups that the submission of a record has made. -/
def resolved (σ : System) (r : Ref) : List (TransferId × Option Ref) :=
  lookups (σ.world.past (σ.world.heap r).maker)

theorem resolved_run (h : rt.Reaches σ) (hrun : ReflTransGen rt.Step σ σ') (hr : r < σ.world.next)
    {p : TransferId × Option Ref} (hp : p ∈ resolved σ r) :
    r < σ'.world.next ∧ p ∈ resolved σ' r := by
  induction hrun with
  | refl => exact ⟨hr, hp⟩
  | @tail σ₁ σ₂ hrun hstep ih =>
      obtain ⟨hr₁, hp₁⟩ := ih
      have h₁ : rt.Reaches σ₁ := ReflTransGen.trans h hrun
      refine ⟨Nat.lt_of_lt_of_le hr₁ (h₁.next_le hstep), ?_⟩
      obtain ⟨u, hu⟩ := past_step hstep (σ₁.world.heap r).maker
      rw [resolved, (same_step h₁ hstep hr₁).maker, hu, lookups, List.filterMap_append]
      exact List.mem_append_left _ hp₁

/-- The executor has acted for a record, or the record is queued, only after its submission
has seen all its dependencies completed; and they still are. -/
theorem gate_open (h : rt.Reaches σ) (hr : r < σ.world.next)
    (hopen : (σ.world.heap r).state = .queued ∨ (σ.world.heap r).done ≠ []) :
    (resolved σ r).map Prod.fst = (σ.world.heap r).opts.dependencies ∧
      ∀ p ∈ resolved σ r, ∃ d, p.2 = some d ∧ (σ.world.heap d).state = .completed := by
  obtain ⟨l, ⟨hhistory, hrecords, htruth, -⟩, -, -⟩ := h.known
  obtain ⟨hlt, hmade⟩ := hrecords.maker r hr
  have hcleared : (l (σ.world.heap r).maker).Cleared (σ.world.heap r) := by
    refine htruth.gate _ hlt r _ hmade ?_
    rcases hopen with hqueued | hdone
    · exact Or.inr hqueued
    · refine Or.inl (Bool.not_eq_false _ ▸ fun hhanded => ?_)
      exact hdone (hrecords.kept _ hlt r _ hmade hhanded).2
  rw [resolved, ← hhistory.looked _ hlt]
  refine ⟨hcleared.1, fun p hp => ?_⟩
  obtain ⟨d, hd, hseen⟩ := hcleared.2 p hp
  exact ⟨d, hd, (htruth.awaited _ hlt d _ hseen).2.1⟩

/-- No transfer is queued and nothing is done for it unless all its dependencies were found
and are completed; one dependency that is unknown or has ended otherwise keeps the executor
from ever acting for it. -/
theorem dependencies_gate (h : rt.Reaches σ) (hr : r < σ.world.next) :
    ((σ.world.heap r).state = .queued ∨ (∃ task ∈ σ.world.scheduler.tasks, task.ref = r) ∨
        (σ.world.heap r).done ≠ [] →
      (resolved σ r).map Prod.fst = (σ.world.heap r).opts.dependencies ∧
        ∀ p ∈ resolved σ r, ∃ d, p.2 = some d ∧ (σ.world.heap d).state = .completed) ∧
    ((∃ p ∈ resolved σ r, p.2 = none ∨ ∃ d, p.2 = some d ∧
        (σ.world.heap d).state.isTerminal = true ∧ (σ.world.heap d).state ≠ .completed) →
      ∀ σ', ReflTransGen rt.Step σ σ' → (σ'.world.heap r).done = []) := by
  obtain ⟨l, ⟨hhistory, hrecords, htruth, -⟩, -, -⟩ := h.known
  refine ⟨fun hopen => gate_open h hr ?_, ?_⟩
  · rcases hopen with hqueued | ⟨task, htask, rfl⟩ | hdone
    · exact Or.inl hqueued
    · exact Or.inl (hrecords.queued task htask).2.1.queued
    · exact Or.inr hdone
  · rintro ⟨p, hp, hbad⟩ σ' hrun
    obtain ⟨hr', hp'⟩ := resolved_run h hrun hr hp
    by_contra hdone
    obtain ⟨d, hd, hcompleted⟩ := (gate_open (ReflTransGen.trans h hrun) hr' (Or.inr hdone)).2 p hp'
    rcases hbad with hnone | ⟨d', hd', hterm, hne⟩
    · rw [hnone] at hd
      cases hd
    · rw [hd', Option.some_inj] at hd
      subst hd
      -- the dependency has ended, so it is still what it was
      obtain ⟨hlt, hmade⟩ := hrecords.maker r hr
      have hfound : (p.1, some d') ∈ (l (σ.world.heap r).maker).looked := by
        rw [hhistory.looked _ hlt, ← hd']
        exact hp
      have hd := (htruth.found _ hlt _ _ hfound).1
      obtain ⟨-, hstatus⟩ := final_run h hrun hd hterm
      exact hne ((congrArg TransferStatus.state hstatus).symm.trans hcompleted)

/-- The second transfer depends on the first, which has completed. -/
def twoInARow : List Move :=
  oneTransfer ++ .task :: List.replicate 40 (.act 3 (fair 0)) ++
    Move.whole 4 40 (.submit { firstToSecond with dependencies := [{ hi := 0, lo := 7 }] }) 8

theorem twoInARow_gate :
    ((loopback.play twoInARow).world.heap 1).state = .queued ∧
      ∀ p ∈ resolved (loopback.play twoInARow) 1, ∃ d, p.2 = some d ∧
        ((loopback.play twoInARow).world.heap d).state = .completed :=
  have hqueued : ((loopback.play twoInARow).world.heap 1).state = .queued := by decide +kernel
  ⟨hqueued, ((dependencies_gate (loopback.play_reaches twoInARow) (by decide +kernel)).1
    (Or.inl hqueued)).2⟩

/-! Waiting. -/

/-- The record whose end thread `i` waits for. -/
def waitsFor (σ : System) (i : Tid) : Option Ref :=
  match σ.threads[i]? with
  | some (.call (.awaitTerminal r) _) => some r
  | _ => none

/-- Submissions that wait for each other: each waits for a record that is still in the hands
of one of them, since its maker waits as well. -/
structure Deadlocked (σ : System) (S : Set Tid) : Prop where
  nonempty : S.Nonempty
  submits : ∀ i ∈ S, (σ.world.calls[i]?).any Op.isSubmit = true
  waits : ∀ i ∈ S, ∃ r, waitsFor σ i = some r ∧ (σ.world.heap r).settled = false ∧
    (σ.world.heap r).maker ∈ S

/-- If thread `i` is about to look a transfer up, the id leads to no record, or to one that
is older than the record `i` has made. -/
def looksBack (σ : System) (i : Tid) : Bool :=
  match σ.threads[i]? with
  | some (.call (.find d) _) =>
      (σ.world.transfers d).all fun r =>
        (List.range σ.world.next).all fun r₀ => decide ((σ.world.heap r₀).maker = i → r < r₀)
  | _ => true

/-- A step that is not a lookup of a submission's own record or of a younger one. -/
inductive OrderlyStep (rt : Runtime) : System → System → Prop
  | act {σ : System} {i : Tid} {c : RtCall} {next : RtAnswer c → Prog RtSig Result}
      {x : RtAnswer c} {w' : World} (hi : σ.threads[i]? = some (.call c next))
      (he : effect i σ.world c x w') (back : looksBack σ i = true) :
      OrderlyStep rt σ ⟨w', σ.threads.set i (next x)⟩
  | start {σ : System} {prog : Prog RtSig Result} {w' : World} (hs : rt.Starts σ.world prog w') :
      OrderlyStep rt σ ⟨w', σ.threads ++ [prog]⟩

theorem OrderlyStep.step (h : rt.OrderlyStep σ σ') : rt.Step σ σ' := by
  cases h with
  | act hi he back => exact .act hi he
  | start hs => exact .start hs

theorem orderly_reaches (h : ReflTransGen rt.OrderlyStep rt.start σ) : rt.Reaches σ :=
  ReflTransGen.mono (fun _ _ => OrderlyStep.step) _ _ h

/-- What a submission has found is older than the record it has made. -/
def Backward (σ : System) : Prop :=
  ∀ r₀ < σ.world.next, ∀ d r, (d, some r) ∈ resolved σ r₀ → r < r₀

theorem backward_step (h : rt.Reaches σ) (hs : rt.OrderlyStep σ σ') (hb : Backward σ) :
    Backward σ' := by
  obtain ⟨l, ⟨hhistory, hrecords, -, -⟩, hpermits, -⟩ := h.known
  cases hs with
  | @act i c next x w' hi he back =>
      obtain ⟨hlt, hp⟩ := hpermits i c next hi
      obtain ⟨hx, rfl⟩ := he
      have hw := σ.world.after_changes i c x
      have hpast : ∀ j, lookups ((σ.world.after i c x).past j) =
          lookups (σ.world.past j) ++ if j = i then lookups [⟨c, x⟩] else [] := by
        intro j
        rw [hw.past, Function.update_apply]
        split_ifs with hj
        · rw [hj]
          exact List.filterMap_append ..
        · exact (List.append_nil _).symm
      intro r₀ hr₀ d r hmem
      have hmem : (d, some r) ∈ lookups ((σ.world.after i c x).past
          ((σ.world.after i c x).heap r₀).maker) := hmem
      rcases (Records.grows hp hx).2 r₀ hr₀ with hold | ⟨rfl, t, rfl, -, hnew⟩
      · rw [(hrecords.same hlt hp hx hold).maker, hpast] at hmem
        rcases List.mem_append.mp hmem with hmem | hmem
        · exact hb r₀ hold d r hmem
        · -- the lookup of this very step
          split_ifs at hmem with hmk
          · cases mem_lookups_single hmem
            have hfind : σ.world.Answers (.find d) (some r) := hx
            unfold looksBack at back
            rw [hi] at back
            simp only [← hfind.find, Option.all_some, List.all_eq_true, List.mem_range,
              decide_eq_true_eq] at back
            exact back r₀ hold hmk
          · cases hmem
      · -- a new record: its submission has looked nothing up yet
        exfalso
        rw [hnew, hpast, ← hhistory.looked i hlt, hp.2.2.2.1] at hmem
        simp [lookups] at hmem
  | start hs => cases hs <;> exact hb

theorem backward_run (h : ReflTransGen rt.OrderlyStep rt.start σ) : Backward σ := by
  induction h with
  | refl => exact fun r₀ hr₀ => absurd hr₀ (Nat.not_lt_zero r₀)
  | tail hrun hstep ih => exact backward_step (orderly_reaches hrun) hstep ih

/-- If no submission looks up its own record or a younger one, no submissions ever wait for
each other. -/
theorem orderly_never_deadlocked (h : ReflTransGen rt.OrderlyStep rt.start σ) (S : Set Tid) :
    ¬ Deadlocked σ S := by
  intro hdead
  obtain ⟨l, ⟨hhistory, hrecords, htruth, -⟩, hpermits, -⟩ := (orderly_reaches h).known
  have hbackward := backward_run h
  -- a waiting submission has found the record it waits for
  have hfound : ∀ i r, waitsFor σ i = some r → r < σ.world.next ∧
      ∃ d, (d, some r) ∈ lookups (σ.world.past i) := by
    intro i r hwait
    unfold waitsFor at hwait
    split at hwait
    · rename_i r' next hi
      obtain rfl := Option.some.inj hwait
      obtain ⟨hlt, d, hd⟩ := hpermits i _ _ hi
      exact ⟨(htruth.found i hlt d _ hd).1, d, hhistory.looked i hlt ▸ hd⟩
    · cases hwait
  -- from one record waited for to an older one, forever
  have hnone : ∀ r, ∀ i ∈ S, waitsFor σ i = some r → False := by
    intro r
    induction r using Nat.strong_induction_on with
    | _ r ih =>
        intro i hi hwait
        obtain ⟨r₁, hwait₁, -, hmaker⟩ := hdead.waits i hi
        obtain rfl : r₁ = r := Option.some.inj (hwait₁.symm.trans hwait)
        obtain ⟨r₂, hwait₂, -, -⟩ := hdead.waits _ hmaker
        obtain ⟨-, d, hd⟩ := hfound _ r₂ hwait₂
        exact ih r₂ (hbackward r₁ (hfound i r₁ hwait).1 d r₂ hd) _ hmaker hwait₂
  obtain ⟨i, hi⟩ := hdead.nonempty
  obtain ⟨r, hwait, -⟩ := hdead.waits i hi
  exact hnone r i hi hwait

theorem play_orderly {ms : List Move}
    (hms : rt.movesMeet (fun σ i _ => looksBack σ i) rt.start ms = true) :
    ReflTransGen rt.OrderlyStep rt.start (rt.play ms) := by
  refine ReflTransGen.mono (fun σ σ' hs => ?_) _ _ (play_where hms)
  cases hs with
  | act hi he hok => exact .act hi he hok
  | start hs => exact .start hs

theorem twoInARow_never_deadlocked :
    lookups ((loopback.play twoInARow).world.past 4) = [({ hi := 0, lo := 7 }, some 0)] ∧
      ¬ Deadlocked (loopback.play twoInARow) {4} :=
  ⟨by decide +kernel, orderly_never_deadlocked (play_orderly (by decide +kernel)) {4}⟩

def dependsOnItself : List Move :=
  twoRegions 16 ++ Move.whole 2 30 (.submit
    { firstToSecond with
      explicitId := { hi := 0, lo := 9 }, dependencies := [{ hi := 0, lo := 9 }] }) 0

/-- A submission whose explicit id is among its dependencies waits for itself. -/
theorem self_dependency_deadlocks :
    ∃ (σ : System) (S : Set Tid), loopback.Reaches σ ∧ Deadlocked σ S := by
  refine ⟨loopback.play dependsOnItself, {2}, loopback.play_reaches _, ⟨2, rfl⟩, ?_, ?_⟩
  · rintro i rfl
    decide +kernel
  · rintro i rfl
    have hmaker : ((loopback.play dependsOnItself).world.heap 0).maker = 2 := by decide +kernel
    exact ⟨0, by decide +kernel, by decide +kernel, hmaker⟩

end Runtime

end TransferFabric
