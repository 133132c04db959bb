import TransferFabric.Runtime.Holdings
import TransferFabric.Runtime.Moves

/-!
Exclusive ownership of staging buffers. What the threads hold couples with the
memory of the pools: no block is held twice or both held and free, and a record
that nobody serves any more holds nothing.

This is so only in runs where no worker starts a transfer that the executor gives
rings to: the executor returns the buffers of its rings and leaves them listed in
the record, and the end of the transfer returns them once more. Shutting down,
which frees what is on the free lists, is not part of these runs.
-/

namespace TransferFabric

open Interaction Relation Spans

variable {rt : Runtime} {w w' : World} {l : Tid → View} {n i : Nat} {c : RtCall}
  {x : RtAnswer c} {v : View} {r : Ref}

structure Buffers (w : World) (l : Tid → View) (n : Nat) : Prop extends Holdings w l n where
  /-- A worker has the record of its task. -/
  whose : ∀ i < n, ∀ r t, (l i).own = some (r, t) →
    (l i).op.isWork = false ∨ ∃ p, (l i).op = .work ⟨r, p⟩
  custody : w.Custody

namespace Buffers

theorem whose_act (h : Buffers w l n) (hi : i < n) (hp : (l i).Permits rt True c) :
    ∀ j < n, ∀ r t, (Function.update l i ((l i).after c x) j).own = some (r, t) →
      (Function.update l i ((l i).after c x) j).op.isWork = false ∨
        ∃ p, (Function.update l i ((l i).after c x) j).op = .work ⟨r, p⟩ := by
  have hm := (l i).after_changes c x
  refine forall_update (P := fun j (m : View) => ∀ r t, m.own = some (r, t) →
    m.op.isWork = false ∨ ∃ p, m.op = .work ⟨r, p⟩) (fun r t hr => ?_) fun j hj _ => h.whose j hj
  rw [hm.op]
  by_cases hinsert : ∃ t, c = .insert t
  · obtain ⟨t, rfl⟩ := hinsert
    exact Or.inl hp.1.client
  by_cases hschedule : ∃ task, c = .schedule task
  · obtain ⟨task, rfl⟩ := hschedule
    obtain ⟨t, -, -, -, -, -, hclient, -⟩ := hp
    exact Or.inl hclient
  obtain ⟨t', hr', -⟩ := hm.own_back (not_exists.mp hinsert) (not_exists.mp hschedule) hr
  exact h.whose i hi r t' hr'

theorem custody_act (h : Buffers w l n) (hi : i < n) (hp : (l i).Permits rt True c) {ch : Chance}
    (hx : w.answer ch c = some x) (hsound : w.AllocatorSound ch c) :
    (w.after i c x).Custody := by
  have hafter := w.after_staging i c x
  by_cases hstages : c.stages = false
  · exact (h.custody.same (World.share_staging hstages x)).same hafter
  cases c with
  | allocate r k bytes =>
      cases x with
      | none => exact h.custody.same hafter
      | some b => exact (h.custody.allocate (Option.some.inj hx) hsound).same hafter
  | release r k b =>
      obtain ⟨⟨t, hown⟩, hmem⟩ := hp
      refine (h.custody.giveBack ?_).same hafter
      by_cases hb : b.null
      · exact Or.inl hb
      · exact Or.inr (World.mem_held_of_heldBy
          ((h.mine i hi r t hown).mem_iff.mp (hmem trivial hb)))
  | drain k => exact absurd trivial hp
  | exec r ec =>
      cases ec with
      | release k b =>
          obtain ⟨t, -, -, -, hnever⟩ := hp
          exact absurd rfl (hnever trivial k b)
      | _ => exact absurd rfl hstages
  | _ => exact absurd rfl hstages

theorem act (h : Buffers w l n) (hrec : Records w l n) (hi : i < n)
    (hp : (l i).Permits rt True c) {ch : Chance} (hx : w.answer ch c = some x)
    (hsound : w.AllocatorSound ch c) :
    Buffers (w.after i c x) (Function.update l i ((l i).after c x)) n :=
  ⟨h.toHoldings.act hrec hi hp (fun _ _ => trivial) ⟨ch, hx⟩, h.whose_act hi hp,
    h.custody_act hi hp hx hsound⟩

theorem startCall (h : Buffers w l n) (op : Op) :
    Buffers { w with calls := w.calls ++ [op] }
      (Function.update l n (Coupled.clientView n op)) (n + 1) :=
  ⟨h.toHoldings.startCall op,
    forall_start (P := fun _ (m : View) => ∀ r t, m.own = some (r, t) →
      m.op.isWork = false ∨ ∃ p, m.op = .work ⟨r, p⟩) (fun _ _ hr => by cases hr) h.whose,
    h.custody.same ⟨rfl, rfl, rfl, rfl, rfl⟩⟩

theorem startTask (h : Buffers w l n) {task : Task} {queue : Scheduler} {busy : Nat}
    (hpop : w.scheduler.pop = (some task, queue)) :
    Buffers { w with scheduler := queue, busy, calls := w.calls ++ [.work task] }
      (Function.update l n (Coupled.workerView n task (w.heap task.ref))) (n + 1) := by
  refine ⟨h.toHoldings.startTask hpop, ?_, h.custody.same ⟨rfl, rfl, rfl, rfl, rfl⟩⟩
  refine forall_start (P := fun _ (m : View) => ∀ r t, m.own = some (r, t) →
    m.op.isWork = false ∨ ∃ p, m.op = .work ⟨r, p⟩) (fun r t hr => ?_) h.whose
  obtain ⟨rfl, -⟩ := Prod.mk.inj (Option.some.inj hr)
  exact Or.inr ⟨task.priority, rfl⟩

end Buffers

/-! Runs without shutdown in which the allocator keeps its promise. -/

/-- One atomic step of a thread, when the allocator behaves. -/
def soundEffect (i : Tid) : Effect RtSig World := fun w c x w' =>
  (∃ ch, w.answer ch c = some x ∧ w.AllocatorSound ch c) ∧ w' = w.after i c x

namespace Runtime

variable (rt : Runtime) (ok : Transfer → Prop)

/-- How threads start while the runtime is in use; a worker starts `ok` transfers only. -/
inductive UseStarts : World → Prog RtSig Result → World → Prop
  | call (w : World) (op : Op) (hop : ∀ t, op ≠ .work t) (hopen : op ≠ .shutdown) :
      UseStarts w (rt.program op) { w with calls := w.calls ++ [op] }
  | task (w : World) {t : Task} {queue : Scheduler} (hdepth : 0 < w.scheduler.queueDepth)
      (hbusy : w.busy < rt.workers) (hpop : w.scheduler.pop = (some t, queue))
      (hok : ok (w.heap t.ref)) :
      UseStarts w (rt.program (.work t))
        { w with scheduler := queue, busy := w.busy + 1, calls := w.calls ++ [.work t] }

def UseStep : System → System → Prop := Pool.Step soundEffect (rt.UseStarts ok)

/-- The states of a runtime in use. -/
def InUse (σ : System) : Prop := ReflTransGen (rt.UseStep ok) rt.start σ

/-- The executor gives no rings to the transfer. -/
def ringless (t : Transfer) : Prop := (rt.context t.body).Ringless

def careful : Discipline soundEffect (rt.UseStarts rt.ringless) View where
  allowed := View.Permits rt True
  view := View.step
  post := View.Post True
  Coupled := fun w l n => Coupled rt w l n ∧ Buffers w l n
  act := by
    rintro w _ l n i c x ⟨h, hbufs⟩ hi hp ⟨⟨ch, hx, hsound⟩, rfl⟩
    exact ⟨_, ⟨h.sees hi ⟨ch, hx⟩, rfl⟩, h.act hi hp ⟨ch, hx⟩,
      hbufs.act h.records hi hp hx hsound⟩
  start := by
    rintro w w' l n prog ⟨h, hbufs⟩ hs
    cases hs with
    | call op hop hopen =>
        exact ⟨_, keeps_client (clientView_blank n hop) rfl hop (fun _ => hopen),
          h.startCall op hop, hbufs.startCall op⟩
    | @task task queue hdepth hbusy hpop hok =>
        obtain ⟨-, hready, -⟩ := h.records.queued task
          ((Scheduler.pop_tasks hpop).mem_iff.mpr List.mem_cons_self)
        exact ⟨_, keeps_work rfl hready rfl rfl rfl rfl rfl rfl (fun _ => List.Perm.refl _)
          (fun _ => hok), h.startTask hpop, hbufs.startTask hpop⟩

theorem initial_buffers (l : Tid → View) : Buffers rt.initial l 0 where
  toHoldings := Holdings.initial rt l
  whose := by simp
  custody := by
    refine ⟨List.Pairwise.nil, by simp [World.blocks, World.freeBlocks, initial],
      by simp [World.blocks, World.freeBlocks, initial], List.Perm.nil, fun k => ?_⟩
    cases k <;> rfl

end Runtime

/-- Thread `i` is still at work on a record: it is the submission that made it, or the worker
that runs it. -/
def Serves (σ : Runtime.System) (i : Tid) (r : Ref) : Prop :=
  (∃ c next, σ.threads[i]? = some (.call c next)) ∧
    ((∃ opts, σ.world.calls[i]? = some (.submit opts) ∧ (σ.world.heap r).maker = i) ∨
      ∃ p, σ.world.calls[i]? = some (.work ⟨r, p⟩))

/-- Staging buffers have one owner each. -/
structure ExclusiveStaging (σ : Runtime.System) : Prop where
  nonempty : ∀ s ∈ σ.world.blocks, s.size ≠ 0
  /-- No memory is held twice, by two transfers or by one. -/
  heldOnce : (σ.world.held.map Hold.span).Pairwise Span.Apart
  heldNotFree : ∀ h ∈ σ.world.held, ∀ s ∈ σ.world.freeBlocks, h.span.Apart s
  freeOnce : σ.world.freeBlocks.Pairwise Span.Apart
  /-- What was obtained is still held, or was given back once. -/
  givenBackOnce : σ.world.obtained.Perm (σ.world.held ++ σ.world.returned)
  /-- A transfer that is neither queued nor served any more has given back everything. -/
  heldInService : ∀ h ∈ σ.world.held,
    (∃ task ∈ σ.world.scheduler.tasks, task.ref = h.ref) ∨ ∃ i, Serves σ i h.ref
  usage : ∀ k, (σ.world.pool k).usage.toNat = total ((σ.world.heldIn k).map Hold.span)

/-- Staging buffers have one owner each in every state of a runtime in use whose workers
only start transfers without rings. -/
theorem staging_exclusive (rt : Runtime) {σ : Runtime.System} (h : rt.InUse rt.ringless σ) :
    ExclusiveStaging σ := by
  obtain ⟨l, hl⟩ := Discipline.sound (d := rt.careful) (p := rt.start)
    ⟨⟨rt.initial_coupled fun i => { me := i, op := .shutdown },
      rt.initial_buffers fun i => { me := i, op := .shutdown }⟩, fun _ _ hi => (by cases hi)⟩ h
  obtain ⟨hcoupled, hbufs⟩ := hl.1
  obtain ⟨hheld, hfree, hacross⟩ := List.pairwise_append.mp hbufs.custody.apart
  refine ⟨fun s hs => (hbufs.custody.real s hs).1, hheld, ?_, hfree, hbufs.custody.ledger, ?_,
    hbufs.custody.usage⟩
  · exact fun hd hmem s hs => hacross _ (List.mem_map_of_mem hmem) s hs
  intro hd hmem
  rcases hbufs.owned hd hmem with ⟨i, hi, t, hown⟩ | hqueued
  · refine Or.inr ⟨i, ?_, ?_⟩
    · -- a thread that has returned holds nothing
      obtain ⟨prog, hprog⟩ : ∃ prog, σ.threads[i]? = some prog :=
        ⟨_, List.getElem?_eq_getElem hi⟩
      cases prog with
      | call c next => exact ⟨c, next, hprog⟩
      | done res =>
          have hempty := (hl.returned hprog).2 trivial _ hown
          have hmine := hbufs.mine i hi hd.ref t hown
          rw [hempty] at hmine
          have := hmine.symm.subset (World.mem_heldBy hmem)
          cases this
    · rw [hcoupled.history.op i hi]
      rcases hbufs.whose i hi hd.ref t hown with hclient | ⟨p, hop⟩
      · obtain ⟨id, hmade⟩ := hcoupled.records.hand i hi hclient hd.ref t hown
        exact Or.inl ⟨_, congrArg some (hcoupled.records.submitted i hi hd.ref id hmade),
          (hcoupled.records.made i hi hd.ref id hmade).2.1⟩
      · exact Or.inr ⟨p, congrArg some hop⟩
  · exact Or.inl hqueued

/-! Runs that can be computed. -/

instance (s : Span) : Decidable (Real s) :=
  inferInstanceAs (Decidable (s.size ≠ 0 ∧ 1 ≤ s.start ∧ s.start + s.size ≤ 2 ^ 64))

/-- The answer is looked at; an address is not searched for. -/
instance {P : Address → Prop} [DecidablePred P] (answer : Option Address) :
    Decidable (∀ a, answer = some a → P a) :=
  match answer with
  | none => isTrue (by simp)
  | some b => decidable_of_iff (P b) (by simp)

instance (w : World) (ch : Chance) (c : RtCall) : Decidable (w.AllocatorSound ch c) := by
  cases c with
  | allocate r k bytes =>
      exact inferInstanceAs (Decidable (bytes ≠ 0 → ∀ a, World.allocation ch = some a →
        Real ⟨a.toNat, bytes.toNat⟩ ∧
          ∀ h ∈ w.obtained, Span.Apart ⟨a.toNat, bytes.toNat⟩ h.span))
  | _ => exact inferInstanceAs (Decidable True)

namespace Runtime

variable (rt : Runtime) (ok : Transfer → Prop) [DecidablePred ok]

instance (ctx : RunContext) : Decidable ctx.Ringless :=
  inferInstanceAs (Decidable (ctx.nlegs ≤ 1 ∨ ctx.plan.chunkCount = 0 ∨
    ctx.backends ctx.lastLeg.backend = none))

instance : DecidablePred rt.ringless := fun t =>
  inferInstanceAs (Decidable (rt.context t.body).Ringless)

/-- A move of a runtime in use. -/
def useMove (σ : System) : Move → Bool
  | .call .shutdown => false
  | .call _ => true
  | .task => σ.world.scheduler.pop.1.all fun t => ok (σ.world.heap t.ref)
  | .act i ch =>
      match σ.threads[i]? with
      | some (.call c _) => σ.world.AllocatorSound ch c
      | _ => true

def useMoves : System → List Move → Bool
  | _, [] => true
  | σ, m :: ms => useMove ok σ m && useMoves (rt.move σ m) ms

theorem useMove_runs {σ : System} {m : Move} (h : useMove ok σ m = true) :
    ReflTransGen (rt.UseStep ok) σ (rt.move σ m) := by
  cases m with
  | call op =>
      have hmove : rt.move σ (.call op) = if op.isWork then σ else rt.startCall σ op := rfl
      rw [hmove]
      split_ifs with hop
      · exact .refl
      · refine .single (.start (.call σ.world op ?_ ?_))
        · rintro t rfl
          exact hop rfl
        · rintro rfl
          cases h
  | task =>
      have hmove : rt.move σ .task = rt.startTask σ := rfl
      have hok : σ.world.scheduler.pop.1.all fun t => decide (ok (σ.world.heap t.ref)) := h
      rw [hmove, startTask]
      split_ifs with hfree
      · cases hpop : σ.world.scheduler.pop with
        | mk task queue =>
        cases task with
        | some t =>
            rw [hpop] at hok
            exact .single (.start (.task σ.world hfree.1 hfree.2 hpop (by simpa using hok)))
        | none => exact .refl
      · exact .refl
  | act i ch =>
      have hmove : rt.move σ (.act i ch) = actOne σ i ch := rfl
      rw [hmove, actOne]
      unfold useMove at h
      split
      · rename_i c next hi
        simp only [hi, decide_eq_true_eq] at h
        cases hx : σ.world.answer ch c with
        | some x => exact .single (.act hi ⟨⟨ch, hx, h⟩, rfl⟩)
        | none => exact .refl
      · exact .refl

theorem useMoves_runs {ms : List Move} (h : rt.useMoves ok rt.start ms = true) :
    rt.InUse ok (rt.play ms) := by
  suffices hall : ∀ σ, rt.useMoves ok σ ms = true →
      ReflTransGen (rt.UseStep ok) σ (ms.foldl rt.move σ) from hall _ h
  clear h
  induction ms with
  | nil => exact fun _ _ => .refl
  | cons m ms ih =>
      intro σ h
      obtain ⟨hm, hms⟩ := Bool.and_eq_true_iff.mp h
      exact (rt.useMove_runs ok hm).trans (ih _ hms)

end Runtime

/-! A runtime that stages: a file is copied to shared memory through host memory. -/

def oneFile : Platform where
  components := fun path => [path]
  createFile := fun _ => some 5
  fileLength := fun _ => 4096
  sizeAnswered := fun _ => true
  createSharedMapping := fun _ _ => some 7
  createFileMapping := fun _ => none
  mapViewOfFile := fun _ _ => some 0x20000
  deviceCount := 0

def stagedRoute : Route :=
  { legs := [{ sourceDomain := .storage, destDomain := .hostPageable, backend := BackendName.file },
             { sourceDomain := .hostPageable, destDomain := .shared, backend := BackendName.shm }]
    routeClass := .staged, routeId := "storage-host_pageable:file|host_pageable-shared:shared_memory" }

def fileToShared : Runtime where
  backends := fun name => if name = BackendName.file ∨ name = BackendName.shm then some {} else none
  backendNames := [BackendName.file, BackendName.shm]
  planner := fun _ => { found := true, best := stagedRoute, candidates := [stagedRoute] }
  os := oneFile

/-- Every call succeeds, and the allocator gives the block at `a` if it is asked. -/
def fairAt (a : Address) : Chance := { fair 1 with allocated := some a }

/-- A transfer is submitted and queued, with two buffers from the host pool. -/
def stagedSubmit : List Move :=
  Move.whole 0 2 (.registerEndpoint (.fileRegion "data" 0 4096)) 0 ++
    Move.whole 1 2 (.registerEndpoint (.sharedRegion "shm" 0 4096)) 0 ++
    .call (.submit firstToSecond) :: List.replicate 12 (.act 2 (fairAt 0x30000)) ++
    List.replicate 20 (.act 2 (fairAt 0x40000))

theorem stagedSubmit_exclusive :
    fileToShared.useMoves fileToShared.ringless fileToShared.start stagedSubmit = true ∧
      (fileToShared.play stagedSubmit).world.held.length = 2 ∧
      ExclusiveStaging (fileToShared.play stagedSubmit) := by
  have huse : fileToShared.useMoves fileToShared.ringless fileToShared.start stagedSubmit = true := by
    decide +kernel
  exact ⟨huse, by decide +kernel,
    staging_exclusive fileToShared (fileToShared.useMoves_runs fileToShared.ringless huse)⟩

/-- The transfer runs and ends: the executor gives back the two buffers of its ring, and the
end of the transfer gives them back again. -/
theorem rings_given_back_twice :
    ∃ σ, fileToShared.InUse (fun _ => True) σ ∧
      σ.world.hostPool.freeList =
        [(65536, 0x30000), (65536, 0x40000), (65536, 0x30000), (65536, 0x40000)] ∧
      ¬ ExclusiveStaging σ := by
  refine ⟨fileToShared.play (stagedSubmit ++ .task :: List.replicate 60 (.act 3 (fair 1))),
    fileToShared.useMoves_runs _ (by decide +kernel), by decide +kernel, fun h => ?_⟩
  refine absurd h.givenBackOnce.length_eq ?_
  decide +kernel

end TransferFabric
