import TransferFabric.Runtime.Ledger
import TransferFabric.Runtime.WorkSpecs

/-!
The runtime's threads keep to their views: every state the system reaches comes
with views that couple with the world, whatever is called and however the threads
take turns.
-/

namespace TransferFabric

open Interaction Relation

variable {rt : Runtime} {careful : Prop} {w w' : World} {l : Tid → View} {n i : Nat} {c : RtCall}
  {x : RtAnswer c}

structure Coupled (rt : Runtime) (w : World) (l : Tid → View) (n : Nat) : Prop where
  history : History w l n
  records : Records w l n
  truth : Truth rt w l n
  ledger : Ledger w l n

namespace Coupled

theorem sees (h : Coupled rt w l n) (hi : i < n) (hx : w.Answers c x) : (l i).Sees c x := by
  cases c with
  | load r =>
      intro t hown
      rw [hx.load, (h.records.own i hi r t hown).2]
  | awaitTerminal r => exact hx.awaitTerminal.2
  | _ => trivial

theorem act (h : Coupled rt w l n) (hi : i < n) (hp : (l i).Permits rt careful c)
    (hx : w.Answers c x) : Coupled rt (w.after i c x) (Function.update l i ((l i).after c x)) n :=
  ⟨h.history.act hi, h.records.act hi (h.history.me i hi) hp hx,
    h.truth.act h.records hi hp hx, h.ledger.act hi h.records hp hx⟩

/-- The view of a client's thread when it starts. -/
def clientView (n : Nat) (op : Op) : View := { me := n, op }

/-- The view of a worker's thread when it starts. -/
def workerView (n : Nat) (task : Task) (t : Transfer) : View :=
  { me := n, op := .work task, own := some (task.ref, t), bufs := t.staged }

theorem startCall (h : Coupled rt w l n) (op : Op) (hop : ∀ t, op ≠ .work t) :
    Coupled rt { w with calls := w.calls ++ [op] } (Function.update l n (clientView n op)) (n + 1) := by
  have hv : (clientView n op).New n := ⟨rfl, rfl, rfl, rfl, rfl, rfl, rfl, rfl, rfl⟩
  refine ⟨h.history.start rfl rfl hv, ?_, h.truth.start rfl rfl rfl hv, ?_⟩
  · exact h.records.start [] rfl rfl rfl (List.Perm.refl _) hv fun _ _ hr => by cases hr
  · refine h.ledger.start [] rfl rfl rfl (List.Perm.refl _) hv ?_ fun _ => rfl
    cases op with
    | work t => exact absurd rfl (hop t)
    | _ => rfl

theorem startTask (h : Coupled rt w l n) {task : Task} {queue : Scheduler} {busy : Nat}
    (hpop : w.scheduler.pop = (some task, queue)) :
    Coupled rt { w with scheduler := queue, busy, calls := w.calls ++ [.work task] }
      (Function.update l n (workerView n task (w.heap task.ref))) (n + 1) := by
  have hperm := Scheduler.pop_tasks hpop
  have hv : (workerView n task (w.heap task.ref)).New n := ⟨rfl, rfl, rfl, rfl, rfl, rfl, rfl, rfl, rfl⟩
  refine ⟨h.history.start rfl rfl hv, ?_, h.truth.start rfl rfl rfl hv, ?_⟩
  · refine h.records.start [task] rfl rfl rfl hperm hv fun r t hr => ?_
    obtain ⟨rfl, rfl⟩ := Prod.mk.inj (Option.some.inj hr)
    exact ⟨rfl, rfl, task, List.mem_cons_self, rfl⟩
  · exact h.ledger.start [task] rfl rfl rfl hperm hv rfl fun hclient => by cases hclient

end Coupled

theorem clientView_blank (n : Nat) {op : Op} (hop : ∀ t, op ≠ .work t) :
    (Coupled.clientView n op).Blank where
  made := rfl
  own := rfl
  created := rfl
  handed := rfl
  closed := rfl
  counted := rfl
  client := by
    cases op with
    | work t => exact absurd rfl (hop t)
    | _ => rfl
  looked := rfl
  awaited := rfl
  raised := rfl
  bufs := rfl

namespace Runtime

variable (rt : Runtime)

def discipline : Discipline effect rt.Starts View where
  allowed := View.Permits rt False
  view := View.step
  post := View.Post False
  Coupled := Coupled rt
  act := by
    rintro w _ l n i c x h hi hp ⟨hx, rfl⟩
    exact ⟨_, ⟨h.sees hi hx, rfl⟩, h.act hi hp hx⟩
  start := by
    intro w w' l n prog h hs
    cases hs with
    | call op hop =>
        exact ⟨_, keeps_client (clientView_blank n hop) rfl hop (fun hc => hc.elim), h.startCall op hop⟩
    | @task task queue hdepth hbusy hpop =>
        obtain ⟨-, hready, -⟩ := h.records.queued task
          ((Scheduler.pop_tasks hpop).mem_iff.mpr List.mem_cons_self)
        exact ⟨_, keeps_work rfl hready rfl rfl rfl rfl rfl rfl (fun hc => hc.elim)
          (fun hc => hc.elim), h.startTask hpop⟩

/-- Everything the runtime remembers of its threads. -/
def memory : Memory effect rt.Starts where
  past := World.past
  begun := fun w => w.calls.map rt.program
  act := by
    rintro w _ i c x ⟨-, rfl⟩
    have hw := w.after_changes i c x
    exact ⟨hw.past, by rw [hw.calls]⟩
  start := by
    intro w w' prog hs
    cases hs with
    | call op hop => exact ⟨rfl, by simp⟩
    | task hdepth hbusy hpop => exact ⟨rfl, by simp⟩

theorem initial_coupled (l : Tid → View) : Coupled rt rt.initial l 0 where
  history := ⟨rfl, by simp, by simp, by simp, by simp, by simp, fun _ _ => rfl⟩
  records := ⟨by simp, by simp, by simp, by simp [initial], by simp, by simp, by simp,
    by simp [initial, Scheduler.tasks], List.nodup_nil, by simp [initial], by simp [initial]⟩
  truth := ⟨by simp [initial], by simp, by simp, by simp, by simp [initial]⟩
  ledger := ⟨rfl, fun s => by cases s <;> rfl, fun _ _ => rfl, rfl, rfl, by simp⟩

variable {rt} {σ σ' : System}

theorem Starts.same {w w' : World} {prog : Prog RtSig Result} (hs : rt.Starts w prog w') :
    w'.past = w.past ∧ w'.heap = w.heap ∧ w'.next = w.next ∧ ∃ op, w'.calls = w.calls ++ [op] := by
  cases hs with
  | call op hop => exact ⟨rfl, rfl, rfl, op, rfl⟩
  | @task task queue hdepth hbusy hpop => exact ⟨rfl, rfl, rfl, .work task, rfl⟩

/-- Every state the runtime reaches is explained by what its threads know. -/
theorem Reaches.views (h : rt.Reaches σ) : ∃ l, rt.discipline.Holds σ l :=
  Discipline.sound (p := rt.start)
    ⟨rt.initial_coupled fun i => { me := i, op := .shutdown }, fun _ _ hi => (by cases hi)⟩ h

/-- What the views say about the world, about the calls the threads are at and about those
that have returned. -/
theorem Reaches.known (h : rt.Reaches σ) : ∃ l, Coupled rt σ.world l σ.threads.length ∧
    (∀ i c next, σ.threads[i]? = some (.call c next) →
      i < σ.threads.length ∧ (l i).Permits rt False c) ∧
    ∀ i res, σ.threads[i]? = some (.done res) → i < σ.threads.length ∧ View.Ended res (l i) := by
  obtain ⟨l, hl⟩ := h.views
  exact ⟨l, hl.1, fun i c next hi => ⟨(List.getElem?_eq_some_iff.mp hi).1, hl.allowed hi⟩,
    fun i res hi => ⟨(List.getElem?_eq_some_iff.mp hi).1, (hl.returned hi).1⟩⟩

/-- A step of a reachable system is a permitted call of one of its threads, or a thread
starts and no record changes. -/
theorem Reaches.step_cases (h : rt.Reaches σ) (hs : rt.Step σ σ') :
    ∃ l, Coupled rt σ.world l σ.threads.length ∧
      ((∃ (i : Tid) (c : RtCall) (x : RtAnswer c), i < σ.threads.length ∧
          (l i).Permits rt False c ∧ σ.world.Answers c x ∧ σ'.world = σ.world.after i c x) ∨
        σ'.world.heap = σ.world.heap ∧ σ'.world.next = σ.world.next) := by
  obtain ⟨l, hl, hpermits, -⟩ := h.known
  refine ⟨l, hl, ?_⟩
  cases hs with
  | @act i c next x w' hi he =>
      obtain ⟨hx, rfl⟩ := he
      obtain ⟨hlt, hp⟩ := hpermits i c next hi
      exact Or.inl ⟨i, c, x, hlt, hp, hx, rfl⟩
  | start hsp =>
      obtain ⟨-, hheap, hnext, -⟩ := hsp.same
      exact Or.inr ⟨hheap, hnext⟩

/-- A record stays, or the thread that has it writes to it. -/
theorem Reaches.writes (h : rt.Reaches σ) (hs : rt.Step σ σ') {r : Ref} (hr : r < σ.world.next) :
    σ'.world.heap r = σ.world.heap r ∨
      ∃ m, (σ.world.heap r).Write rt m (σ'.world.heap r) := by
  obtain ⟨l, hl, ⟨i, c, x, hi, hp, hx, heq⟩ | ⟨heq, -⟩⟩ := h.step_cases hs
  · rw [heq]
    exact (hl.records.writes hi hp hx hr).imp_right fun hw => ⟨l i, hw.2⟩
  · rw [heq]
    exact Or.inl rfl

theorem Reaches.next_le (h : rt.Reaches σ) (hs : rt.Step σ σ') :
    σ.world.next ≤ σ'.world.next := by
  obtain ⟨l, hl, ⟨i, c, x, hi, hp, hx, heq⟩ | ⟨-, heq⟩⟩ := h.step_cases hs
  · rw [heq]
    exact (Records.grows hp hx).1
  · rw [heq]

theorem Reaches.tail (h : rt.Reaches σ) (hs : rt.Step σ σ') : rt.Reaches σ' :=
  Relation.ReflTransGen.tail h hs

theorem Reaches.kept (h : rt.Reaches σ) : rt.memory.Kept σ :=
  Memory.Kept.run (p := rt.start) ⟨rfl, fun _ _ hi => (by cases hi), fun _ _ => rfl⟩ h

theorem Reaches.calls_length (h : rt.Reaches σ) : σ.world.calls.length = σ.threads.length :=
  (List.length_map _).symm.trans h.kept.length

/-- A thread is where its call gets by what the thread did. -/
theorem Reaches.follows (h : rt.Reaches σ) {i : Tid} {op : Op} {q : Prog RtSig Result}
    (hop : σ.world.calls[i]? = some op) (hi : σ.threads[i]? = some q) :
    Follows (σ.world.past i) (rt.program op) q := by
  obtain ⟨prog, hprog, hfollows⟩ := h.kept.follows i q hi
  have hbegun : (rt.memory.begun σ.world)[i]? = some (rt.program op) := by
    show (σ.world.calls.map rt.program)[i]? = _
    rw [List.getElem?_map, hop]
    rfl
  obtain rfl := Option.some.inj (hprog.symm.trans hbegun)
  exact hfollows

theorem Reaches.called (h : rt.Reaches σ) {i : Tid} {q : Prog RtSig Result}
    (hi : σ.threads[i]? = some q) : ∃ op, σ.world.calls[i]? = some op := by
  have hlt : i < σ.world.calls.length := by
    rw [h.calls_length]
    exact (List.getElem?_eq_some_iff.mp hi).1
  exact ⟨_, List.getElem?_eq_getElem hlt⟩

theorem Reaches.thread (h : rt.Reaches σ) {i : Tid} {op : Op}
    (hop : σ.world.calls[i]? = some op) : ∃ q, σ.threads[i]? = some q := by
  have hlt : i < σ.threads.length := by
    rw [← h.calls_length]
    exact (List.getElem?_eq_some_iff.mp hop).1
  exact ⟨_, List.getElem?_eq_getElem hlt⟩

end Runtime

end TransferFabric
