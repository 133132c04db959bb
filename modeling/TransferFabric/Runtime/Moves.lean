import TransferFabric.Runtime.Operations
import TransferFabric.Runtime.ExecutorFailure

/-!
Runs of the system that can be computed: a list of moves says who goes next and
what the environment answers. A move that is not possible is skipped, so every
list of moves ends in a reachable state.
-/

namespace TransferFabric

open Interaction Relation

inductive Move where
  | call (op : Op)
  /-- A free worker takes the next task. -/
  | task
  | act (i : Tid) (ch : Chance)

namespace Runtime

variable (rt : Runtime)

def startCall (σ : System) (op : Op) : System :=
  ⟨{ σ.world with calls := σ.world.calls ++ [op] }, σ.threads ++ [rt.program op]⟩

def startTask (σ : System) : System :=
  if 0 < σ.world.scheduler.queueDepth ∧ σ.world.busy < rt.workers then
    match σ.world.scheduler.pop with
    | (some t, queue) =>
        ⟨{ σ.world with
            scheduler := queue, busy := σ.world.busy + 1, calls := σ.world.calls ++ [.work t] },
          σ.threads ++ [rt.program (.work t)]⟩
    | (none, _) => σ
  else σ

/-- The next call of thread `i` is answered, unless it has to wait. -/
def actOne (σ : System) (i : Tid) (ch : Chance) : System :=
  match σ.threads[i]? with
  | some (.call c next) =>
      match σ.world.answer ch c with
      | some x => ⟨σ.world.after i c x, σ.threads.set i (next x)⟩
      | none => σ
  | _ => σ

/-- Thread `i` has a call to make and does not have to wait. -/
def canAct (σ : System) (i : Tid) (ch : Chance) : Bool :=
  match σ.threads[i]? with
  | some (.call c _) => (σ.world.answer ch c).isSome
  | _ => false

theorem actOne_step {σ : System} {i : Tid} {ch : Chance} (h : canAct σ i ch = true) :
    rt.Step σ (actOne σ i ch) := by
  unfold canAct at h
  unfold actOne
  split at h
  · rename_i c next hi
    obtain ⟨x, hx⟩ := Option.isSome_iff_exists.mp h
    simp only [hx]
    exact .act hi ⟨⟨ch, hx⟩, rfl⟩
  · cases h

/-- What thread `i` has returned. -/
def returned (σ : System) (i : Tid) : Option Result :=
  match σ.threads[i]? with
  | some (.done res) => some res
  | _ => none

theorem returned_eq {σ : System} {i : Tid} {res : Result} (h : returned σ i = some res) :
    σ.threads[i]? = some (.done res) := by
  unfold returned at h
  split at h
  · rename_i hi
    rw [hi, Option.some.inj h]
  · cases h

/-- A thread that has returned takes no more steps. -/
theorem returned_step {rt : Runtime} {σ σ' : System} (hs : rt.Step σ σ') {i : Tid} {res : Result}
    (h : returned σ i = some res) : returned σ' i = some res := by
  have hi := returned_eq h
  have hlt : i < σ.threads.length := (List.getElem?_eq_some_iff.mp hi).1
  unfold returned
  cases hs with
  | @act j c next x w' hj he =>
      have hne : j ≠ i := by
        rintro rfl
        rw [hi] at hj
        cases hj
      rw [List.getElem?_set_ne hne, hi]
  | start hs => rw [List.getElem?_append_left hlt, hi]

def move (σ : System) : Move → System
  | .call op => if op.isWork then σ else rt.startCall σ op
  | .task => rt.startTask σ
  | .act i ch => actOne σ i ch

def play (ms : List Move) : System := ms.foldl rt.move rt.start

/-- A move is skipped, or it starts a thread, or it is a step of the thread it names. -/
theorem move_cases (σ : System) (m : Move) :
    rt.move σ m = σ ∨
      (∃ prog w', rt.Starts σ.world prog w' ∧ rt.move σ m = ⟨w', σ.threads ++ [prog]⟩) ∨
      ∃ (i : Tid) (ch : Chance) (c : RtCall) (next : RtAnswer c → Prog RtSig Result)
        (x : RtAnswer c) (w' : World), m = .act i ch ∧ σ.threads[i]? = some (.call c next) ∧
        σ.world.answer ch c = some x ∧ effect i σ.world c x w' ∧
        rt.move σ m = ⟨w', σ.threads.set i (next x)⟩ := by
  cases m with
  | call op =>
      have hmove : rt.move σ (.call op) = if op.isWork then σ else rt.startCall σ op := rfl
      rw [hmove]
      split_ifs with hop
      · exact Or.inl rfl
      · refine Or.inr (Or.inl ⟨_, _, .call σ.world op ?_, rfl⟩)
        rintro t rfl
        exact hop rfl
  | task =>
      have hmove : rt.move σ .task = rt.startTask σ := rfl
      rw [hmove, startTask]
      split_ifs with hfree
      · cases hpop : σ.world.scheduler.pop with
        | mk task queue =>
        cases task with
        | some t => exact Or.inr (Or.inl ⟨_, _, .task σ.world hfree.1 hfree.2 hpop, rfl⟩)
        | none => exact Or.inl rfl
      · exact Or.inl rfl
  | act i ch =>
      have hmove : rt.move σ (.act i ch) = actOne σ i ch := rfl
      rw [hmove, actOne]
      split
      · rename_i c next hi
        cases hx : σ.world.answer ch c with
        | some x => exact Or.inr (Or.inr ⟨i, ch, c, next, x, _, rfl, hi, hx, ⟨⟨ch, hx⟩, rfl⟩, rfl⟩)
        | none => exact Or.inl rfl
      · exact Or.inl rfl

theorem move_reaches (σ : System) (m : Move) : ReflTransGen rt.Step σ (rt.move σ m) := by
  rcases rt.move_cases σ m with
    heq | ⟨prog, w', hs, heq⟩ | ⟨i, ch, c, next, x, w', -, hi, -, he, heq⟩
  · rw [heq]
  · rw [heq]
    exact .single (.start hs)
  · rw [heq]
    exact .single (.act hi he)

theorem moves_run (σ : System) (ms : List Move) :
    ReflTransGen rt.Step σ (ms.foldl rt.move σ) := by
  induction ms generalizing σ with
  | nil => exact .refl
  | cons m ms ih => exact (rt.move_reaches σ m).trans (ih _)

theorem play_reaches (ms : List Move) : rt.Reaches (rt.play ms) := by
  suffices h : ∀ σ, rt.Reaches σ → rt.Reaches (ms.foldl rt.move σ) from h _ .refl
  induction ms with
  | nil => exact fun _ h => h
  | cons m ms ih => exact fun σ h => ih _ (h.trans (rt.move_reaches σ m))

/-! Runs whose calls all meet a condition on the state in which they are made. -/

variable (ok : System → Tid → RtEvent → Bool)

inductive StepWhere : System → System → Prop
  | act {σ : System} {i : Tid} {c : RtCall} {next : RtAnswer c → Prog RtSig Result}
      {x : RtAnswer c} {w' : World} (hi : σ.threads[i]? = some (.call c next))
      (he : effect i σ.world c x w') (hok : ok σ i ⟨c, x⟩ = true) :
      StepWhere σ ⟨w', σ.threads.set i (next x)⟩
  | start {σ : System} {prog : Prog RtSig Result} {w' : World} (hs : rt.Starts σ.world prog w') :
      StepWhere σ ⟨w', σ.threads ++ [prog]⟩

/-- The states reached by calls that all meet the condition. -/
def ReachesWhere (σ : System) : Prop := ReflTransGen (rt.StepWhere ok) rt.start σ

def moveMeets (σ : System) : Move → Bool
  | .act i ch =>
      match σ.threads[i]? with
      | some (.call c _) => (σ.world.answer ch c).all fun x => ok σ i ⟨c, x⟩
      | _ => true
  | _ => true

def movesMeet : System → List Move → Bool
  | _, [] => true
  | σ, m :: ms => moveMeets ok σ m && movesMeet (rt.move σ m) ms

variable {rt ok}

theorem StepWhere.step {σ σ' : System} (h : rt.StepWhere ok σ σ') : rt.Step σ σ' := by
  cases h with
  | act hi he hok => exact .act hi he
  | start hs => exact .start hs

theorem ReachesWhere.reaches {σ : System} (h : rt.ReachesWhere ok σ) : rt.Reaches σ :=
  ReflTransGen.mono (fun _ _ => StepWhere.step) _ _ h

theorem play_where {ms : List Move} (h : rt.movesMeet ok rt.start ms = true) :
    rt.ReachesWhere ok (rt.play ms) := by
  suffices hall : ∀ σ, rt.movesMeet ok σ ms = true →
      ReflTransGen (rt.StepWhere ok) σ (ms.foldl rt.move σ) from hall _ h
  clear h
  induction ms with
  | nil => exact fun _ _ => .refl
  | cons m ms ih =>
      intro σ h
      obtain ⟨hm, hms⟩ := Bool.and_eq_true_iff.mp h
      refine ReflTransGen.trans ?_ (ih _ hms)
      rcases rt.move_cases σ m with
        heq | ⟨prog, w', hs, heq⟩ | ⟨i, ch, c, next, x, w', rfl, hi, hx, he, heq⟩
      · rw [heq]
      · rw [heq]
        exact .single (.start hs)
      · rw [heq]
        unfold moveMeets at hm
        simp only [hi, hx, Option.all_some] at hm
        exact .single (.act hi he hm)

end Runtime

/-! A small runtime for examples: two host regions and the direct route between them. -/

def noFiles : Platform where
  components := fun _ => []
  createFile := fun _ => none
  fileLength := fun _ => 0
  sizeAnswered := fun _ => false
  createSharedMapping := fun _ _ => none
  createFileMapping := fun _ => none
  mapViewOfFile := fun _ _ => none
  deviceCount := 0

def loopbackRoute : Route :=
  { legs := [{ sourceDomain := .hostPageable, destDomain := .hostPageable
               backend := BackendName.host }]
    routeClass := .direct, routeId := "host_pageable-host_pageable:host" }

def loopback : Runtime where
  backends := fun name => if name = BackendName.host then some {} else none
  backendNames := [BackendName.host]
  planner := fun _ => { found := true, best := loopbackRoute, candidates := [loopbackRoute] }
  os := noFiles

/-- Every call succeeds; the generated id is given. -/
def fair (id : UInt64) : Chance := { generated := { hi := 0, lo := id }, respond := obliging }

/-- A client makes a call and runs it as far as it gets within `k` steps. -/
def Move.whole (i : Tid) (k : Nat) (op : Op) (id : UInt64) : List Move :=
  .call op :: List.replicate k (.act i (fair id))

/-- Threads 0 and 1 register two host regions of `size` bytes. -/
def twoRegions (size : ByteCount) : List Move :=
  Move.whole 0 2 (.registerEndpoint (.hostMemory 0x10000 size)) 0 ++
    Move.whole 1 2 (.registerEndpoint (.hostMemory 0x20000 size)) 0

def firstToSecond : TransferOptions :=
  { source := { slot := 1, generation := 1 }, destination := { slot := 2, generation := 1 } }

end TransferFabric
