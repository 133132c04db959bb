import TransferFabric.Runtime.Discipline
import TransferFabric.Runtime.Repertoire

/-!
The milestones of a transfer in the traces of the threads that serve it. What a
submission and a worker show of themselves is one of a few short scripts, however
their calls are answered; every other call shows nothing. Together with who made
a record and who was given it, the scripts say what can happen to a transfer and
in which order.
-/

namespace TransferFabric

open Interaction

/-- The record a worker was given. -/
def Op.workRef : Op → Option Ref
  | .work task => some task.ref
  | _ => none

/-- Nothing has been started or verified for the record. -/
def Transfer.clean (t : Transfer) : Bool := !t.started && t.status.bytesVerified = 0

inductive Mark where
  /-- The thread made the record. -/
  | made (r : Ref) (clean : Bool)
  | pushed
  /-- The scheduler was asked to take the record. -/
  | offered (r : Ref) (taken : Bool)
  | popped
  | stored (r : Ref)
  | begun
  | exchanged (r : Ref) (was : Bool)
  | ended
  deriving DecidableEq

def mark : RtEvent → Option Mark
  | ⟨.insert t, r⟩ => some (.made r t.clean)
  | ⟨.schedule t, taken⟩ => some (.offered t.ref taken)
  | ⟨.storeStarted r, _⟩ => some (.stored r)
  | ⟨.exchangeStarted r, was⟩ => some (.exchanged r was)
  | ⟨.count .queuePushed, _⟩ => some .pushed
  | ⟨.count .queuePopped, _⟩ => some .popped
  | ⟨.count .transferStarted, _⟩ => some .begun
  | ⟨.count .transferDone, _⟩ => some .ended
  | _ => none

/-- What the end of a transfer shows. -/
def ending (r : Ref) (was : Bool) : List Mark :=
  .exchanged r was :: if was then [.ended] else []

/-- The scripts of a call. -/
def Script : Op → List Mark → Prop
  | .submit _, l => l = [] ∨ ∃ r, l = [.made r true] ∨
      l = [.made r true, .pushed, .offered r true] ∨
      ∃ was, l = .made r true :: ending r was ∨
        l = [.made r true, .pushed, .offered r false, .popped] ++ ending r was
  | .work task, l => ∃ was, l = [.stored task.ref, .begun, .popped] ++ ending task.ref was
  | _, l => l = []

variable {rt : Runtime} {r : Ref} {m : List Mark}

/-! Calls that show no milestone. -/

theorem quiet_ask {c : RtCall} (hc : ∀ x, mark ⟨c, x⟩ = none) : Quiet mark (ask c) :=
  quiet_request hc

theorem prepares_unmarked {c : RtCall} (hc : c.prepares r = true) (x : RtAnswer c) :
    mark ⟨c, x⟩ = none := by
  cases c with
  | count op => cases op <;> first | rfl | cases hc
  | _ => first | rfl | cases hc

theorem awaits_unmarked {c : RtCall} (hc : c.awaits r = true) (x : RtAnswer c) :
    mark ⟨c, x⟩ = none := by
  cases c with
  | _ => first | rfl | cases hc

theorem aside_unmarked {op : Op} (hsubmit : op.isSubmit = false) (hwork : op.isWork = false)
    {c : RtCall} (hc : op.may c = true) (x : RtAnswer c) : mark ⟨c, x⟩ = none := by
  cases op with
  | submit opts => cases hsubmit
  | work task => cases hwork
  | _ => cases c <;> first | rfl | cases hc

theorem outcomeOps_unmarked (t : Transfer) (e : Error) :
    ∀ op ∈ t.outcomeOps e, ∀ x, mark ⟨.count op, x⟩ = none := by
  unfold Transfer.outcomeOps
  dsimp only
  split_ifs <;> simp only [List.forall_mem_append, List.forall_mem_cons, List.forall_mem_map] <;>
    simp [mark]
  split <;> simp

/-! The programs, one by one. -/

theorem notes_finalize (e : Error) :
    Notes mark (finalize r e) (fun _ m' => ∃ was, m' = m ++ ending r was) m := by
  refine (quiet_ask fun _ => rfl).bind_notes fun _ => notes_request_bind _ fun was => ?_
  have hrest : ∀ m', Notes mark (do
      let t : Transfer ← ask (.load r)
      countAll (t.outcomeOps e)
      releaseStaging r) (fun _ m'' => m'' = m') m' :=
    quiet_bind (quiet_ask fun _ => rfl) fun t =>
      quiet_bind ((calls_countAll (outcomeOps_unmarked t e)).quiet fun _ hc => hc) fun _ =>
        calls_releaseStaging.quiet fun _ => prepares_unmarked
  cases was with
  | false => exact (hrest _).mono fun _ _ hm => ⟨false, hm⟩
  | true =>
      refine notes_request_bind _ fun _ => (hrest _).mono fun _ _ hm => ⟨true, ?_⟩
      rw [hm]
      simp [mark, ending]

theorem notes_queueTransfer (depth : Nat) :
    Notes mark (queueTransfer depth r) (fun _ m' => m' = m ++ [.pushed, .offered r true] ∨
      ∃ was, m' = m ++ ending r was ∨
        m' = m ++ [.pushed, .offered r false, .popped] ++ ending r was) m := by
  refine ((calls_reserveStaging depth).quiet fun _ => prepares_unmarked).bind_notes
    fun reserve => ?_
  split_ifs
  · refine (quiet_ask fun _ => rfl).bind_notes fun _ => (quiet_ask fun _ => rfl).bind_notes fun _ =>
      (quiet_ask fun _ => rfl).bind_notes fun _ => notes_request_bind _ fun _ =>
      (quiet_ask fun _ => rfl).bind_notes fun t => notes_request_bind _ fun accepted => ?_
    cases accepted with
    | true => exact notes_pure (Or.inl (by simp [mark]))
    | false =>
        refine notes_request_bind _ fun _ => (notes_finalize _).mono fun _ _ hm => ?_
        obtain ⟨was, hm⟩ := hm
        exact Or.inr ⟨was, Or.inr (by simp [hm, mark])⟩
  · exact (notes_finalize _).mono fun _ _ hmarks => Or.inr (hmarks.imp fun _ => Or.inl)

theorem notes_admitAs (opts : TransferOptions) (id : TransferId) (bytes : ByteCount)
    (body : TransferRecord) :
    Notes mark (rt.admitAs opts id bytes body) (fun _ => Script (.submit opts)) [] := by
  refine notes_request_bind _ fun r => (quiet_ask fun _ => rfl).bind_notes fun _ =>
    (quiet_ask fun _ => rfl).bind_notes fun _ => (quiet_ask fun _ => rfl).bind_notes fun _ =>
    (quiet_ask fun _ => rfl).bind_notes fun _ =>
    ((calls_awaitDependencies _).quiet fun _ => awaits_unmarked).bind_notes fun err => ?_
  dsimp only
  split_ifs
  · refine notes_bind ((notes_queueTransfer _).mono fun _ m hm => notes_pure (Or.inr ⟨r, ?_⟩))
    rcases hm with rfl | ⟨was, rfl | rfl⟩
    · exact Or.inr (Or.inl rfl)
    · exact Or.inr (Or.inr ⟨was, Or.inl rfl⟩)
    · exact Or.inr (Or.inr ⟨was, Or.inr rfl⟩)
  · exact notes_pure (Or.inr ⟨r, Or.inl rfl⟩)

theorem notes_submit (opts : TransferOptions) :
    Notes mark (rt.submit opts) (fun _ => Script (.submit opts)) [] := by
  have hnothing : ∀ res : Result, Notes mark (pure res) (fun _ => Script (.submit opts)) [] :=
    fun _ => notes_pure (Or.inl rfl)
  refine (quiet_ask fun _ => rfl).bind_notes fun down => ?_
  cases down with
  | true => exact hnothing _
  | false =>
  by_cases hvalid : ¬ opts.source.valid = true ∨ ¬ opts.destination.valid = true
  · simp only [if_pos hvalid]
    exact hnothing _
  simp only [if_neg hvalid]
  refine (quiet_ask fun _ => rfl).bind_notes fun se => (quiet_ask fun _ => rfl).bind_notes fun de => ?_
  cases se with
  | none => exact hnothing _
  | some se =>
  cases de with
  | none => exact hnothing _
  | some de =>
  dsimp only
  cases rt.planTransfer opts se de with
  | error e => exact hnothing _
  | ok p =>
      dsimp only
      split_ifs
      · exact notes_admitAs ..
      · exact (quiet_ask fun _ => rfl).bind_notes fun id => notes_admitAs ..

theorem notes_work (task : Task) :
    Notes mark (rt.work task) (fun _ => Script (.work task)) [] := by
  refine notes_bind ((quiet_ask fun _ => rfl).bind_notes fun _ => notes_request_bind _ fun _ =>
    notes_request_bind _ fun _ => notes_request_bind _ fun _ =>
    (quiet_ask fun _ => rfl).bind_notes fun t => ?_)
  have hexec : Quiet mark ((rt.context t.body).runTransfer.embed (execHom task.ref)) :=
    (calls_embed (calls_all (fun _ _ => rfl) _)).quiet fun _ hc => hc
  refine hexec.bind_notes fun e => (notes_finalize e).mono fun _ m hm => ?_
  obtain ⟨was, rfl⟩ := hm
  exact (quiet_ask fun _ => rfl).bind_notes fun _ => notes_pure ⟨was, rfl⟩

theorem notes_program (op : Op) : Notes mark (rt.program op) (fun _ => Script op) [] := by
  cases op with
  | submit opts => exact notes_submit opts
  | work task => exact notes_work task
  | _ => exact ((calls_program _).quiet fun _ => aside_unmarked rfl rfl).notes fun _ => rfl

/-! What comes before a milestone. -/

/-- A thread that has shown the list may show the mark next. -/
inductive Next : Op → List Mark → Mark → Prop
  | made {opts : TransferOptions} {r : Ref} : Next (.submit opts) [] (.made r true)
  | pushed {opts : TransferOptions} {r : Ref} : Next (.submit opts) [.made r true] .pushed
  | offered {opts : TransferOptions} {r : Ref} {taken : Bool} :
      Next (.submit opts) [.made r true, .pushed] (.offered r taken)
  | unqueued {opts : TransferOptions} {r : Ref} :
      Next (.submit opts) [.made r true, .pushed, .offered r false] .popped
  /-- The reservation failed. -/
  | abandoned {opts : TransferOptions} {r : Ref} {was : Bool} :
      Next (.submit opts) [.made r true] (.exchanged r was)
  | abandonedEnd {opts : TransferOptions} {r : Ref} :
      Next (.submit opts) [.made r true, .exchanged r true] .ended
  /-- The scheduler refused the record. -/
  | refused {opts : TransferOptions} {r : Ref} {was : Bool} :
      Next (.submit opts) [.made r true, .pushed, .offered r false, .popped] (.exchanged r was)
  | refusedEnd {opts : TransferOptions} {r : Ref} :
      Next (.submit opts)
        [.made r true, .pushed, .offered r false, .popped, .exchanged r true] .ended
  | stored {task : Task} : Next (.work task) [] (.stored task.ref)
  | begun {task : Task} : Next (.work task) [.stored task.ref] .begun
  | popped {task : Task} : Next (.work task) [.stored task.ref, .begun] .popped
  | exchanged {task : Task} {was : Bool} :
      Next (.work task) [.stored task.ref, .begun, .popped] (.exchanged task.ref was)
  | ended {task : Task} :
      Next (.work task) [.stored task.ref, .begun, .popped, .exchanged task.ref true] .ended

section Before

variable {op : Op} {l : List Mark}

theorem Next.made_inv {b : Bool} (h : Next op l (.made r b)) : l = [] ∧ b = true := by
  cases h
  exact ⟨rfl, rfl⟩

theorem Next.offered_inv {taken : Bool} (h : Next op l (.offered r taken)) :
    l = [.made r true, .pushed] := by
  cases h
  rfl

theorem Next.pushed_inv (h : Next op l .pushed) :
    ∃ r, op.workRef = none ∧ l = [.made r true] := by
  cases h
  exact ⟨_, rfl, rfl⟩

/-- A submission takes its record back after the scheduler refused it. -/
theorem Next.popped_inv (h : Next op l .popped) :
    (∃ r, op.workRef = none ∧ l = [.made r true, .pushed, .offered r false]) ∨
      ∃ r, op.workRef = some r ∧ l = [.stored r, .begun] := by
  cases h
  · exact Or.inl ⟨_, rfl, rfl⟩
  · exact Or.inr ⟨_, rfl, rfl⟩

theorem Next.begun_inv (h : Next op l .begun) : ∃ r, op.workRef = some r ∧ l = [.stored r] := by
  cases h
  exact ⟨_, rfl, rfl⟩

theorem Next.ended_inv (h : Next op l .ended) :
    (op.workRef = none ∧ ∃ r, .exchanged r true ∈ l) ∨
      ∃ r, op.workRef = some r ∧ l = [.stored r, .begun, .popped, .exchanged r true] := by
  cases h
  case abandonedEnd opts r => exact Or.inl ⟨rfl, r, by simp⟩
  case refusedEnd opts r => exact Or.inl ⟨rfl, r, by simp⟩
  case ended task => exact Or.inr ⟨_, rfl, rfl⟩

theorem Next.stored_inv (h : Next op l (.stored r)) : op.workRef = some r ∧ l = [] := by
  cases h
  exact ⟨rfl, rfl⟩

/-- The flag is lowered by the worker of the record, or by its submission if the scheduler has
not taken it. -/
theorem Next.exchanged_inv {was : Bool} (h : Next op l (.exchanged r was)) :
    (op.workRef = some r ∧ l = [.stored r, .begun, .popped]) ∨
      (op.workRef = none ∧ .made r true ∈ l ∧ .offered r true ∉ l) := by
  cases h <;> simp [Op.workRef]

end Before

private theorem split_at {α : Type} {l rest s : List α} {a : α} (h : l ++ a :: rest = s) :
    ∃ n, s[n]? = some a ∧ l = s.take n := by
  subst h
  exact ⟨l.length, by simp, by simp⟩

theorem Script.next {op : Op} {l rest : List Mark} {k : Mark} (h : Script op (l ++ k :: rest)) :
    Next op l k := by
  cases op with
  | submit opts =>
      rcases h with h | ⟨r, h | h | ⟨was, h | h⟩⟩
      · exact absurd h (by simp)
      all_goals
        obtain ⟨n, hk, rfl⟩ := split_at h
        first
        | (rcases n with _ | _ | _ | n <;> cases hk <;> constructor)
        | (cases was <;> rcases n with _ | _ | _ | _ | _ | _ | n <;> cases hk <;> constructor)
  | work task =>
      obtain ⟨was, h⟩ := h
      obtain ⟨n, hk, rfl⟩ := split_at h
      cases was <;> rcases n with _ | _ | _ | _ | _ | n <;> cases hk <;> constructor
  | _ => exact absurd h (by simp [Script])

theorem Script.begun_work {op : Op} {l : List Mark} (h : Script op l) (hl : .begun ∈ l) :
    ∃ task was, op = .work task ∧ l = [.stored task.ref, .begun, .popped] ++ ending task.ref was := by
  cases op with
  | submit opts => rcases h with rfl | ⟨r, rfl | rfl | ⟨was, rfl | rfl⟩⟩ <;> simp [ending] at hl
  | work task =>
      obtain ⟨was, rfl⟩ := h
      exact ⟨task, was, rfl, rfl⟩
  | _ =>
      obtain rfl : l = [] := h
      cases hl

theorem Script.pushed_submit {op : Op} {l : List Mark} (h : Script op l) (hl : .pushed ∈ l) :
    op.isSubmit = true ∧ (.popped ∈ l ∨ ∃ r, l = [.made r true, .pushed, .offered r true]) := by
  cases op with
  | submit opts =>
      refine ⟨rfl, ?_⟩
      rcases h with rfl | ⟨r, rfl | rfl | ⟨was, rfl | rfl⟩⟩
      · cases hl
      · simp at hl
      · exact Or.inr ⟨r, rfl⟩
      · simp [ending] at hl
      · exact Or.inl (by simp)
  | work task =>
      obtain ⟨was, rfl⟩ := h
      simp [ending] at hl
  | _ =>
      obtain rfl : l = [] := h
      cases hl

/-- A submission whose record the scheduler took shows nothing after that. -/
theorem Script.accepted {op : Op} {l rest : List Mark} (h : Script op (l ++ rest))
    (hl : .offered r true ∈ l) : l = [.made r true, .pushed, .offered r true] := by
  obtain ⟨before, after, rfl⟩ := List.append_of_mem hl
  rw [List.append_assoc, List.cons_append] at h
  obtain rfl := h.next.offered_inv
  cases op with
  | submit opts => rcases h with h | ⟨r', h | h | ⟨was, h | h⟩⟩ <;> simp_all [ending]
  | work task =>
      obtain ⟨was, h⟩ := h
      simp at h
  | _ => exact absurd h (by simp [Script])

end TransferFabric
