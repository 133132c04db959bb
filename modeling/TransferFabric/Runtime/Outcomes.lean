import TransferFabric.Runtime.ReportedProgress

/-!
Why a transfer ended. Two kinds of threads end transfers: the worker of a record,
with the result of `run_transfer`, and the submission that made it, which gives it
up for one of three reasons. Nothing else does, so that the state and the error of
a record that has ended can be read together, and tell whether it was run.

What a transfer that ended has copied is not repeated here; it is a matter of the
run that the record is shown to have had.
-/

namespace TransferFabric

open Interaction Relation

def dependencyFailed : Error :=
  { category := .permanentFailure, message := "a dependency failed" }

def stagingRefused : Error :=
  { category := .resourceExhausted, message := "staging reservation failed" }

def queueFull : Error := { category := .resourceExhausted, message := "scheduler queue full" }

/-- The errors with which a submission gives up the record it has made. -/
def givenUp : List Error := [dependencyFailed, stagingRefused, queueFull]

variable {rt : Runtime} {r : Ref} {test : Error → Prop}

theorem ends_finalize {e : Error} (he : test e) : Calls (EndsBy test) (finalize r e) :=
  calls_finalize (fun _ => endsBy_prepares) ⟨rfl, he⟩ trivial trivial fun _ _ _ => trivial

/-! A submission. -/

theorem runs_reserveNode {depth j : Nat} {nodes : List MemoryDomain} {bytes : ByteCount}
    {e : Error} {f : Interaction.Flow Error} {t : RtTrace}
    (h : Runs (reserveNode depth r nodes bytes j e) f t) :
    f = .next {} ∨ f = .stop stagingRefused := by
  obtain ⟨done, t₁, t₂, -, -, h⟩ := (runs_bind _ _ _ _).mp h
  cases done with
  | true => exact Or.inl h.1
  | false =>
      obtain ⟨-, t₃, t₄, -, -, h⟩ := (runs_bind _ _ _ _).mp h
      exact Or.inr h.1

theorem runs_reserveStaging {depth : Nat} {e : Error} {t : RtTrace}
    (h : Runs (reserveStaging depth r) e t) : e.ok = true ∨ e = stagingRefused := by
  obtain ⟨tr, t₁, t₂, -, -, h⟩ := (runs_bind _ _ _ _).mp h
  split_ifs at h with hlegs
  · exact Or.inl (congrArg Error.ok h.1)
  · obtain ⟨-, t₃, t₄, -, -, h⟩ := (runs_bind _ _ _ _).mp h
    have hloop := runs_forLoop (I := fun _ (e : Error) (_ : RtTrace) => e.ok = true)
      (J := fun (e : Error) (_ : RtTrace) => e = stagingRefused) (u := []) h rfl ?_ ?_
    · exact hloop
    · intro i s s' u t _ _ _ hrun
      rcases runs_reserveNode hrun with hs | hs <;> cases hs
      rfl
    · intro i s s' u t _ _ _ hrun
      rcases runs_reserveNode hrun with hs | hs <;> cases hs
      rfl

/-- A record is made, or it comes to one of the ends a submission has for it: the scheduler
takes it, it is closed, or a dependency is unknown. -/
def turn : RtEvent → Option Bool
  | ⟨.insert _, _⟩ => some false
  | ⟨.schedule _, taken⟩ => if taken = true then some true else none
  | ⟨.setTerminal .., _⟩ => some true
  | ⟨.find _, none⟩ => some true
  | _ => none

/-- The events that `turn` shows as an end. -/
inductive EndsIn : RtEvent → Prop
  | taken (t : Task) : EndsIn ⟨.schedule t, true⟩
  | closed (r : Ref) (s : TransferState) (e : Error) : EndsIn ⟨.setTerminal r s e, ()⟩
  | unknown (id : TransferId) : EndsIn ⟨.find id, none⟩

theorem endsIn_of_turn {ev : RtEvent} (h : turn ev = some true) : EndsIn ev := by
  obtain ⟨c, x⟩ := ev
  cases c with
  | schedule t =>
      cases x with
      | true => exact .taken t
      | false => cases h
  | setTerminal r s e => exact .closed r s e
  | find id =>
      cases x with
      | none => exact .unknown id
      | some r => cases h
  | _ => cases h

/-- A submission gives records up only as it may, and its turns are noted. -/
abbrev Submits {α : Type} (p : Prog RtSig α) (Q : α → List Bool → Prop) (m : List Bool) : Prop :=
  Shows (EndsBy (· ∈ givenUp)) turn p Q m

section Submits

variable {m : List Bool} {β : Type} {Q : β → List Bool → Prop}

theorem submits_ask {c : RtCall} {f : RtAnswer c → Prog RtSig β} (hends : EndsBy (· ∈ givenUp) c)
    (hturn : ∀ x, turn ⟨c, x⟩ = none) (h : ∀ x, Submits (f x) Q m) :
    Submits (ask c >>= f) Q m :=
  shows_quiet (calls_ask ⟨hends, hturn⟩) fun x _ _ => h x

theorem prepares_turnless {c : RtCall} (hc : c.prepares r = true) :
    EndsBy test c ∧ ∀ x, turn ⟨c, x⟩ = none :=
  ⟨endsBy_prepares hc, fun x => by cases c with | _ => first | rfl | cases hc⟩

theorem shows_finalize {e : Error} (he : e ∈ givenUp) :
    Submits (finalize r e) (fun _ m' => true ∈ m') m := by
  refine ⟨⟨rfl, he⟩, fun x m' hm => ?_⟩
  refine Calls.wp_invariant (true ∈ ·) ((ends_finalize he).2 x) (fun _ _ hc _ => hc) ?_ ?_
  · rintro m c x _ - hmem rfl
    exact List.mem_append_left _ hmem
  · rw [hm]
    exact List.mem_append_right _ List.mem_cons_self

theorem shows_queueTransfer (depth : Nat) :
    Submits (queueTransfer depth r) (fun _ m' => true ∈ m') m := by
  refine shows_quiet ((calls_reserveStaging depth).mono fun _ => prepares_turnless)
    fun reserve t hrun => ?_
  split_ifs with hok
  · refine submits_ask trivial (fun _ => rfl) fun _ => submits_ask trivial (fun _ => rfl) fun _ =>
      submits_ask trivial (fun _ => rfl) fun _ => submits_ask trivial (fun _ => rfl) fun _ =>
      submits_ask trivial (fun _ => rfl) fun t => wp_request_bind trivial ?_
    rintro (accepted : Bool) _ rfl
    cases accepted with
    | true => exact List.mem_append_right _ List.mem_cons_self
    | false =>
        refine submits_ask trivial (fun _ => rfl) fun _ => shows_finalize ?_
        exact List.mem_cons_of_mem _ (List.mem_cons_of_mem _ List.mem_cons_self)
  · obtain rfl := (runs_reserveStaging hrun).resolve_left hok
    exact shows_finalize (List.mem_cons_of_mem _ List.mem_cons_self)

theorem shows_awaitDependencies (deps : List TransferId) :
    Submits (awaitDependencies r deps) (fun err m' => err.ok = true ∨ true ∈ m') m := by
  induction deps generalizing m with
  | nil => exact Or.inl rfl
  | cons d deps ih =>
      refine wp_request_bind trivial ?_
      rintro (dep : Option Ref) _ rfl
      cases dep with
      | none => exact Or.inr (List.mem_append_right _ List.mem_cons_self)
      | some dep =>
          refine submits_ask trivial (fun _ => rfl) fun s => ?_
          dsimp only
          split_ifs
          · exact ih
          · refine wp_request_bind ⟨rfl, List.mem_cons_self⟩ ?_
            rintro _ _ rfl
            exact Or.inr (List.mem_append_right _ List.mem_cons_self)

theorem shows_admitAs (opts : TransferOptions) (id : TransferId) (bytes : ByteCount)
    (body : TransferRecord) :
    Submits (rt.admitAs opts id bytes body) (fun _ m' => true ∈ m') m := by
  refine wp_request_bind trivial ?_
  rintro r _ rfl
  refine submits_ask trivial (fun _ => rfl) fun _ => submits_ask trivial (fun _ => rfl) fun _ =>
    submits_ask trivial (fun _ => rfl) fun _ => submits_ask trivial (fun _ => rfl) fun _ =>
    (wp_bind _ _ _ _).mpr (wp_mono _ (shows_awaitDependencies _) fun err m hm => ?_)
  split_ifs with hok
  · exact (wp_bind _ _ _ _).mpr (wp_mono _ (shows_queueTransfer _) fun _ m hm => hm)
  · exact hm.resolve_left hok

/-- A submission that has returned made no record, or saw it to one of its ends. -/
theorem shows_submit (opts : TransferOptions) :
    Submits (rt.submit opts) (fun _ m' => m' = [] ∨ true ∈ m') [] := by
  refine submits_ask trivial (fun _ => rfl) fun down => ?_
  cases down with
  | true => exact Or.inl rfl
  | false =>
  by_cases hvalid : ¬ opts.source.valid = true ∨ ¬ opts.destination.valid = true
  · simp only [if_pos hvalid]
    exact Or.inl rfl
  simp only [if_neg hvalid]
  refine submits_ask trivial (fun _ => rfl) fun se =>
    submits_ask trivial (fun _ => rfl) fun de => ?_
  cases se with
  | none => exact Or.inl rfl
  | some se =>
  cases de with
  | none => exact Or.inl rfl
  | some de =>
  dsimp only
  cases rt.planTransfer opts se de with
  | error e => exact Or.inl rfl
  | ok p =>
      dsimp only
      split_ifs
      · exact wp_mono _ (shows_admitAs ..) fun _ _ => Or.inr
      · exact submits_ask trivial (fun _ => rfl) fun id =>
          wp_mono _ (shows_admitAs ..) fun _ _ => Or.inr

end Submits

namespace Runtime

variable {σ σ' : System} {i : Tid}

/-! Records that have ended. -/

/-- The call that ended a record gave it the state and the error it has. -/
theorem Reaches.ended_with (h : rt.Reaches σ) (hr : r < σ.world.next)
    (hterm : (σ.world.heap r).state.isTerminal = true) : ∃ i < σ.threads.length,
      (⟨.setTerminal r (σ.world.heap r).state (σ.world.heap r).status.error, ()⟩ : RtEvent) ∈
        σ.world.past i := by
  induction h with
  | refl => exact absurd hr (Nat.not_lt_zero r)
  | @tail σ₁ σ₂ hrun hstep ih =>
      have hreach : rt.Reaches σ₁ := hrun
      have hfinal := final_step hreach hstep (r := r)
      cases hstep with
      | @act i c next x w' hi he =>
          obtain ⟨hx, rfl⟩ := he
          have hi' : i < σ₁.threads.length := (List.getElem?_eq_some_iff.mp hi).1
          have hw := σ₁.world.after_changes i c x
          obtain ⟨l, hl, hpermits, -⟩ := hreach.known
          obtain ⟨-, hp⟩ := hpermits i c next hi
          rcases (Records.grows hp hx).2 r hr with hold | ⟨rfl, t, rfl, hfresh, hnew⟩
          · cases hlive : (σ₁.world.heap r).state.isTerminal with
            | true =>
                obtain ⟨j, hj, hmem⟩ := ih hold hlive
                refine ⟨j, by rwa [List.length_set], ?_⟩
                rw [Transfer.state, hfinal hold hlive, hw.past, Function.update_apply]
                split_ifs with hji
                · exact List.mem_append_left _ (hji ▸ hmem)
                · exact hmem
            | false =>
                obtain ⟨s, e, rfl⟩ := hreach.ended_by hi hx hold hlive hterm
                refine ⟨i, by rwa [List.length_set], ?_⟩
                have hheap : (σ₁.world.after i (.setTerminal r s e) x).heap r =
                    (σ₁.world.heap r).setTerminal s e :=
                  (heap_after hold hx i).trans (if_pos rfl)
                rw [hw.past, Function.update_self, hheap, setTerminal_live hlive]
                exact List.mem_append_right _ List.mem_cons_self
          · have hcreated : t.state = .created := hfresh.created
            rw [show ((σ₁.world.after i (.insert t) x).heap σ₁.world.next).state = t.state by
              rw [hnew]; rfl, hcreated] at hterm
            cases hterm
      | start hs =>
          obtain ⟨hpast, hheap, hnext, -⟩ := hs.same
          rw [hheap] at hterm
          obtain ⟨j, hj, hmem⟩ := ih (hnext ▸ hr) hterm
          refine ⟨j, ?_, ?_⟩
          · rw [List.length_append]
            exact Nat.lt_add_right _ hj
          · rw [hpast, hheap]
            exact hmem

/-- The record a worker has loaded is the one the executor was given. -/
theorem Reaches.given_eq (h : rt.Reaches σ) {tr : Transfer} (hworks : σ.world.Works i r)
    (hload : loaded r (σ.world.past i) = some tr) : σ.world.given r = tr.body := by
  unfold World.given
  cases hfind : (List.range σ.world.calls.length).find? fun i => decide (σ.world.Works i r) with
  | none =>
      have := List.find?_eq_none.mp hfind i (List.mem_range.mpr (World.works_lt hworks))
      exact absurd (decide_eq_true hworks) this
  | some j =>
      have hj : σ.world.Works j r := by simpa using List.find?_some hfind
      obtain rfl := h.flow.works_unique hj hworks
      rw [Option.bind_some, hload]
      rfl

/-- The worker that ended a record ended it with the result of its run. -/
theorem Reaches.run_over (h : rt.Reaches σ) {s : TransferState} {e : Error}
    (hworks : σ.world.Works i r) (hmem : (⟨.setTerminal r s e, ()⟩ : RtEvent) ∈ σ.world.past i) :
    s = terminalFor e ∧
      Runs (rt.running σ.world r).runTransfer e (σ.world.heap r).done := by
  rcases h.worker_course hworks with ⟨-, -, hnone⟩ | ⟨tr, q, hamid⟩
  · exact (hnone _ hmem).2.elim
  · obtain ⟨hs, rfl⟩ := hamid.ends _ hmem
    refine ⟨hs, ?_⟩
    rw [running, h.given_eq hworks hamid.loaded, (h.tracked hworks).done]
    exact follows_done hamid.run

/-- Who ended a record is its worker, or its submission, and then it has no worker. -/
theorem Reaches.closer (h : rt.Reaches σ) {s : TransferState} {e : Error}
    (hi : i < σ.threads.length)
    (hmem : (⟨.setTerminal r s e, ()⟩ : RtEvent) ∈ σ.world.past i) :
    σ.world.Works i r ∨
      (∃ opts, σ.world.calls[i]? = some (.submit opts)) ∧ ∀ j, ¬ σ.world.Works j r := by
  obtain ⟨l, hl⟩ := h.audited
  obtain ⟨-, t, hown⟩ := hl.1.closings.past i hi r s e hmem
  have hop := hl.1.coupled.history.op i hi
  rw [Function.comp_apply] at hown hop
  cases hoper : (l i).1.op with
  | work task =>
      obtain ⟨t', hown'⟩ := hl.1.equipped i hi task hoper
      have href := (Prod.mk.inj (Option.some.inj (hown.symm.trans hown'))).1
      exact Or.inl ((World.works_call hop).mpr (by rw [hoper, href]; rfl))
  | submit opts =>
      refine Or.inr ⟨⟨opts, hoper ▸ hop⟩, fun j hj => ?_⟩
      -- the record would be in two hands
      obtain ⟨priority, hjop⟩ := World.works_iff.mp hj
      have hjlt : j < σ.threads.length := by
        rw [← h.calls_length]
        exact World.works_lt hj
      have hjop' := Option.some.inj ((hl.1.coupled.history.op j hjlt).symm.trans hjop)
      obtain ⟨t', hown'⟩ := hl.1.equipped j hjlt _ hjop'
      have hsame := hl.1.coupled.records.apart i hi j hjlt r t t' hown hown'
      rw [← hsame, Function.comp_apply, hoper] at hjop'
      cases hjop'
  | _ =>
      have hmay := (h.may (hoper ▸ hop)).1 _ hmem
      cases hmay

/-- A completed transfer was run, and the run succeeded. -/
theorem Reaches.completed_run (h : rt.Reaches σ) (hr : r < σ.world.next)
    (hdone : (σ.world.heap r).state = .completed) : ∃ e, e.ok = true ∧
      Runs (rt.running σ.world r).runTransfer e (σ.world.heap r).done := by
  obtain ⟨i, hi, hmem⟩ := h.ended_with hr (by rw [hdone]; rfl)
  rw [hdone] at hmem
  rcases h.closer hi hmem with hworks | ⟨⟨opts, hop⟩, -⟩
  · obtain ⟨hs, hrun⟩ := h.run_over hworks hmem
    exact ⟨_, (terminalFor_completed _).mp hs.symm, hrun⟩
  · have hmay := (h.may hop).1 _ hmem
    cases hmay

/-- A transfer that has ended was run by its one worker and has the result of the run, or it was
never run and was given up by its submission; its state is the one for its error. -/
theorem every_end_explained (h : rt.Reaches σ) (hr : r < σ.world.next)
    (hterm : (σ.world.heap r).state.isTerminal = true) :
    (σ.world.heap r).state = terminalFor (σ.world.heap r).status.error ∧
      ((∃! i, σ.world.Works i r) ∧ Runs (rt.running σ.world r).runTransfer
          (σ.world.heap r).status.error (σ.world.heap r).done ∨
        (∀ i, ¬ σ.world.Works i r) ∧ (σ.world.heap r).done = [] ∧
          (σ.world.heap r).status.error ∈ givenUp) := by
  obtain ⟨i, hi, hmem⟩ := h.ended_with hr hterm
  rcases h.closer hi hmem with hworks | ⟨⟨opts, hop⟩, hnone⟩
  · obtain ⟨hs, hrun⟩ := h.run_over hworks hmem
    exact ⟨hs, Or.inl ⟨⟨i, hworks, fun j hj => h.flow.works_unique hj hworks⟩, hrun⟩⟩
  · obtain ⟨q, hq⟩ := h.thread hop
    have hcalls := ((shows_submit opts).split.1.follows (h.follows hop hq)).1 _ hmem
    obtain ⟨hs, hgiven⟩ := hcalls
    exact ⟨hs, Or.inr ⟨hnone, h.undone hr hnone, hgiven⟩⟩

theorem oneCompleted_explained :
    ((loopback.play oneCompleted).world.heap 0).state.isTerminal = true ∧
      ((loopback.play oneCompleted).world.heap 0).state =
        terminalFor ((loopback.play oneCompleted).world.heap 0).status.error :=
  have hterm : ((loopback.play oneCompleted).world.heap 0).state.isTerminal = true := by
    decide +kernel
  ⟨hterm, (every_end_explained (loopback.play_reaches oneCompleted) (by decide +kernel) hterm).1⟩

end Runtime

end TransferFabric
