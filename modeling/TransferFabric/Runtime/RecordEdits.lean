import TransferFabric.Runtime.View

/-!
What a permitted call can do to the record in hand. Whatever a thread does, the
record keeps its identity, a terminal status stays as it is, a record that ends
means what its state says, and its state moves along the table with one exception.
-/

namespace TransferFabric

open Interaction

variable {rt : Runtime} {careful : Prop} {m : View} {r : Ref} {t : Transfer} {c : RtCall}

namespace Transfer

theorem ran_eq (t : Transfer) (ev : ExecEvent) :
    t.ran ev = { t with status := (t.ran ev).status, done := t.done ++ [ev] } := by
  obtain ⟨c, x⟩ := ev
  cases c <;> rfl

theorem ran_state (t : Transfer) (ev : ExecEvent) :
    (t.ran ev).state = if ExecEvent.isVerifying ev then .verifying else t.state := by
  obtain ⟨c, x⟩ := ev
  cases c with
  | status u => cases u <;> rfl
  | _ => rfl

end Transfer

theorem isVerifying_eq {c : ExecCall} {x : ExecAnswer c}
    (h : ExecEvent.isVerifying ⟨c, x⟩ = true) : c = .status .verifying := by
  cases c with
  | status u => cases u <;> first | rfl | cases h
  | _ => cases h

/-- What a record is made of for good. -/
structure Transfer.Same (t t' : Transfer) : Prop where
  id : t'.id = t.id
  opts : t'.opts = t.opts
  maker : t'.maker = t.maker

theorem RtCall.edit_same (t : Transfer) (c : RtCall) (x : RtAnswer c) : t.Same (c.edit t x) := by
  cases c with
  | setState r s =>
      show t.Same (t.setState s)
      unfold Transfer.setState
      split_ifs <;> exact ⟨rfl, rfl, rfl⟩
  | setTerminal r s e =>
      show t.Same (t.setTerminal s e)
      unfold Transfer.setTerminal
      split_ifs <;> exact ⟨rfl, rfl, rfl⟩
  | exec r c =>
      show t.Same (t.ran ⟨c, x⟩)
      rw [t.ran_eq]
      exact ⟨rfl, rfl, rfl⟩
  | _ => exact ⟨rfl, rfl, rfl⟩

theorem RtCall.edit_done (t : Transfer) {c : RtCall} (x : RtAnswer c) (hc : ∀ r ec, c ≠ .exec r ec) :
    (c.edit t x).done = t.done := by
  cases c with
  | setState r s =>
      show (t.setState s).done = t.done
      unfold Transfer.setState
      split_ifs <;> rfl
  | setTerminal r s e =>
      show (t.setTerminal s e).done = t.done
      unfold Transfer.setTerminal
      split_ifs <;> rfl
  | exec r ec => exact absurd rfl (hc r ec)
  | _ => rfl

/-- Only the thread that has a record writes to it. -/
theorem View.Permits.owned (hp : m.Permits rt careful c) (hc : c.edits = some r) :
    ∃ t, m.own = some (r, t) := by
  cases c with
  | setState r' s =>
      obtain rfl := Option.some.inj hc
      obtain ⟨⟨t, hown, -⟩, -⟩ := hp
      exact ⟨t, hown⟩
  | setTerminal r' s e =>
      obtain rfl := Option.some.inj hc
      obtain ⟨⟨t, hown, -⟩, -⟩ := hp
      exact ⟨t, hown⟩
  | exec r' c =>
      obtain rfl := Option.some.inj hc
      obtain ⟨t, hown, -⟩ := hp
      exact ⟨t, hown⟩
  | storeStarted r' | exchangeStarted r' | setStaging r' _ | pushStaging r' _ _ =>
      obtain rfl := Option.some.inj hc
      exact hp
  | _ => cases hc

/-- The writes to a status that a permitted call makes, with what justifies them. -/
inductive Transfer.Write (rt : Runtime) (m : View) (t : Transfer) : Transfer → Prop
  /-- The status stays; so does what `run_transfer` has done. -/
  | none {t' : Transfer} (status : t'.status = t.status) (notified : t'.notified = t.notified)
      (done : t'.done = t.done)
      (body : ∀ bufs, { t'.body with stagingBufs := bufs } = { t.body with stagingBufs := bufs }) :
      Write rt m t t'
  | moved {t' : Transfer} (s : TransferState) (listed : t.state.allowed s = true)
      (idle : t.state ≠ .active) (live : s.isTerminal = false) (cleared : s = .queued → m.Cleared t)
      (eq : t' = { t with status := { t.status with state := s } }) : Write rt m t t'
  | ended {t' : Transfer} (s : TransferState) (e : Error) (live : t.state.isTerminal = false)
      (ends : t.Ends rt s)
      (eq : t' = { t with status := { t.status with state := s, error := e }, notified := true }) :
      Write rt m t t'
  | ran {t' : Transfer} (c : ExecCall) (x : ExecAnswer c) (running : t.Running c)
      (work : m.op.isWork = true) (eq : t' = t.ran ⟨c, x⟩) : Write rt m t t'

theorem View.Permits.write (hp : m.Permits rt careful c) (hc : c.edits = some r)
    (hown : m.own = some (r, t)) (x : RtAnswer c) : t.Write rt m (c.edit t x) := by
  have hsame : ∀ t', m.own = some (r, t') → t' = t := fun t' h =>
    (Prod.mk.inj (Option.some.inj (h.symm.trans hown))).2
  cases c with
  | setState r' s =>
      obtain rfl := Option.some.inj hc
      obtain ⟨⟨t', hown', hidle, hcleared⟩, hlive⟩ := hp
      obtain rfl := hsame t' hown'
      show t'.Write rt m (t'.setState s)
      by_cases hs : t'.state.allowed s = true
      · exact .moved s hs hidle hlive hcleared (if_pos hs)
      · rw [Transfer.setState, if_neg hs]
        exact .none rfl rfl rfl fun _ => rfl
  | setTerminal r' s e =>
      obtain rfl := Option.some.inj hc
      obtain ⟨⟨t', hown', hlive, hends⟩, -⟩ := hp
      obtain rfl := hsame t' hown'
      refine .ended s e hlive hends ?_
      show t'.setTerminal s e = _
      rw [Transfer.setTerminal, hlive]
      rfl
  | exec r' c =>
      obtain rfl := Option.some.inj hc
      obtain ⟨t', hown', hrunning, hwork, -⟩ := hp
      obtain rfl := hsame t' hown'
      exact .ran c x hrunning hwork rfl
  | storeStarted | exchangeStarted | setStaging | pushStaging => exact .none rfl rfl rfl fun _ => rfl
  | _ => cases hc

/-- Only `set_terminal` moves a record into a terminal state. -/
theorem View.Permits.terminal_iff (hp : m.Permits rt careful c) (hc : c.edits = some r)
    (hown : m.own = some (r, t)) (x : RtAnswer c) (hne : ∀ r s e, c ≠ .setTerminal r s e)
    {s : TransferState} (hs : s.isTerminal = true) : (c.edit t x).state = s ↔ t.state = s := by
  have hlive : ∀ s', s'.isTerminal = false → s' ≠ s := fun s' h heq => by
    rw [heq, hs] at h
    cases h
  cases c with
  | setState r' s' =>
      obtain ⟨-, hs'⟩ := hp
      show (t.setState s').state = s ↔ t.state = s
      unfold Transfer.setState
      split_ifs with hlisted
      · have hsource : t.state.isTerminal = false := by
          revert hlisted
          cases t.state <;> cases s' <;> decide
        exact iff_of_false (hlive s' hs') (hlive _ hsource)
      · rfl
  | setTerminal r' s' e => exact absurd rfl (hne r' s' e)
  | exec r' ec =>
      obtain ⟨t', hown', hrunning, -⟩ := hp
      obtain rfl := Option.some.inj hc
      obtain ⟨-, rfl⟩ := Prod.mk.inj (Option.some.inj (hown'.symm.trans hown))
      have hsource : t'.state.isTerminal = false := by
        rcases hrunning.live with h | h <;> (rw [h]; rfl)
      show (t'.ran ⟨ec, x⟩).state = s ↔ t'.state = s
      rw [Transfer.ran_state]
      split_ifs
      · exact iff_of_false (hlive _ rfl) (hlive _ hsource)
      · rfl
  | _ => rfl

namespace Transfer

/-- A record at rest in a terminal state is not written to. -/
theorem Write.final {t' : Transfer} (h : t.Write rt m t') (hterm : t.state.isTerminal = true) :
    t'.status = t.status ∧ t'.done = t.done := by
  cases h with
  | none status notified done body => exact ⟨status, done⟩
  | moved s listed idle live cleared eq =>
      exfalso
      revert listed hterm
      cases t.state <;> cases s <;> decide
  | ended s e live ends eq =>
      rw [live] at hterm
      cases hterm
  | ran c x running work eq =>
      exfalso
      rcases running.live with h | h <;> (rw [h] at hterm; cases hterm)

/-- A change of state is in the table, unless an empty request is ended. -/
theorem Write.listed {t' : Transfer} (h : t.Write rt m t') (hne : t'.state ≠ t.state) :
    t.state.allowed t'.state = true ↔ ¬ (t.Empty ∧ t.state = .active) := by
  cases h with
  | none status notified done body => exact absurd (congrArg TransferStatus.state status) hne
  | moved s listed idle live cleared eq =>
      subst eq
      exact ⟨fun _ h => idle h.2, fun _ => listed⟩
  | ended s e live ends eq =>
      subst eq
      exact ends.listed
  | ran c x running work eq =>
      subst eq
      rw [ran_state] at hne ⊢
      cases hv : ExecEvent.isVerifying ⟨c, x⟩ with
      | true =>
          obtain ⟨hactive, hempty⟩ := running.verifying (isVerifying_eq hv)
          rw [hactive]
          exact ⟨fun _ h => hempty h.1, fun _ => rfl⟩
      | false => exact absurd (by rw [hv]; rfl) hne

/-- A record that meant its state still does, whatever is written to it. -/
theorem Write.sound {t' : Transfer} (h : t.Write rt m t') (hs : t.Sound rt) : t'.Sound rt := by
  cases h with
  | none status notified done body =>
      have hstate : t'.state = t.state := congrArg TransferStatus.state status
      refine ⟨fun hc => ?_, fun hc => ?_, by rw [notified, hstate, hs.notified]⟩
      · obtain ⟨hbytes, bufs, hpassed⟩ := hs.completed (hstate ▸ hc)
        refine ⟨by rw [status, hbytes], bufs, ?_⟩
        rw [body, done]
        exact hpassed
      · have hasked := hs.cancelled (hstate ▸ hc)
        unfold Asked at hasked ⊢
        rw [done]
        exact hasked
  | moved s listed idle live cleared eq =>
      subst eq
      have hsource : t.state.isTerminal = false := by
        revert listed
        cases t.state <;> cases s <;> decide
      refine ⟨fun hc => ?_, fun hc => ?_, ?_⟩
      · obtain rfl : s = .completed := hc
        cases live
      · obtain rfl : s = .cancelled := hc
        cases live
      · show t.notified = s.isTerminal
        rw [hs.notified, hsource, live]
  | ended s e live ends eq =>
      subst eq
      refine ⟨fun hc => ends.delivered hc, fun hc => ends.asked hc, ?_⟩
      show true = s.isTerminal
      rcases ends.terminal with rfl | rfl | rfl <;> rfl
  | ran c x running work eq =>
      subst eq
      have hlive : (t.ran ⟨c, x⟩).state = .active ∨ (t.ran ⟨c, x⟩).state = .verifying := by
        rw [ran_state]
        split_ifs
        · exact Or.inr rfl
        · exact running.live
      have hnotified : (t.ran ⟨c, x⟩).notified = false := by
        rw [t.ran_eq]
        exact running.silent
      rw [Transfer.state] at hlive
      refine ⟨fun hc => ?_, fun hc => ?_, ?_⟩
      · rw [Transfer.state] at hc
        rcases hlive with h | h <;> (rw [h] at hc; cases hc)
      · rw [Transfer.state] at hc
        rcases hlive with h | h <;> (rw [h] at hc; cases hc)
      · rw [hnotified, Transfer.state]
        rcases hlive with h | h <;> (rw [h]; rfl)

/-- A record becomes queued only when its dependencies are known to be completed. -/
theorem Write.queued {t' : Transfer} (h : t.Write rt m t') (hq : t'.state = .queued) :
    t.state = .queued ∨ m.Cleared t := by
  cases h with
  | none status notified done body =>
      exact Or.inl ((congrArg TransferStatus.state status).symm.trans hq)
  | moved s listed idle live cleared eq =>
      subst eq
      exact Or.inr (cleared hq)
  | ended s e live ends eq =>
      subst eq
      exfalso
      obtain rfl : s = .queued := hq
      rcases ends.terminal with h | h | h <;> cases h
  | ran c x running work eq =>
      subst eq
      rw [ran_state] at hq
      split_ifs at hq
      exact Or.inl hq

/-- `run_transfer` acts for a record only in the hands of a worker. -/
theorem Write.done_grows {t' : Transfer} (h : t.Write rt m t') (hwork : m.op.isWork = false) :
    t'.done = t.done := by
  cases h with
  | none status notified done body => exact done
  | moved s listed idle live cleared eq => rw [eq]
  | ended s e live ends eq => rw [eq]
  | ran c x running work eq =>
      rw [work] at hwork
      cases hwork

end Transfer

/-- One call ends a transfer. -/
theorem View.Permits.ends {x : RtAnswer c} (hp : m.Permits rt careful c) (hc : c.edits = some r)
    (hlive : t.state.isTerminal = false) (hend : (c.edit t x).state.isTerminal = true) :
    ∃ s e, c = .setTerminal r s e ∧ (c.edit t x).state = s := by
  have hsame : (c.edit t x).state ≠ t.state := fun h => by
    rw [h, hlive] at hend
    cases hend
  cases c with
  | setState r' s =>
      change (t.setState s).state ≠ t.state at hsame
      change (t.setState s).state.isTerminal = true at hend
      unfold Transfer.setState at hsame hend
      split_ifs at hsame hend
      · have hopen : s.isTerminal = false := hp.2
        rw [show s.isTerminal = true from hend] at hopen
        cases hopen
      · exact absurd rfl hsame
  | setTerminal r' s e =>
      obtain rfl := Option.some.inj hc
      refine ⟨s, e, rfl, ?_⟩
      show (t.setTerminal s e).state = s
      unfold Transfer.setTerminal
      rw [if_neg (by simp [hlive])]
      rfl
  | exec r' ec =>
      change (t.ran ⟨ec, x⟩).state.isTerminal = true at hend
      rw [t.ran_state] at hend
      split_ifs at hend
      · cases hend
      · rw [hlive] at hend
        cases hend
  | _ => exact absurd rfl hsame

end TransferFabric
