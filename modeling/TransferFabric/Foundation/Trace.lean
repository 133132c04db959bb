import TransferFabric.Foundation.Interaction

/-!
The traces of a program: which calls it makes and how they were answered. A
trace belongs to the program alone; a world that the answered calls act on is
a path along the trace. An execution is a trace of the program together with a
path of the world, so a fact about all traces holds in every world.
-/

namespace Interaction

variable {S T : Signature} {α β σ W : Type}

abbrev Event (S : Signature) := (c : S.Call) × S.Answer c

abbrev Trace (S : Signature) := List (Event S)

/-- Every event of the trace passes the test. -/
def Trace.Only (test : Event S → Bool) (t : Trace S) : Prop := ∀ ev ∈ t, test ev = true

namespace Trace

variable {test weaker : Event S → Bool} {t u : Trace S} {ev : Event S}

@[simp] theorem only_nil : Only test ([] : Trace S) := fun _ h => absurd h List.not_mem_nil

@[simp] theorem only_append : Only test (t ++ u) ↔ Only test t ∧ Only test u := by
  simp only [Only, List.mem_append, or_imp, forall_and]

@[simp] theorem only_cons : Only test (ev :: t) ↔ test ev = true ∧ Only test t := by
  simp only [Only, List.mem_cons, or_imp, forall_and, forall_eq]

theorem Only.mono (h : Only test t) (hw : ∀ ev, test ev = true → weaker ev = true) :
    Only weaker t := fun ev hev => hw ev (h ev hev)

end Trace

/-- The program can be answered along the trace and then returns the result. -/
def Runs : Prog S α → α → Trace S → Prop
  | .done a, r, t => r = a ∧ t = []
  | .call c next, r, t => ∃ x rest, t = ⟨c, x⟩ :: rest ∧ Runs (next x) r rest

@[simp] theorem runs_done (a r : α) (t : Trace S) :
    Runs (Prog.done a) r t ↔ r = a ∧ t = [] := Iff.rfl

theorem runs_pure (a r : α) (t : Trace S) :
    Runs (pure a : Prog S α) r t ↔ r = a ∧ t = [] := Iff.rfl

theorem runs_request (c : S.Call) (r : S.Answer c) (t : Trace S) :
    Runs (Prog.request c) r t ↔ t = [⟨c, r⟩] := by
  constructor
  · rintro ⟨x, rest, rfl, rfl, rfl⟩
    rfl
  · rintro rfl
    exact ⟨r, [], rfl, rfl, rfl⟩

theorem runs_bind (p : Prog S α) (f : α → Prog S β) (r : β) (t : Trace S) :
    Runs (p >>= f) r t ↔ ∃ a t₁ t₂, t = t₁ ++ t₂ ∧ Runs p a t₁ ∧ Runs (f a) r t₂ := by
  induction p generalizing t with
  | done a =>
      constructor
      · intro h
        exact ⟨a, [], t, rfl, ⟨rfl, rfl⟩, h⟩
      · rintro ⟨a', t₁, t₂, rfl, ⟨rfl, rfl⟩, h⟩
        exact h
  | call c next ih =>
      constructor
      · rintro ⟨x, rest, rfl, h⟩
        obtain ⟨a, t₁, t₂, rfl, h₁, h₂⟩ := (ih x rest).mp h
        exact ⟨a, ⟨c, x⟩ :: t₁, t₂, rfl, ⟨x, t₁, rfl, h₁⟩, h₂⟩
      · rintro ⟨a, _, t₂, rfl, ⟨x, t₁, rfl, h₁⟩, h₂⟩
        exact ⟨x, t₁ ++ t₂, rfl, (ih x _).mpr ⟨a, t₁, t₂, rfl, h₁, h₂⟩⟩

/-- A leading call contributes the first event. -/
theorem runs_request_bind (c : S.Call) (f : S.Answer c → Prog S β) (r : β) (t : Trace S) :
    Runs (Prog.request c >>= f) r t ↔ ∃ x rest, t = ⟨c, x⟩ :: rest ∧ Runs (f x) r rest := Iff.rfl

/-- The loop rule for traces. `I i s t` relates the state at the head of
iteration `i` to the trace of the loop so far; `J` is what a `break` leaves. -/
theorem runs_forLoop {body : Nat → σ → Prog S (Flow σ)} {I : Nat → σ → Trace S → Prop}
    {J : σ → Trace S → Prop} {count start : Nat} {s s' : σ} {u t : Trace S}
    (h : Runs (forLoop body count start s) s' t) (h₀ : I start s u)
    (next : ∀ i s s' u t, start ≤ i → i < start + count → I i s u →
      Runs (body i s) (.next s') t → I (i + 1) s' (u ++ t))
    (stop : ∀ i s s' u t, start ≤ i → i < start + count → I i s u →
      Runs (body i s) (.stop s') t → J s' (u ++ t)) :
    I (start + count) s' (u ++ t) ∨ J s' (u ++ t) := by
  induction count generalizing start s u t with
  | zero =>
      obtain ⟨rfl, rfl⟩ := h
      rw [List.append_nil]
      exact Or.inl h₀
  | succ count ih =>
      obtain ⟨f, t₁, t₂, rfl, hbody, hrest⟩ := (runs_bind _ _ _ _).mp h
      cases f with
      | stop s₁ =>
          obtain ⟨rfl, rfl⟩ := hrest
          rw [List.append_nil]
          exact Or.inr (stop start s s' u t₁ (Nat.le_refl _) (by omega) h₀ hbody)
      | next s₁ =>
          have h₁ := next start s s₁ u t₁ (Nat.le_refl _) (by omega) h₀ hbody
          have := ih hrest h₁ (fun i s s' v t lo hi => next i s s' v t (by omega) (by omega))
            (fun i s s' v t lo hi => stop i s s' v t (by omega) (by omega))
          rw [← List.append_assoc]
          simpa only [Nat.add_assoc, Nat.add_comm 1] using this

/-- What a program goes on with matters only for the results it can give. -/
theorem bind_congr_runs {p : Prog S α} {f f' : α → Prog S β}
    (h : ∀ r t, Runs p r t → f r = f' r) : (p >>= f) = p >>= f' := by
  induction p with
  | done a => exact h a [] ⟨rfl, rfl⟩
  | call c next ih =>
      refine congrArg (Prog.call c) (funext fun x => ih x fun r t hrun => ?_)
      exact h r (⟨c, x⟩ :: t) ⟨x, t, rfl, hrun⟩

/-- A loop that has nothing left to do after `count` iterations needs no more of them. -/
theorem forLoop_more {body : Nat → σ → Prog S (Flow σ)} {I : Nat → σ → Prop} (m : Nat)
    {count start : Nat} {s : σ} (h : I start s)
    (next : ∀ i s s' t, I i s → Runs (body i s) (.next s') t → I (i + 1) s')
    (idle : ∀ i s, I (start + count) s → body i s = pure (.stop s)) :
    forLoop body (count + m) start s = forLoop body count start s := by
  induction count generalizing start s with
  | zero =>
      cases m with
      | zero => rfl
      | succ m =>
          show (body start s >>= _) = pure s
          rw [idle start s h]
          rfl
  | succ count ih =>
      rw [Nat.succ_add]
      refine bind_congr_runs fun f t hrun => ?_
      cases f with
      | stop s' => rfl
      | next s' =>
          refine ih (next start s s' t h hrun) fun i s hI => idle i s ?_
          rwa [Nat.add_assoc, Nat.add_comm 1] at hI

/-- An event of the source signature as the target signature shows it. -/
def Signature.Hom.Shows (h : S.Hom T) (e : Event S) (e' : Event T) : Prop :=
  ∃ x : T.Answer (h.call e.1), e' = ⟨h.call e.1, x⟩ ∧ e.2 = h.answer e.1 x

theorem runs_embed (h : S.Hom T) (p : Prog S α) (r : α) (t : Trace T) :
    Runs (p.embed h) r t ↔ ∃ u : Trace S, Runs p r u ∧ List.Forall₂ h.Shows u t := by
  induction p generalizing t with
  | done a =>
      constructor
      · rintro ⟨rfl, rfl⟩
        exact ⟨[], ⟨rfl, rfl⟩, .nil⟩
      · rintro ⟨u, ⟨rfl, rfl⟩, hu⟩
        cases hu
        exact ⟨rfl, rfl⟩
  | call c next ih =>
      constructor
      · rintro ⟨x, rest, rfl, hr⟩
        obtain ⟨u, hu, hf⟩ := (ih _ rest).mp hr
        exact ⟨⟨c, h.answer c x⟩ :: u, ⟨_, u, rfl, hu⟩, .cons ⟨x, rfl, rfl⟩ hf⟩
      · rintro ⟨u, ⟨x, u', rfl, hu⟩, hf⟩
        cases hf with
        | cons hshow hrest =>
            obtain ⟨y, rfl, hy⟩ := hshow
            have hnext : Runs (next (h.answer c y)) r u' := hy ▸ hu
            exact ⟨y, _, rfl, (ih _ _).mpr ⟨u', hnext, hrest⟩⟩

/-! Worlds along a trace. -/

def Path (effect : Effect S W) : W → Trace S → W → Prop
  | w, [], w' => w' = w
  | w, ⟨c, x⟩ :: t, w' => ∃ w₁, effect w c x w₁ ∧ Path effect w₁ t w'

theorem path_append (effect : Effect S W) (w w' : W) (t₁ t₂ : Trace S) :
    Path effect w (t₁ ++ t₂) w' ↔ ∃ m, Path effect w t₁ m ∧ Path effect m t₂ w' := by
  induction t₁ generalizing w with
  | nil => exact ⟨fun h => ⟨w, rfl, h⟩, by rintro ⟨m, rfl, h⟩; exact h⟩
  | cons e t₁ ih =>
      constructor
      · rintro ⟨w₁, he, h⟩
        obtain ⟨m, h₁, h₂⟩ := (ih w₁).mp h
        exact ⟨m, ⟨w₁, he, h₁⟩, h₂⟩
      · rintro ⟨m, ⟨w₁, he, h₁⟩, h₂⟩
        exact ⟨w₁, he, (ih w₁).mpr ⟨m, h₁, h₂⟩⟩

/-! Playing a program against a deterministic environment. -/

/-- The environment answers from the history. -/
def Prog.play (env : Trace S → (c : S.Call) → S.Answer c) :
    Prog S α → Trace S → α × Trace S
  | .done a, t => (a, t)
  | .call c next, t => (next (env t c)).play env (t ++ [⟨c, env t c⟩])

theorem Prog.play_runs (env : Trace S → (c : S.Call) → S.Answer c) (p : Prog S α) (t : Trace S) :
    ∃ u, (p.play env t).2 = t ++ u ∧ Runs p (p.play env t).1 u := by
  induction p generalizing t with
  | done a => exact ⟨[], (List.append_nil t).symm, rfl, rfl⟩
  | call c next ih =>
      obtain ⟨u, hu, hr⟩ := ih (env t c) (t ++ [⟨c, env t c⟩])
      refine ⟨⟨c, env t c⟩ :: u, ?_, env t c, u, rfl, hr⟩
      simp only [Prog.play, hu, List.append_assoc, List.singleton_append]

/-- A play from the empty history is a run. -/
theorem Prog.runs_play (env : Trace S → (c : S.Call) → S.Answer c) (p : Prog S α) :
    Runs p (p.play env []).1 (p.play env []).2 := by
  obtain ⟨u, hu, hr⟩ := p.play_runs env []
  rw [hu]
  exact hr

end Interaction
