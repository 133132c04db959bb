import Mathlib.Tactic.Common

/-!
Sequential programs that talk to an environment, as trees of calls.

A program owns no state of its own beyond its continuation: every effect is a
call, and every answer to it is the environment's. What the environment may
answer, and how the answered call changes the world, is a separate relation,
so the same program is read against an unconstrained environment, against a
memory, or as one thread among others.

The weakest precondition carries a permission on calls as well as the effect
relation. With the permission always granted it is the usual one for partial
correctness; with a thread's own resource as the world it is a usage
discipline that other threads cannot invalidate.
-/

namespace Interaction

structure Signature where
  Call : Type
  Answer : Call → Type

inductive Prog (S : Signature) (α : Type) : Type where
  | done (result : α)
  | call (c : S.Call) (next : S.Answer c → Prog S α)

namespace Prog

variable {S : Signature} {α β γ : Type}

def bind : Prog S α → (α → Prog S β) → Prog S β
  | .done a, f => f a
  | .call c next, f => .call c (fun x => (next x).bind f)

instance : Monad (Prog S) where
  pure := .done
  bind := bind

def request (c : S.Call) : Prog S (S.Answer c) := .call c .done

@[simp] theorem pure_eq (a : α) : (pure a : Prog S α) = .done a := rfl

@[simp] theorem done_bind (a : α) (f : α → Prog S β) : (Prog.done a >>= f) = f a := rfl

@[simp] theorem call_bind (c : S.Call) (next : S.Answer c → Prog S α) (f : α → Prog S β) :
    (Prog.call c next >>= f) = .call c (fun x => next x >>= f) := rfl

@[simp] theorem request_bind (c : S.Call) (f : S.Answer c → Prog S β) :
    (request c >>= f) = .call c f := rfl

end Prog

/-- A loop body either asks for the next iteration or leaves the loop. -/
inductive Flow (σ : Type) where
  | next (state : σ)
  | stop (state : σ)

/-- `for (i = start; i < start + count; ++i)` with `break`. -/
def forLoop {S : Signature} {σ : Type} (body : Nat → σ → Prog S (Flow σ)) :
    (count start : Nat) → σ → Prog S σ
  | 0, _, s => pure s
  | count + 1, i, s => do
      match ← body i s with
      | .next s => forLoop body count (i + 1) s
      | .stop s => pure s

/-- A translation of calls, with the answers read back. -/
structure Signature.Hom (S T : Signature) where
  call : S.Call → T.Call
  answer : (c : S.Call) → T.Answer (call c) → S.Answer c

def Prog.embed {S T : Signature} {α : Type} (h : S.Hom T) : Prog S α → Prog T α
  | .done a => .done a
  | .call c next => .call (h.call c) (fun x => (next (h.answer c x)).embed h)

/-- Every call is replaced by the program that implements it. -/
def Prog.expand {S T : Signature} {α : Type} (impl : (c : S.Call) → Prog T (S.Answer c)) :
    Prog S α → Prog T α
  | .done a => .done a
  | .call c next => impl c >>= fun x => (next x).expand impl

theorem Prog.bind_assoc {S : Signature} {α β γ : Type} (p : Prog S α) (f : α → Prog S β)
    (g : β → Prog S γ) : (p >>= f) >>= g = p >>= fun a => f a >>= g := by
  induction p with
  | done a => rfl
  | call c next ih =>
      simp only [call_bind]
      exact congrArg (Prog.call c) (funext ih)

theorem Prog.expand_bind {S T : Signature} {α β : Type}
    (impl : (c : S.Call) → Prog T (S.Answer c)) (p : Prog S α) (f : α → Prog S β) :
    (p >>= f).expand impl = p.expand impl >>= fun a => (f a).expand impl := by
  induction p with
  | done a => rfl
  | call c next ih =>
      simp only [call_bind, expand, bind_assoc, ih]

/-- Calls that implement themselves are left alone. -/
theorem Prog.expand_embed {R S : Signature} {α : Type} {impl : (c : S.Call) → Prog S (S.Answer c)}
    {h : R.Hom S} (himpl : ∀ c, impl (h.call c) = request (h.call c)) (p : Prog R α) :
    (p.embed h).expand impl = p.embed h := by
  induction p with
  | done a => rfl
  | call c next ih =>
      simp only [embed, expand, himpl, request_bind, ih]

variable {S : Signature} {W α β : Type}

/-- How an answered call takes one world to the next. -/
abbrev Effect (S : Signature) (W : Type) := W → (c : S.Call) → S.Answer c → W → Prop

/-- The runs of a program: the answers are whatever the effect admits. -/
def Exec (effect : Effect S W) : Prog S α → W → α → W → Prop
  | .done a, w, r, w' => r = a ∧ w' = w
  | .call c next, w, r, w' => ∃ x w₁, effect w c x w₁ ∧ Exec effect (next x) w₁ r w'

/-- The program run against an environment that answers from the world, or does not answer. -/
def Prog.perform (env : W → (c : S.Call) → Option (S.Answer c × W)) :
    Prog S α → W → Option (α × W)
  | .done a, w => some (a, w)
  | .call c next, w => (env w c).bind fun y => (next y.1).perform env y.2

/-- What a performance passes, some run does. -/
theorem Prog.perform_exec {effect : Effect S W} {env : W → (c : S.Call) → Option (S.Answer c × W)}
    (henv : ∀ w c y, env w c = some y → effect w c y.1 y.2) (p : Prog S α) {w : W}
    {P : α × W → Bool} (h : (p.perform env w).any P = true) :
    ∃ r w', Exec effect p w r w' ∧ P (r, w') = true := by
  induction p generalizing w with
  | done a => exact ⟨a, w, ⟨rfl, rfl⟩, h⟩
  | call c next ih =>
      cases hy : env w c with
      | none => simp [perform, hy] at h
      | some y =>
          obtain ⟨r, w', hrun, hcheck⟩ := ih y.1 (by simpa [perform, hy] using h)
          exact ⟨r, w', ⟨y.1, y.2, henv w c y hy, hrun⟩, hcheck⟩

def wp (allowed : W → S.Call → Prop) (effect : Effect S W) :
    Prog S α → (α → W → Prop) → W → Prop
  | .done a, Q, w => Q a w
  | .call c next, Q, w =>
      allowed w c ∧ ∀ x w', effect w c x w' → wp allowed effect (next x) Q w'

section Rules

variable {allowed : W → S.Call → Prop} {effect : Effect S W}

@[simp] theorem wp_call (c : S.Call) (next : S.Answer c → Prog S α) (Q : α → W → Prop) (w : W) :
    wp allowed effect (.call c next) Q w ↔
      allowed w c ∧ ∀ x w', effect w c x w' → wp allowed effect (next x) Q w' := Iff.rfl

theorem wp_mono (p : Prog S α) {Q R : α → W → Prop} {w : W}
    (h : wp allowed effect p Q w) (hQR : ∀ a w, Q a w → R a w) :
    wp allowed effect p R w := by
  induction p generalizing w with
  | done a => exact hQR a w h
  | call c next ih => exact ⟨h.1, fun x w' he => ih x (h.2 x w' he)⟩

theorem wp_and (p : Prog S α) {Q R : α → W → Prop} {w : W} (hQ : wp allowed effect p Q w)
    (hR : wp allowed effect p R w) : wp allowed effect p (fun a w => Q a w ∧ R a w) w := by
  induction p generalizing w with
  | done a => exact ⟨hQ, hR⟩
  | call c next ih => exact ⟨hQ.1, fun x w' he => ih x (hQ.2 x w' he) (hR.2 x w' he)⟩

theorem wp_true (p : Prog S α) (w : W) : wp (fun _ _ => True) effect p (fun _ _ => True) w := by
  induction p generalizing w with
  | done a => trivial
  | call c next ih => exact ⟨trivial, fun x w' _ => ih x w'⟩

@[simp] theorem wp_bind (p : Prog S α) (f : α → Prog S β) (Q : β → W → Prop) (w : W) :
    wp allowed effect (p >>= f) Q w ↔
      wp allowed effect p (fun a w => wp allowed effect (f a) Q w) w := by
  induction p generalizing w with
  | done a => rfl
  | call c next ih =>
      simp only [Prog.call_bind, wp_call]
      exact and_congr_right fun _ => forall_congr' fun x => forall_congr' fun w' =>
        imp_congr_right fun _ => ih x w'

/-- A call, and what is done with its answer. -/
theorem wp_request_bind {c : S.Call} {f : S.Answer c → Prog S β} {Q : β → W → Prop} {w : W}
    (hc : allowed w c) (h : ∀ x w', effect w c x w' → wp allowed effect (f x) Q w') :
    wp allowed effect (Prog.request c >>= f) Q w := ⟨hc, h⟩

/-- Adequacy: every run of the program ends in its postcondition. -/
theorem wp_exec (p : Prog S α) {Q : α → W → Prop} {w w' : W} {r : α}
    (h : wp allowed effect p Q w) (run : Exec effect p w r w') : Q r w' := by
  induction p generalizing w with
  | done a =>
      obtain ⟨rfl, rfl⟩ := run
      exact h
  | call c next ih =>
      obtain ⟨x, w₁, he, hr⟩ := run
      exact ih x (h.2 x w₁ he) hr

/-- The loop rule. `I i s` holds at the head of iteration `i`; `J` is what a
`break` establishes. -/
theorem wp_forLoop {σ : Type} (body : Nat → σ → Prog S (Flow σ))
    (I : Nat → σ → W → Prop) (J : σ → W → Prop) (count start : Nat)
    (step : ∀ i s w, start ≤ i → i < start + count → I i s w →
      wp allowed effect (body i s)
        (fun f w => match f with | .next s => I (i + 1) s w | .stop s => J s w) w)
    {s : σ} {w : W} (h : I start s w) :
    wp allowed effect (forLoop body count start s)
      (fun s w => I (start + count) s w ∨ J s w) w := by
  induction count generalizing start s w with
  | zero => exact Or.inl h
  | succ count ih =>
      simp only [forLoop, wp_bind]
      refine wp_mono _ (step start s w (Nat.le_refl _) (by omega) h) ?_
      intro f w' hf
      cases f with
      | stop s' => exact Or.inr hf
      | next s' =>
          have tail := ih (start + 1) (fun i s w lo hi => step i s w (by omega) (by omega)) hf
          simpa only [Nat.add_assoc, Nat.add_comm 1] using tail

end Rules

end Interaction
