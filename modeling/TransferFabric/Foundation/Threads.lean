import TransferFabric.Foundation.Trace
import Mathlib.Algebra.BigOperators.Intervals
import Mathlib.Logic.Relation
import Mathlib.Logic.Function.Basic

/-!
Threads over a shared world. A thread is a program; one step of a pool answers
the next call of one thread, or starts another thread. Nothing is said about
which thread goes next.

Reasoning is local to a thread. A discipline gives every thread a view, says
which calls a view permits and how an answered call changes it, and couples the
views with the world. A program is then verified alone, by the weakest
precondition over its own view, and what the other threads do in between cannot
invalidate it, because it does not touch the view. The coupling is checked once
per call and not once per program point.
-/

namespace Interaction

open Relation

variable {S T : Signature} {W L α : Type}

structure Pool (S : Signature) (W α : Type) where
  world : W
  threads : List (Prog S α)

inductive Pool.Step (effect : Nat → Effect S W) (spawn : W → Prog S α → W → Prop) :
    Pool S W α → Pool S W α → Prop
  | act {p : Pool S W α} {i : Nat} {c : S.Call} {next : S.Answer c → Prog S α} {x : S.Answer c}
      {w' : W} (hi : p.threads[i]? = some (.call c next)) (he : effect i p.world c x w') :
      Step effect spawn p ⟨w', p.threads.set i (next x)⟩
  | start {p : Pool S W α} {prog : Prog S α} {w' : W} (hs : spawn p.world prog w') :
      Step effect spawn p ⟨w', p.threads ++ [prog]⟩

/-- The next call of thread `i` is answered by a function of the world. -/
def Pool.act (env : Nat → W → (c : S.Call) → S.Answer c × W) (p : Pool S W α) (i : Nat) :
    Pool S W α :=
  match p.threads[i]? with
  | some (.call c next) => ⟨(env i p.world c).2, p.threads.set i (next (env i p.world c).1)⟩
  | _ => p

/-- The threads go on in the order of the schedule. -/
def Pool.play (env : Nat → W → (c : S.Call) → S.Answer c × W) (p : Pool S W α)
    (schedule : List Nat) : Pool S W α := schedule.foldl (Pool.act env) p

/-- If the answers are possible, a schedule is a run. -/
theorem Pool.play_runs {effect : Nat → Effect S W} {spawn : W → Prog S α → W → Prop}
    {env : Nat → W → (c : S.Call) → S.Answer c × W}
    (henv : ∀ i w c, effect i w c (env i w c).1 (env i w c).2) (p : Pool S W α)
    (schedule : List Nat) : ReflTransGen (Pool.Step effect spawn) p (p.play env schedule) := by
  induction schedule generalizing p with
  | nil => exact .refl
  | cons i schedule ih =>
      refine ReflTransGen.trans ?_ (ih (p.act env i))
      unfold Pool.act
      split
      · rename_i c next hi
        exact .single (.act hi (henv i p.world c))
      · exact .refl

/-- The call thread `i` is about to make. -/
def Pool.nextCall (p : Pool S W α) (i : Nat) : Option S.Call :=
  match p.threads[i]? with
  | some (.call c _) => some c
  | _ => none

theorem Pool.exists_of_nextCall {p : Pool S W α} {i : Nat} {c : S.Call}
    (h : p.nextCall i = some c) : ∃ next, p.threads[i]? = some (.call c next) := by
  unfold Pool.nextCall at h
  split at h
  · rename_i c' next hi
    cases h
    exact ⟨next, hi⟩
  · cases h

/-- How the threads of a pool are verified one at a time. `Coupled w l n` relates
the world to the views of the `n` threads started so far. -/
structure Discipline (effect : Nat → Effect S W) (spawn : W → Prog S α → W → Prop)
    (L : Type) where
  allowed : L → S.Call → Prop
  view : Effect S L
  post : α → L → Prop
  Coupled : W → (Nat → L) → Nat → Prop
  act : ∀ {w w' : W} {l : Nat → L} {n i : Nat} {c : S.Call} {x : S.Answer c},
    Coupled w l n → i < n → allowed (l i) c → effect i w c x w' →
      ∃ m, view (l i) c x m ∧ Coupled w' (Function.update l i m) n
  start : ∀ {w w' : W} {l : Nat → L} {n : Nat} {prog : Prog S α},
    Coupled w l n → spawn w prog w' →
      ∃ m, wp allowed view prog post m ∧ Coupled w' (Function.update l n m) (n + 1)

namespace Discipline

variable {effect : Nat → Effect S W} {spawn : W → Prog S α → W → Prop}
  (d : Discipline effect spawn L)

/-- The views couple with the world, and every thread keeps to its own. -/
def Holds (p : Pool S W α) (l : Nat → L) : Prop :=
  d.Coupled p.world l p.threads.length ∧
    ∀ i prog, p.threads[i]? = some prog → wp d.allowed d.view prog d.post (l i)

variable {d} {p p' : Pool S W α} {l : Nat → L}

theorem Holds.allowed {i : Nat} {c : S.Call} {next : S.Answer c → Prog S α} (h : d.Holds p l)
    (hi : p.threads[i]? = some (.call c next)) : d.allowed (l i) c :=
  (h.2 i _ hi).1

theorem Holds.returned {i : Nat} {a : α} (h : d.Holds p l)
    (hi : p.threads[i]? = some (.done a)) : d.post a (l i) :=
  h.2 i _ hi

theorem Holds.step (h : d.Holds p l) (hs : Pool.Step effect spawn p p') :
    ∃ l', d.Holds p' l' := by
  cases hs with
  | @act i c next x w' hi he =>
      have hlen : i < p.threads.length := (List.getElem?_eq_some_iff.mp hi).1
      obtain ⟨hallowed, hnext⟩ := h.2 i _ hi
      obtain ⟨m, hview, hcoupled⟩ := d.act h.1 hlen hallowed he
      refine ⟨Function.update l i m, by simpa using hcoupled, ?_⟩
      intro j prog hj
      by_cases hji : j = i
      · subst hji
        rw [List.getElem?_set_self hlen, Option.some_inj] at hj
        rw [← hj, Function.update_self]
        exact hnext x m hview
      · rw [List.getElem?_set_ne (Ne.symm hji)] at hj
        rw [Function.update_of_ne hji]
        exact h.2 j prog hj
  | @start prog w' hsp =>
      obtain ⟨m, hwp, hcoupled⟩ := d.start h.1 hsp
      refine ⟨Function.update l p.threads.length m, by simpa using hcoupled, ?_⟩
      intro j prog' hj
      rcases Nat.lt_trichotomy j p.threads.length with hlt | rfl | hgt
      · rw [List.getElem?_append_left hlt] at hj
        rw [Function.update_of_ne (Nat.ne_of_lt hlt)]
        exact h.2 j prog' hj
      · rw [List.getElem?_concat_length, Option.some_inj] at hj
        rw [← hj, Function.update_self]
        exact hwp
      · rw [List.getElem?_eq_none (by rw [List.length_append]; exact hgt)] at hj
        cases hj

/-- In every state a pool reaches, views couple with the world. -/
theorem sound (h₀ : d.Holds p l) (hr : ReflTransGen (Pool.Step effect spawn) p p') :
    ∃ l', d.Holds p' l' := by
  induction hr with
  | refl => exact ⟨l, h₀⟩
  | tail _ hstep ih =>
      obtain ⟨l', h'⟩ := ih
      exact h'.step hstep

end Discipline

/-! What a thread has done is a part of a run of its program. -/

/-- Answered along the trace, the first program becomes the second. -/
def Follows : Trace S → Prog S α → Prog S α → Prop
  | [], p, q => p = q
  | _ :: _, .done _, _ => False
  | ev :: t, .call c next, q => ∃ x, ev = ⟨c, x⟩ ∧ Follows t (next x) q

theorem follows_done {p : Prog S α} {t : Trace S} {a : α} (h : Follows t p (.done a)) :
    Runs p a t := by
  induction t generalizing p with
  | nil =>
      cases p with
      | done b =>
          cases h
          exact ⟨rfl, rfl⟩
      | call c next => cases h
  | cons ev t ih =>
      cases p with
      | done b => cases h
      | call c next =>
          obtain ⟨x, rfl, h⟩ := h
          exact ⟨x, t, rfl, ih h⟩

/-- A thread is at the first call of its program, or that call has been answered. -/
theorem Follows.head {c : S.Call} {next : S.Answer c → Prog S α} {t : Trace S} {q : Prog S α}
    (h : Follows t (.call c next) q) :
    (t = [] ∧ q = .call c next) ∨ ∃ x u, t = ⟨c, x⟩ :: u ∧ Follows u (next x) q := by
  cases t with
  | nil => exact Or.inl ⟨rfl, h.symm⟩
  | cons ev u =>
      obtain ⟨x, rfl, h⟩ := h
      exact Or.inr ⟨x, u, rfl, h⟩

theorem Follows.over {a : α} {t : Trace S} {q : Prog S α} (h : Follows t (.done a) q) :
    t = [] ∧ q = .done a := by
  cases t with
  | nil => exact ⟨rfl, h.symm⟩
  | cons ev u => cases h

theorem Follows.unique {p q q' : Prog S α} {t : Trace S} (h : Follows t p q)
    (h' : Follows t p q') : q = q' := by
  induction t generalizing p with
  | nil => exact h.symm.trans h'
  | cons ev t ih =>
      cases p with
      | done a => cases h
      | call c next =>
          obtain ⟨x, rfl, h⟩ := h
          obtain ⟨x', hx, h'⟩ := h'
          cases hx
          exact ih h h'

theorem Follows.concat {p : Prog S α} {t : Trace S} {c : S.Call} {next : S.Answer c → Prog S α}
    (h : Follows t p (.call c next)) (x : S.Answer c) : Follows (t ++ [⟨c, x⟩]) p (next x) := by
  induction t generalizing p with
  | nil =>
      cases h
      exact ⟨x, rfl, rfl⟩
  | cons ev t ih =>
      cases p with
      | done b => cases h
      | call c' next' =>
          obtain ⟨y, rfl, h⟩ := h
          exact ⟨y, rfl, ih h⟩

theorem Follows.split {p q : Prog S α} {t u : Trace S} (h : Follows (t ++ u) p q) :
    ∃ m, Follows t p m ∧ Follows u m q := by
  induction t generalizing p with
  | nil => exact ⟨p, rfl, h⟩
  | cons ev t ih =>
      cases p with
      | done b => cases h
      | call c next =>
          obtain ⟨x, rfl, h⟩ := h
          obtain ⟨m, ht, hu⟩ := ih h
          exact ⟨m, ⟨x, rfl, ht⟩, hu⟩

theorem follows_of_runs {p : Prog S α} {a : α} {t : Trace S} (h : Runs p a t) :
    Follows t p (.done a) := by
  induction p generalizing t with
  | done b =>
      obtain ⟨rfl, rfl⟩ := h
      rfl
  | call c next ih =>
      obtain ⟨x, rest, rfl, h⟩ := h
      exact ⟨x, rfl, ih x h⟩

/-- A world that remembers which programs were started and what each thread did. -/
structure Memory (effect : Nat → Effect S W) (spawn : W → Prog S α → W → Prop) where
  past : W → Nat → Trace S
  begun : W → List (Prog S α)
  act : ∀ {w w' : W} {i : Nat} {c : S.Call} {x : S.Answer c}, effect i w c x w' →
    past w' = Function.update (past w) i (past w i ++ [⟨c, x⟩]) ∧ begun w' = begun w
  start : ∀ {w w' : W} {prog : Prog S α}, spawn w prog w' →
    past w' = past w ∧ begun w' = begun w ++ [prog]

/-- Every thread is where its program gets by what the thread did. -/
structure Memory.Kept {effect : Nat → Effect S W} {spawn : W → Prog S α → W → Prop}
    (g : Memory effect spawn) (p : Pool S W α) : Prop where
  length : (g.begun p.world).length = p.threads.length
  follows : ∀ i q, p.threads[i]? = some q →
    ∃ prog, (g.begun p.world)[i]? = some prog ∧ Follows (g.past p.world i) prog q
  silent : ∀ i ≥ p.threads.length, g.past p.world i = []

theorem Memory.Kept.step {effect : Nat → Effect S W} {spawn : W → Prog S α → W → Prop}
    {g : Memory effect spawn} {p p' : Pool S W α} (h : g.Kept p)
    (hs : Pool.Step effect spawn p p') : g.Kept p' := by
  cases hs with
  | @act i c next x w' hi he =>
      obtain ⟨hpast, hbegun⟩ := g.act he
      have hlen : i < p.threads.length := (List.getElem?_eq_some_iff.mp hi).1
      refine ⟨by rw [hbegun, List.length_set, h.length], ?_, ?_⟩
      · intro j q hj
        rw [hpast, hbegun]
        by_cases hji : j = i
        · subst hji
          rw [List.getElem?_set_self hlen, Option.some_inj] at hj
          obtain ⟨prog, hprog, hfollows⟩ := h.follows j _ hi
          rw [← hj, Function.update_self]
          exact ⟨prog, hprog, hfollows.concat x⟩
        · rw [List.getElem?_set_ne (Ne.symm hji)] at hj
          rw [Function.update_of_ne hji]
          exact h.follows j q hj
      · intro j hj
        have hj : p.threads.length ≤ j := by simpa using hj
        rw [hpast, Function.update_of_ne (by omega)]
        exact h.silent j hj
  | @start prog w' hsp =>
      obtain ⟨hpast, hbegun⟩ := g.start hsp
      refine ⟨by simp [hbegun, h.length], ?_, ?_⟩
      · intro j q hj
        rw [hpast, hbegun]
        rcases Nat.lt_trichotomy j p.threads.length with hlt | rfl | hgt
        · rw [List.getElem?_append_left hlt] at hj
          rw [List.getElem?_append_left (by rw [h.length]; exact hlt)]
          exact h.follows j q hj
        · rw [List.getElem?_concat_length, Option.some_inj] at hj
          rw [← hj, ← h.length, List.getElem?_concat_length, h.silent _ (Nat.le_of_eq h.length.symm)]
          exact ⟨prog, rfl, rfl⟩
        · rw [List.getElem?_eq_none (by rw [List.length_append]; exact hgt)] at hj
          cases hj
      · intro j hj
        have hj : p.threads.length + 1 ≤ j := by simpa using hj
        rw [hpast]
        exact h.silent j (by omega)

theorem Memory.Kept.run {effect : Nat → Effect S W} {spawn : W → Prog S α → W → Prop}
    {g : Memory effect spawn} {p p' : Pool S W α} (h : g.Kept p)
    (hr : ReflTransGen (Pool.Step effect spawn) p p') : g.Kept p' := by
  induction hr with
  | refl => exact h
  | tail _ hstep ih => exact ih.step hstep

/-- A quantity of the world that every call moves by its weight is the sum of the weights of
what the threads have done. -/
theorem Memory.sum_run {M : Type} [AddCommMonoid M] {effect : Nat → Effect S W}
    {spawn : W → Prog S α → W → Prop} (g : Memory effect spawn) (read : W → M)
    (weight : Event S → M)
    (hact : ∀ {w w' : W} {i : Nat} {c : S.Call} {x : S.Answer c}, effect i w c x w' →
      read w' = read w + weight ⟨c, x⟩)
    (hstart : ∀ {w w' : W} {prog : Prog S α}, spawn w prog w' → read w' = read w)
    {p p' : Pool S W α} (hkept : g.Kept p) (hnone : p.threads = []) (hzero : read p.world = 0)
    (hr : ReflTransGen (Pool.Step effect spawn) p p') :
    read p'.world =
      ∑ i ∈ Finset.range p'.threads.length, ((g.past p'.world i).map weight).sum := by
  induction hr with
  | refl => simp [hnone, hzero]
  | @tail p₁ p₂ hrun hstep ih =>
      have hkept₁ := hkept.run hrun
      cases hstep with
      | @act i c next x w' hi he =>
          have hmem : i ∈ Finset.range p₁.threads.length :=
            Finset.mem_range.mpr (List.getElem?_eq_some_iff.mp hi).1
          rw [hact he, ih, (g.act he).1, List.length_set, ← Finset.add_sum_erase _ _ hmem,
            ← Finset.add_sum_erase _ _ hmem, Function.update_self, List.map_append, List.sum_append,
            List.map_singleton, List.sum_singleton, add_right_comm]
          refine congrArg _ (Finset.sum_congr rfl fun j hj => ?_)
          rw [Function.update_of_ne (Finset.ne_of_mem_erase hj)]
      | @start prog w' hsp =>
          rw [hstart hsp, ih, (g.start hsp).1, List.length_append, List.length_singleton,
            Finset.sum_range_succ, hkept₁.silent _ (Nat.le_refl _), List.map_nil, List.sum_nil,
            add_zero]

/-! Rules for the programs of a thread. -/

section Rules

variable {allowed : L → S.Call → Prop} {effect : Effect S L}

/-- What holds of a program holds of what is left of it. -/
theorem wp_follows {p q : Prog S α} {Q : α → L → Prop} {t : Trace S} {m m' : L}
    (h : wp allowed effect p Q m) (hf : Follows t p q) (hpath : Path effect m t m') :
    wp allowed effect q Q m' := by
  induction t generalizing p m with
  | nil =>
      cases hf
      cases hpath
      exact h
  | cons ev t ih =>
      cases p with
      | done b => cases hf
      | call c next =>
          obtain ⟨x, rfl, hf⟩ := hf
          obtain ⟨m₁, he, hpath⟩ := hpath
          exact ih (h.2 x m₁ he) hf hpath

/-- The calls a program has made and their answers. -/
def recording : Effect S (Trace S) := fun t c x t' => t' = t ++ [⟨c, x⟩]

theorem path_recording (t u : Trace S) : Path recording t u (t ++ u) := by
  induction u generalizing t with
  | nil => exact List.append_nil t
  | cons ev u ih =>
      refine ⟨t ++ [ev], rfl, ?_⟩
      simpa using ih (t ++ [ev])

/-- What is true of the record of a program at every call and at its end is true of it at any
time. -/
theorem wp_recorded {p q : Prog S α} {I : Trace S → Prop} {t : Trace S}
    (h : wp (fun t _ => I t) recording p (fun _ => I) []) (hf : Follows t p q) : I t := by
  have hrest := wp_follows h hf (path_recording [] t)
  cases q with
  | done a => exact hrest
  | call c next => exact hrest.1

/-- Calls made through a translation obey the discipline of the translated calls. -/
theorem wp_embed (h : T.Hom S) (p : Prog T α) (Q : α → L → Prop) (m : L) :
    wp allowed effect (p.embed h) Q m ↔
      wp (fun m c => allowed m (h.call c))
        (fun m c x m' => ∃ y, h.answer c y = x ∧ effect m (h.call c) y m') p Q m := by
  induction p generalizing m with
  | done a => rfl
  | call c next ih =>
      refine and_congr_right fun _ => ⟨?_, ?_⟩
      · rintro hall x m' ⟨y, rfl, he⟩
        exact (ih _ m').mp (hall y m' he)
      · intro hall y m' he
        exact (ih _ m').mpr (hall _ m' ⟨y, rfl, he⟩)

/-- Two accounts of a program, over two parts of the state, are one account of it. -/
theorem wp_join (effect : Effect S L) {M N : Type} {permits : M → S.Call → Prop} {other : N → S.Call → Prop}
    {step : Effect S M} {step' : Effect S N} (f : L → M) (g : L → N)
    (hstep : ∀ m c x m', effect m c x m' → step (f m) c x (f m') ∧ step' (g m) c x (g m'))
    {p : Prog S α} {Q : α → M → Prop} {R : α → N → Prop} {m : L}
    (h : wp permits step p Q (f m)) (h' : wp other step' p R (g m)) :
    wp (fun m c => permits (f m) c ∧ other (g m) c) effect p (fun a m => Q a (f m) ∧ R a (g m)) m := by
  induction p generalizing m with
  | done a => exact ⟨h, h'⟩
  | call c next ih =>
      refine ⟨⟨h.1, h'.1⟩, fun x m' he => ?_⟩
      obtain ⟨hs, hs'⟩ := hstep m c x m' he
      exact ih x (h.2 x _ hs) (h'.2 x _ hs')

/-- What every call keeps may be used where permissions are checked and at the end. -/
theorem wp_keeping {permits : L → S.Call → Prop} {I : L → Prop}
    (hI : ∀ m c x m', I m → effect m c x m' → I m') {p : Prog S α} {Q R : α → L → Prop} {m : L}
    (h : wp allowed effect p Q m) (hm : I m) (hpermits : ∀ m c, I m → allowed m c → permits m c)
    (hQR : ∀ a m, I m → Q a m → R a m) : wp permits effect p R m := by
  induction p generalizing m with
  | done a => exact hQR a m hm h
  | call c next ih =>
      exact ⟨hpermits m c hm h.1, fun x m' he => ih x (h.2 x m' he) (hI m c x m' hm he)⟩

theorem exists_runs [∀ c, Nonempty (S.Answer c)] (p : Prog S α) : ∃ r t, Runs p r t := by
  induction p with
  | done a => exact ⟨a, [], rfl, rfl⟩
  | call c next ih =>
      obtain ⟨x⟩ := (inferInstance : Nonempty (S.Answer c))
      obtain ⟨r, t, h⟩ := ih x
      exact ⟨r, ⟨c, x⟩ :: t, x, t, rfl, h⟩

/-- A program whose traces are known is verified along them: `I t` is what the
view looks like after the calls of `t`. -/
theorem wp_of_runs [∀ c, Nonempty (S.Answer c)] (p : Prog S α) {Q : α → L → Prop} {m : L}
    (I : Trace S → L → Prop) (h₀ : I [] m)
    (call : ∀ t c m, (∃ x u r, Runs p r (t ++ ⟨c, x⟩ :: u)) → I t m →
      allowed m c ∧ ∀ x m', effect m c x m' → I (t ++ [⟨c, x⟩]) m')
    (done : ∀ r t m, Runs p r t → I t m → Q r m) : wp allowed effect p Q m := by
  suffices h : ∀ (q : Prog S α) t m, (∀ r u, Runs q r u → Runs p r (t ++ u)) → I t m →
      wp allowed effect q Q m from h p [] m (fun _ _ hr => hr) h₀
  intro q
  induction q with
  | done a =>
      intro t m hq hI
      exact done a t m (by simpa using hq a [] ⟨rfl, rfl⟩) hI
  | call c next ih =>
      intro t m hq hI
      obtain ⟨x₀⟩ := (inferInstance : Nonempty (S.Answer c))
      obtain ⟨r₀, u₀, h₀⟩ := exists_runs (next x₀)
      obtain ⟨hallowed, hnext⟩ :=
        call t c m ⟨x₀, u₀, r₀, hq r₀ _ ⟨x₀, u₀, rfl, h₀⟩⟩ hI
      refine ⟨hallowed, fun x m' he => ih x (t ++ [⟨c, x⟩]) m' ?_ (hnext x m' he)⟩
      intro r u hr
      rw [List.append_assoc]
      exact hq r _ ⟨x, u, rfl, hr⟩

end Rules

/-! Facts about all threads after one view has changed or one thread has started. -/

theorem forall_update {P : Nat → L → Prop} {l : Nat → L} {n i : Nat} {m : L} (hi : P i m)
    (hne : ∀ j < n, j ≠ i → P j (l j)) : ∀ j < n, P j (Function.update l i m j) := by
  intro j hj
  by_cases hji : j = i
  · subst hji
    rwa [Function.update_self]
  · rw [Function.update_of_ne hji]
    exact hne j hj hji

theorem forall_start {P : Nat → L → Prop} {l : Nat → L} {n : Nat} {m : L} (hn : P n m)
    (hlt : ∀ j < n, P j (l j)) : ∀ j < n + 1, P j (Function.update l n m j) :=
  forall_update hn fun j hj hne => hlt j (Nat.lt_of_le_of_ne (Nat.le_of_lt_succ hj) hne)

/-! Counting threads by what their views show. -/

/-- How many of the first `n` views pass a test. -/
def tally (test : L → Bool) (l : Nat → L) (n : Nat) : Nat :=
  (List.range n).countP fun i => test (l i)

theorem tally_succ (test : L → Bool) (l : Nat → L) (n : Nat) :
    tally test l (n + 1) = tally test l n + (test (l n)).toNat := by
  unfold tally
  rw [List.range_succ, List.countP_append, List.countP_singleton]
  cases test (l n) <;> rfl

theorem tally_congr {test test' : L → Bool} {l : Nat → L} {n : Nat}
    (h : ∀ i < n, test (l i) = test' (l i)) : tally test l n = tally test' l n :=
  List.countP_congr fun i hi => by rw [h i (List.mem_range.mp hi)]

/-- A count as a sum, for tests that add up thread by thread. -/
theorem tally_eq_sum (test : L → Bool) (l : Nat → L) (n : Nat) :
    tally test l n = ∑ i ∈ Finset.range n, (test (l i)).toNat := by
  induction n with
  | zero => rfl
  | succ n ih => rw [tally_succ, Finset.sum_range_succ, ih]

theorem tally_of_ge (test : L → Bool) (l : Nat → L) {n i : Nat} (hi : n ≤ i) (m : L) :
    tally test (Function.update l i m) n = tally test l n := by
  refine List.countP_congr fun j hj => ?_
  have hj := List.mem_range.mp hj
  rw [Function.update_of_ne (by omega)]

theorem tally_start (test : L → Bool) (l : Nat → L) (n : Nat) (m : L) :
    tally test (Function.update l n m) (n + 1) = tally test l n + (test m).toNat := by
  rw [tally_succ, tally_of_ge test l (Nat.le_refl n), Function.update_self]

/-- A change of one view moves the count by what that view contributes. -/
theorem tally_update (test : L → Bool) (l : Nat → L) {n i : Nat} (hi : i < n) (m : L) :
    tally test (Function.update l i m) n + (test (l i)).toNat =
      tally test l n + (test m).toNat := by
  induction n with
  | zero => omega
  | succ n ih =>
      rw [tally_succ, tally_succ]
      by_cases hin : i = n
      · subst hin
        rw [tally_of_ge test l (Nat.le_refl i), Function.update_self]
        omega
      · rw [Function.update_of_ne (Ne.symm hin)]
        have := ih (by omega)
        omega

theorem tally_same (test : L → Bool) (l : Nat → L) {n i : Nat} (hi : i < n) {m : L}
    (hm : test m = test (l i)) : tally test (Function.update l i m) n = tally test l n := by
  have := tally_update test l hi m
  rw [hm] at this
  omega

theorem tally_rises (test : L → Bool) (l : Nat → L) {n i : Nat} (hi : i < n) {m : L}
    (hold : test (l i) = false) :
    tally test (Function.update l i m) n = tally test l n + (test m).toNat := by
  have := tally_update test l hi m
  rwa [hold] at this

end Interaction
