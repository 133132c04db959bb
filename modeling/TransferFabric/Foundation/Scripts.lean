import TransferFabric.Foundation.Threads

/-!
What a program shows of itself. An observation names the events of a trace that
matter; the script of a run is the list of what is observed of it, in order. A
program is described by the scripts of its runs, however its calls are answered,
and in the middle of a run the beginning of a script has been shown.
Where the order does not matter, it is enough to know which calls a program can
make at all.
-/

namespace Interaction

variable {S T : Signature} {W M α β σ : Type}

/-- Observed events are noted in order. -/
def noting (obs : Event S → Option M) : Effect S (List M) := fun m c x m' =>
  m' = m ++ (obs ⟨c, x⟩).toList

/-- Every run that starts with the notes `m` ends with notes in `Q`. -/
def Notes (obs : Event S → Option M) (p : Prog S α) (Q : α → List M → Prop) (m : List M) : Prop :=
  wp (fun _ _ => True) (noting obs) p Q m

/-- Nothing is observed of the program. -/
def Quiet (obs : Event S → Option M) (p : Prog S α) : Prop :=
  ∀ m, Notes obs p (fun _ m' => m' = m) m

section Rules

variable {obs : Event S → Option M} {p : Prog S α} {f : α → Prog S β} {m : List M}

theorem Notes.mono {Q R : α → List M → Prop} (h : Notes obs p Q m)
    (hQR : ∀ a m, Q a m → R a m) : Notes obs p R m := wp_mono p h hQR

theorem notes_bind {Q : β → List M → Prop} (h : Notes obs p (fun a => Notes obs (f a) Q) m) :
    Notes obs (p >>= f) Q m := (wp_bind p f Q m).mpr h

theorem notes_request_bind (c : S.Call) {next : S.Answer c → Prog S β} {Q : β → List M → Prop}
    (h : ∀ x, Notes obs (next x) Q (m ++ (obs ⟨c, x⟩).toList)) :
    Notes obs (Prog.request c >>= next) Q m := ⟨trivial, fun x _ he => he ▸ h x⟩

theorem notes_pure {a : α} {Q : α → List M → Prop} (h : Q a m) :
    Notes obs (pure a : Prog S α) Q m := h

theorem Quiet.notes {Q : α → List M → Prop} (h : Quiet obs p) (hQ : ∀ a, Q a m) :
    Notes obs p Q m := (h m).mono fun a _ hm => hm ▸ hQ a

theorem Quiet.bind_notes {Q : β → List M → Prop} (h : Quiet obs p)
    (hf : ∀ a, Notes obs (f a) Q m) : Notes obs (p >>= f) Q m := notes_bind (h.notes hf)

theorem quiet_pure (a : α) : Quiet obs (pure a : Prog S α) := fun _ => rfl

theorem quiet_bind (hp : Quiet obs p) (hf : ∀ a, Quiet obs (f a)) : Quiet obs (p >>= f) :=
  fun m => hp.bind_notes fun a => hf a m

theorem quiet_request {c : S.Call} (hc : ∀ x, obs ⟨c, x⟩ = none) :
    Quiet obs (Prog.request c) := by
  intro m
  refine ⟨trivial, fun x m' he => ?_⟩
  rw [noting, hc x] at he
  exact he.trans (List.append_nil m)

end Rules

/-- Every call the program can make passes the test. -/
def Calls (P : S.Call → Prop) : Prog S α → Prop
  | .done _ => True
  | .call c next => P c ∧ ∀ x, Calls P (next x)

section Calls

variable {P P' : S.Call → Prop} {p : Prog S α} {f : α → Prog S β}

theorem calls_pure (a : α) : Calls P (pure a : Prog S α) := trivial

theorem calls_request {c : S.Call} (hc : P c) : Calls P (Prog.request c) := ⟨hc, fun _ => trivial⟩

theorem calls_bind (hp : Calls P p) (hf : ∀ a, Calls P (f a)) : Calls P (p >>= f) := by
  induction p with
  | done a => exact hf a
  | call c next ih => exact ⟨hp.1, fun x => ih x (hp.2 x)⟩

theorem calls_forLoop {body : Nat → σ → Prog S (Flow σ)} (h : ∀ i s, Calls P (body i s))
    (count start : Nat) (s : σ) : Calls P (forLoop body count start s) := by
  induction count generalizing start s with
  | zero => exact calls_pure s
  | succ count ih =>
      refine calls_bind (h start s) fun flow => ?_
      cases flow with
      | next s => exact ih (start + 1) s
      | stop s => exact calls_pure s

theorem calls_all (hP : ∀ c, P c) (p : Prog S α) : Calls P p := by
  induction p with
  | done a => trivial
  | call c next ih => exact ⟨hP c, ih⟩

theorem calls_embed {hom : T.Hom S} {p : Prog T α} (h : Calls (fun c => P (hom.call c)) p) :
    Calls P (p.embed hom) := by
  induction p with
  | done a => trivial
  | call c next ih => exact ⟨h.1, fun x => ih _ (h.2 _)⟩

theorem Calls.mono (h : Calls P p) (hP : ∀ c, P c → P' c) : Calls P' p := by
  induction p with
  | done a => trivial
  | call c next ih => exact ⟨hP c h.1, fun x => ih x (h.2 x)⟩

/-- A program that makes only calls that are always allowed. -/
theorem Calls.wp {W : Type} {allowed : W → S.Call → Prop} {effect : Effect S W} (h : Calls P p)
    (hP : ∀ w c, P c → allowed w c) (w : W) : wp allowed effect p (fun _ _ => True) w := by
  induction p generalizing w with
  | done a => trivial
  | call c next ih => exact ⟨hP w c h.1, fun x w' _ => ih x (h.2 x) w'⟩

/-- The implementations of the calls a program makes keep to a discipline from any view. -/
theorem Calls.wp_expand {L : Type} {allowed : L → T.Call → Prop} {effect : Effect T L}
    {impl : (c : S.Call) → Prog T (S.Answer c)} (h : Calls P p)
    (himpl : ∀ c, P c → ∀ m, Interaction.wp allowed effect (impl c) (fun _ _ => True) m) (m : L) :
    Interaction.wp allowed effect (p.expand impl) (fun _ _ => True) m := by
  induction p generalizing m with
  | done a => trivial
  | call c next ih =>
      rw [Prog.expand, wp_bind]
      exact wp_mono _ (himpl c h.1 m) fun x m' _ => ih x (h.2 x) m'

/-- What every call of the program keeps holds at its end. -/
theorem Calls.wp_invariant {W : Type} {allowed : W → S.Call → Prop} {effect : Effect S W}
    (I : W → Prop) (h : Calls P p) (hallowed : ∀ w c, P c → I w → allowed w c)
    (hstep : ∀ w c x w', P c → I w → effect w c x w' → I w') {w : W} (hI : I w) :
    Interaction.wp allowed effect p (fun _ => I) w := by
  induction p generalizing w with
  | done a => exact hI
  | call c next ih =>
      exact ⟨hallowed w c h.1 hI, fun x w' he => ih x (h.2 x) (hstep w c x w' h.1 hI he)⟩

/-- A discipline kept in views is kept in the worlds that the views see. -/
theorem Calls.wp_simulates {V W : Type} {allowed : V → S.Call → Prop} {view : Effect S V}
    {effect : Effect S W} {Q : α → V → Prop} (R : W → V → Prop) (h : Calls P p)
    (hstep : ∀ w v c x w', P c → R w v → allowed v c → effect w c x w' →
      ∃ v', view v c x v' ∧ R w' v')
    {w : W} {v : V} (hv : Interaction.wp allowed view p Q v) (hR : R w v) :
    Interaction.wp (fun _ _ => True) effect p (fun a w' => ∃ v', R w' v' ∧ Q a v') w := by
  induction p generalizing w v with
  | done a => exact ⟨v, hR, hv⟩
  | call c next ih =>
      refine ⟨trivial, fun x w' he => ?_⟩
      obtain ⟨v', hview, hR'⟩ := hstep w v c x w' h.1 hR hv.1 he
      exact ih x (h.2 x) (hv.2 x v' hview) hR'

theorem Calls.runs {r : α} {t : Trace S} (h : Calls P p) (hr : Runs p r t) : ∀ ev ∈ t, P ev.1 := by
  induction p generalizing t with
  | done a =>
      obtain ⟨-, rfl⟩ := hr
      exact fun ev hev => absurd hev List.not_mem_nil
  | call c next ih =>
      obtain ⟨x, rest, rfl, hrest⟩ := hr
      intro ev hev
      rcases List.mem_cons.mp hev with rfl | hev
      · exact h.1
      · exact ih x (h.2 x) hrest ev hev

theorem Calls.only {test : Event S → Bool} {r : α} {t : Trace S}
    (h : Calls (fun c => ∀ x, test ⟨c, x⟩ = true) p) (hr : Runs p r t) : t.Only test :=
  fun ev hev => h.runs hr ev hev ev.2

theorem Calls.quiet {obs : Event S → Option M} (h : Calls P p)
    (hobs : ∀ c, P c → ∀ x, obs ⟨c, x⟩ = none) : Quiet obs p := by
  induction p with
  | done a => exact quiet_pure a
  | call c next ih =>
      exact quiet_bind (quiet_request (hobs c h.1)) fun x => ih x (h.2 x)

/-- The calls of a program pass the test, and its runs end with notes in `Q`. -/
def Shows (P : S.Call → Prop) (obs : Event S → Option M) (p : Prog S α) (Q : α → List M → Prop)
    (m : List M) : Prop := wp (fun _ c => P c) (noting obs) p Q m

section Shows

variable {obs : Event S → Option M} {m : List M}

theorem Shows.split {Q : α → List M → Prop} (h : Shows P obs p Q m) :
    Calls P p ∧ Notes obs p Q m := by
  induction p generalizing m with
  | done a => exact ⟨trivial, h⟩
  | call c next ih =>
      exact ⟨⟨h.1, fun x => (ih x (h.2 x _ rfl)).1⟩, trivial, fun x m' he => (ih x (h.2 x m' he)).2⟩

/-- What follows calls that nothing is noted of, for the results they can have. -/
theorem shows_quiet {Q : β → List M → Prop} (h : Calls (fun c => P c ∧ ∀ x, obs ⟨c, x⟩ = none) p)
    (hf : ∀ a t, Runs p a t → Shows P obs (f a) Q m) : Shows P obs (p >>= f) Q m := by
  induction p with
  | done a => exact hf a [] ⟨rfl, rfl⟩
  | call c next ih =>
      refine ⟨h.1.1, fun x m' he => ?_⟩
      rw [noting, h.1.2 x, Option.toList_none, List.append_nil] at he
      exact he ▸ ih x (h.2 x) fun a t ht => hf a (⟨c, x⟩ :: t) ⟨x, t, rfl, ht⟩

end Shows

theorem Calls.follows {q : Prog S α} {t : Trace S} (h : Calls P p) (hf : Follows t p q) :
    (∀ ev ∈ t, P ev.1) ∧ Calls P q := by
  induction t generalizing p with
  | nil =>
      cases hf
      exact ⟨fun _ hev => (by cases hev), h⟩
  | cons ev t ih =>
      cases p with
      | done a => cases hf
      | call c next =>
          obtain ⟨x, rfl, hf⟩ := hf
          obtain ⟨ht, hq⟩ := ih (h.2 x) hf
          exact ⟨List.forall_mem_cons.mpr ⟨h.1, ht⟩, hq⟩

end Calls

/-- After a call that passes the test the program is over. -/
def Last (P : S.Call → Prop) : Prog S α → Prop
  | .done _ => True
  | .call c next => ∀ x, Last P (next x) ∧ (P c → ∃ a, next x = .done a)

theorem last_bind {P : S.Call → Prop} {p : Prog S α} {f : α → Prog S β}
    (hp : Calls (fun c => ¬ P c) p) (hf : ∀ a, Last P (f a)) : Last P (p >>= f) := by
  induction p with
  | done a => exact hf a
  | call c next ih => exact fun x => ⟨ih x (hp.2 x), fun hc => absurd hc hp.1⟩

theorem Last.follows {P : S.Call → Prop} {p q : Prog S α} {t : Trace S} (h : Last P p)
    (hf : Follows t p q) {ev : Event S} (hev : ev ∈ t) (hP : P ev.1) : ∃ a, q = .done a := by
  induction t generalizing p with
  | nil => cases hev
  | cons ev' t ih =>
      cases p with
      | done a => cases hf
      | call c next =>
          obtain ⟨x, rfl, hf⟩ := hf
          rcases List.mem_cons.mp hev with rfl | hev
          · obtain ⟨a, ha⟩ := (h x).2 hP
            rw [ha] at hf
            cases t with
            | nil => exact ⟨a, hf.symm⟩
            | cons ev' t => cases hf
          · exact ih (h x).1 hf hev

variable {obs : Event S → Option M} {m : List M}

theorem Notes.follows {p q : Prog S α} {Q : α → List M → Prop} {t : Trace S}
    (h : Notes obs p Q m) (hf : Follows t p q) : Notes obs q Q (m ++ t.filterMap obs) := by
  induction t generalizing p m with
  | nil =>
      cases hf
      simpa using h
  | cons ev t ih =>
      cases p with
      | done a => cases hf
      | call c next =>
          obtain ⟨x, rfl, hf⟩ := hf
          have hnext := ih (h.2 x _ rfl) hf
          have hsplit : m ++ (obs ⟨c, x⟩).toList ++ t.filterMap obs =
              m ++ List.filterMap obs (⟨c, x⟩ :: t) := by
            rw [List.append_assoc, List.filterMap_cons]
            cases obs ⟨c, x⟩ <;> rfl
          rwa [hsplit] at hnext

/-- What has been noted can be completed. -/
theorem Notes.completes [∀ c, Nonempty (S.Answer c)] {p : Prog S α} {Q : α → List M → Prop}
    (h : Notes obs p Q m) : ∃ a rest, Q a (m ++ rest) := by
  induction p generalizing m with
  | done a =>
      refine ⟨a, [], ?_⟩
      rw [List.append_nil]
      exact h
  | call c next ih =>
      obtain ⟨x⟩ := (inferInstance : Nonempty (S.Answer c))
      obtain ⟨a, rest, hQ⟩ := ih x (h.2 x _ rfl)
      exact ⟨a, (obs ⟨c, x⟩).toList ++ rest, by rwa [← List.append_assoc]⟩

end Interaction
