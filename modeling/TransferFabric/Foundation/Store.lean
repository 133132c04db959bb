import Mathlib.Tactic.Common

/-!
Stores of cells, and regions as enumerations of cells. A region need not be
contiguous, and its enumeration need not be injective; a lemma that needs it
says so. A move is a relation between the store before and after, so that it
can stand for a copy whose order is not known.

Deferred effects are kept in a list and land one at a time, in any order. What
every single landing preserves, settling preserves.
-/

namespace Memory

variable {C B : Type}

abbrev Store (C B : Type) := C → B

/-- The first `n` bytes of a region. -/
def Store.read (st : Store C B) (region : Nat → C) (n : Nat) : List B :=
  (List.range n).map fun k => st (region k)

@[simp] theorem Store.length_read (st : Store C B) (region : Nat → C) (n : Nat) :
    (st.read region n).length = n := by simp [Store.read]

theorem Store.read_add (st : Store C B) (region : Nat → C) (m n : Nat) :
    st.read region (m + n) = st.read region m ++ st.read (fun k => region (m + k)) n := by
  simp only [Store.read, List.range_add, List.map_append, List.map_map]
  rfl

theorem Store.read_congr {st : Store C B} {region other : Nat → C} {n : Nat}
    (h : ∀ k < n, region k = other k) : st.read region n = st.read other n := by
  apply List.map_congr_left
  intro k hk
  rw [h k (List.mem_range.mp hk)]

/-- The first `n` cells of the source have been copied over those of the target, and no other
cell has changed. -/
structure Moves (src dst : Nat → C) (n : Nat) (st st' : Store C B) : Prop where
  moved : ∀ k < n, st' (dst k) = st (src k)
  frame : ∀ c, (∀ k < n, c ≠ dst k) → st' c = st c

/-- Nothing but the first `n` cells of the target has changed. -/
def Within (dst : Nat → C) (n : Nat) (st st' : Store C B) : Prop :=
  ∀ c, (∀ k < n, c ≠ dst k) → st' c = st c

/-- The bytes have been written over the first cells of the target, and no other cell has
changed. -/
structure Writes (dst : Nat → C) (data : List B) (st st' : Store C B) : Prop where
  written : ∀ k b, data[k]? = some b → st' (dst k) = b
  frame : ∀ c, (∀ k < data.length, c ≠ dst k) → st' c = st c

theorem Writes.single [DecidableEq C] (dst : Nat → C) (b : B) (st : Store C B) :
    Writes dst [b] st (Function.update st (dst 0) b) where
  written := by
    intro k b' hk
    obtain ⟨rfl, rfl⟩ : k = 0 ∧ b = b' := by simpa [List.getElem?_singleton] using hk
    exact Function.update_self ..
  frame := fun _ hc => Function.update_of_ne (hc 0 Nat.one_pos) ..

section Moving

variable {src dst : Nat → C} {m n : Nat} {st st' st'' : Store C B}

theorem Moves.zero (src dst : Nat → C) (st : Store C B) : Moves src dst 0 st st :=
  ⟨fun _ hk => absurd hk (Nat.not_lt_zero _), fun _ _ => rfl⟩

/-- A second move that goes on where the first ended. -/
theorem Moves.append (h : Moves src dst m st st')
    (h' : Moves (fun k => src (m + k)) (fun k => dst (m + k)) n st' st'')
    (hinj : ∀ k < m + n, ∀ l < m + n, dst k = dst l → k = l)
    (hapart : ∀ k < m + n, ∀ l < m + n, src k ≠ dst l) : Moves src dst (m + n) st st'' where
  moved := by
    intro k hk
    by_cases hkm : k < m
    · rw [h'.frame, h.moved k hkm]
      intro l hl heq
      have := hinj k hk (m + l) (by omega) heq
      omega
    · obtain ⟨j, rfl⟩ := Nat.exists_eq_add_of_le (Nat.le_of_not_lt hkm)
      rw [h'.moved j (by omega), h.frame]
      exact fun l hl => hapart _ hk l (by omega)
  frame := by
    intro c hc
    rw [h'.frame c fun k hk => hc (m + k) (by omega), h.frame c fun k hk => hc k (by omega)]

/-- Writing what the source holds is a move. -/
theorem Writes.moves {data : List B} (h : Writes dst data st st')
    (hdata : data = st.read src data.length) : Moves src dst data.length st st' where
  moved := by
    intro k hk
    refine h.written k _ ?_
    rw [hdata, Store.read, List.getElem?_map, List.getElem?_range hk]
    rfl
  frame := h.frame

end Moving

section Deferred

variable {Q S : Type} {lands : Q → S → S → Prop}

/-- Some of the deferred effects land. -/
inductive Settles (lands : Q → S → S → Prop) : S → List Q → S → List Q → Prop
  | refl (s : S) (l : List Q) : Settles lands s l s l
  | land {s m s' : S} {l₁ l₂ l' : List Q} {q : Q} (hq : lands q s m)
      (rest : Settles lands m (l₁ ++ l₂) s' l') : Settles lands s (l₁ ++ q :: l₂) s' l'

/-- Settling preserves what every landing of a deferred effect preserves. -/
theorem Settles.preserves {P : S → List Q → Prop} {s s' : S} {l l' : List Q}
    (h : Settles lands s l s' l')
    (step : ∀ s m q l₁ l₂, P s (l₁ ++ q :: l₂) → lands q s m → P m (l₁ ++ l₂)) (hp : P s l) :
    P s' l' := by
  induction h with
  | refl s l => exact hp
  | land hq rest ih => exact ih (step _ _ _ _ _ hp hq)

/-- The oldest effect lands first. -/
theorem Settles.head {s m s' : S} {l l' : List Q} {q : Q} (hq : lands q s m)
    (rest : Settles lands m l s' l') : Settles lands s (q :: l) s' l' :=
  @Settles.land Q S lands s m s' [] l l' q hq rest

theorem Settles.subset {s s' : S} {l l' : List Q} (h : Settles lands s l s' l') : l' ⊆ l := by
  induction h with
  | refl s l => exact fun _ hq => hq
  | land hq rest ih =>
      intro q hmem
      have := ih hmem
      simp only [List.mem_append, List.mem_cons] at this ⊢
      tauto

/-- Nothing deferred, nothing lands. -/
theorem Settles.of_nil {s s' : S} {l l' : List Q} (h : Settles lands s l s' l') (hl : l = []) :
    s' = s ∧ l' = [] := by
  cases h with
  | refl => exact ⟨rfl, hl⟩
  | land hq rest => exact absurd hl (by simp)

end Deferred

end Memory
