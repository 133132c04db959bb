import Mathlib.Data.Fintype.Card
import Mathlib.Data.List.Chain

/-!
Depth-first enumeration of the simple paths of a graph. The graph is a function
from a vertex to its neighbours; a path is the list of its vertices. The search
stops at the goal and gives up a path that has more steps than a bound. What it
lists is exactly the simple paths within the bound: nothing is said about their
order.
-/

namespace Paths

variable {V : Type*}

/-- The pairs of neighbours in a path. -/
def hops : List V → List (V × V)
  | a :: b :: rest => (a, b) :: hops (b :: rest)
  | _ => []

@[simp] theorem hops_cons_cons (a b : V) (rest : List V) :
    hops (a :: b :: rest) = (a, b) :: hops (b :: rest) := rfl

@[simp] theorem hops_singleton (a : V) : hops [a] = [] := rfl

theorem isChain_iff_hops {R : V → V → Prop} (l : List V) :
    l.IsChain R ↔ ∀ ab ∈ hops l, R ab.1 ab.2 := by
  induction l with
  | nil => simp [hops]
  | cons a l ih =>
      cases l with
      | nil => simp
      | cons b rest => simp [ih]

theorem hops_ne {l : List V} (h : l.Nodup) : ∀ ab ∈ hops l, ab.1 ≠ ab.2 := by
  induction l with
  | nil => simp [hops]
  | cons a l ih =>
      cases l with
      | nil => simp
      | cons b rest =>
          obtain ⟨ha, hrest⟩ := List.nodup_cons.mp h
          rintro ab hab
          rcases List.mem_cons.mp hab with rfl | hab
          · intro he
            change a = b at he
            exact ha (he ▸ List.mem_cons_self)
          · exact ih hrest ab hab

/-- Each hop starts where the one before it ended. -/
theorem hops_isChain (l : List V) : (hops l).IsChain fun x y => x.2 = y.1 := by
  induction l with
  | nil => exact List.IsChain.nil
  | cons a l ih =>
      cases l with
      | nil => exact List.IsChain.nil
      | cons b rest =>
          cases rest with
          | nil => exact List.IsChain.singleton _
          | cons c rest => exact List.isChain_cons_cons.mpr ⟨rfl, ih⟩

theorem length_hops (l : List V) : (hops l).length = l.length - 1 := by
  induction l with
  | nil => rfl
  | cons a l ih =>
      cases l with
      | nil => rfl
      | cons b rest => simpa using ih

theorem hops_getElem {l : List V} {i : Nat} (h : i + 1 < l.length) :
    (hops l)[i]? = some (l[i], l[i + 1]) := by
  induction l generalizing i with
  | nil => simp at h
  | cons a l ih =>
      cases l with
      | nil => simp at h
      | cons b rest =>
          cases i with
          | zero => rfl
          | succ i => exact ih (Nat.lt_of_succ_lt_succ h)

theorem hops_fst (l : List V) : (hops l).map Prod.fst = l.dropLast := by
  induction l with
  | nil => rfl
  | cons a l ih =>
      cases l with
      | nil => rfl
      | cons b rest => simpa using ih

theorem hops_snd (l : List V) : (hops l).map Prod.snd = l.tail := by
  induction l with
  | nil => rfl
  | cons a l ih =>
      cases l with
      | nil => rfl
      | cons b rest => simpa using ih

/-- From `cur` on: every vertex is a neighbour of the one before it, and the
goal is the last one and no earlier one. -/
def Way (step : V → List V) (goal : V) : V → List V → Prop
  | cur, [] => cur = goal
  | cur, next :: rest => cur ≠ goal ∧ next ∈ step cur ∧ Way step goal next rest

/-- A simple path is a way if it ends at the goal. -/
theorem way_iff {step : V → List V} {goal cur : V} {t : List V} (h : (cur :: t).Nodup) :
    Way step goal cur t ↔
      (cur :: t).IsChain (fun a b => b ∈ step a) ∧ (cur :: t).getLast? = some goal := by
  induction t generalizing cur with
  | nil => simp [Way]
  | cons next rest ih =>
      obtain ⟨hcur, hrest⟩ := List.nodup_cons.mp h
      rw [Way, ih hrest, List.isChain_cons_cons, List.getLast?_cons_cons]
      constructor
      · rintro ⟨-, hnext, hchain, hlast⟩
        exact ⟨⟨hnext, hchain⟩, hlast⟩
      · rintro ⟨⟨hnext, hchain⟩, hlast⟩
        refine ⟨?_, hnext, hchain, hlast⟩
        rintro rfl
        exact hcur (List.mem_of_getLast? hlast)

variable [DecidableEq V] {step : V → List V} {goal : V} {bound : Nat}

/-- All extensions of `path`, which ends in `cur`, to a simple path to the goal. -/
def search (step : V → List V) (goal : V) (bound : Nat) : Nat → V → List V → List (List V)
  | 0, _, _ => []
  | fuel + 1, cur, path =>
      if bound < path.length - 1 then []
      else if cur = goal ∧ 1 < path.length then [path]
      else (step cur).flatMap fun next =>
        if next ∈ path then [] else search step goal bound fuel next (path ++ [next])

theorem search_append {fuel : Nat} {cur : V} {path p : List V}
    (h : p ∈ search step goal bound fuel cur path) : ∃ t, p = path ++ t := by
  induction fuel generalizing cur path with
  | zero => cases h
  | succ fuel ih =>
      unfold search at h
      split_ifs at h with hbound hgoal
      · cases h
      · exact ⟨[], by simpa using h⟩
      · obtain ⟨next, -, hp⟩ := List.mem_flatMap.mp h
        split_ifs at hp
        · cases hp
        · obtain ⟨t, rfl⟩ := ih hp
          exact ⟨next :: t, by simp⟩

theorem mem_search {fuel : Nat} {cur : V} {path p : List V} (hne : path ≠ []) (hnd : path.Nodup)
    (hcur : cur = goal → 1 < path.length) :
    p ∈ search step goal bound fuel cur path ↔
      ∃ t, p = path ++ t ∧ Way step goal cur t ∧ p.Nodup ∧ p.length - 1 ≤ bound ∧
        t.length < fuel := by
  induction fuel generalizing cur path with
  | zero => simp [search]
  | succ fuel ih =>
      unfold search
      split_ifs with hbound hgoal
      · simp only [List.not_mem_nil, false_iff]
        rintro ⟨t, rfl, -, -, hlen, -⟩
        rw [List.length_append] at hlen
        omega
      · rw [List.mem_singleton]
        constructor
        · rintro rfl
          exact ⟨[], (List.append_nil _).symm, hgoal.1, hnd, Nat.not_lt.mp hbound, by simp⟩
        · rintro ⟨t, rfl, hway, -⟩
          cases t with
          | nil => exact List.append_nil _
          | cons next rest => exact absurd hgoal.1 hway.1
      · have hstart : cur ≠ goal := fun he => hgoal ⟨he, hcur he⟩
        have hlonger : ∀ next : V, 1 < (path ++ [next]).length := fun next => by
          have := List.length_pos_of_ne_nil hne
          rw [List.length_append, List.length_singleton]
          omega
        have hfresh : ∀ next, next ∉ path → (path ++ [next]).Nodup := fun next hmem => by
          simpa using hnd.concat hmem
        simp only [List.mem_flatMap]
        constructor
        · rintro ⟨next, hnext, hp⟩
          by_cases hmem : next ∈ path
          · simp [hmem] at hp
          rw [if_neg hmem, ih (by simp) (hfresh next hmem) fun _ => hlonger next] at hp
          obtain ⟨t, rfl, hway, hpnd, hlen, hfuel⟩ := hp
          exact ⟨next :: t, by simp, ⟨hstart, hnext, hway⟩, hpnd, hlen, by simpa using hfuel⟩
        · rintro ⟨t, rfl, hway, hpnd, hlen, hfuel⟩
          cases t with
          | nil => exact absurd hway hstart
          | cons next rest =>
              have hmem : next ∉ path := fun h =>
                (List.disjoint_of_nodup_append hpnd) h List.mem_cons_self
              refine ⟨next, hway.2.1, ?_⟩
              rw [if_neg hmem, ih (by simp) (hfresh next hmem) fun _ => hlonger next]
              exact ⟨rest, by simp, hway.2.2, hpnd, hlen, by simpa using hfuel⟩

/-- Different neighbours lead to different paths, so none is listed twice. -/
theorem search_nodup (hstep : ∀ a, (step a).Nodup) (fuel : Nat) (cur : V) (path : List V) :
    (search step goal bound fuel cur path).Nodup := by
  induction fuel generalizing cur path with
  | zero => exact List.nodup_nil
  | succ fuel ih =>
      unfold search
      split_ifs with hbound hgoal
      · exact List.nodup_nil
      · exact List.nodup_singleton _
      · have hextends : ∀ next p,
            p ∈ (if next ∈ path then [] else search step goal bound fuel next (path ++ [next])) →
              ∃ t, p = path ++ next :: t := by
          intro next p hp
          split_ifs at hp
          · cases hp
          · obtain ⟨t, rfl⟩ := search_append hp
            exact ⟨t, by simp⟩
        rw [List.nodup_flatMap]
        constructor
        · intro next _
          split_ifs
          · exact List.nodup_nil
          · exact ih next _
        · refine (hstep cur).imp ?_
          intro a b hab p ha hb
          obtain ⟨u, rfl⟩ := hextends a p ha
          obtain ⟨v, hv⟩ := hextends b _ hb
          rw [List.append_cancel_left_eq] at hv
          exact hab (List.cons_eq_cons.mp hv).1

/-- As many levels as there are vertices are enough: a simple path cannot be longer. -/
theorem mem_search_from [Fintype V] {start : V} {p : List V} (h : start ≠ goal) :
    p ∈ search step goal bound (Fintype.card V) start [start] ↔
      ∃ t, p = start :: t ∧ Way step goal start t ∧ p.Nodup ∧ t.length ≤ bound := by
  rw [mem_search (by simp) (List.nodup_singleton _) fun he => absurd he h]
  constructor
  · rintro ⟨t, rfl, hway, hnd, hlen, -⟩
    exact ⟨t, rfl, hway, hnd, by simpa using hlen⟩
  · rintro ⟨t, rfl, hway, hnd, hlen⟩
    refine ⟨t, rfl, hway, hnd, by simpa using hlen, ?_⟩
    have hcard := hnd.length_le_card
    rw [List.length_cons] at hcard
    omega

end Paths
