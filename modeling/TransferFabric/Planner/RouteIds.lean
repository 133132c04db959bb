import Mathlib
import TransferFabric.Planner.DefaultRoutePlanner
import TransferFabric.Runtime.Telemetry

/-!
Route ids identify routes. The id of a route joins the texts of its legs with a
bar; the text of a leg joins its two domains with a hyphen and its backend with a
colon. No name that can stand there has one of these characters, so an id can be
cut into the legs it was made of.

Two legs count as the same here if they agree in their domains and their
backend: nothing else of a leg goes into the id.
-/

namespace TransferFabric

/-- The names of `backend_name`. -/
def BackendName.known : List String := [host, cuda, file, shm, tcp]

/-- What of a leg goes into the id of its route. -/
def Leg.key (l : Leg) : MemoryDomain × MemoryDomain × String :=
  (l.sourceDomain, l.destDomain, l.backend)

namespace DefaultRoutePlanner

def separators : List Char := ['|', '-', ':']

theorem separator_not_mem_domain (d : MemoryDomain) : ∀ c ∈ separators, c ∉ d.toString.toList := by
  have hall : separators.all (fun c => c ∉ d.toString.toList) = true := by cases d <;> decide
  exact fun c hc => of_decide_eq_true (List.all_eq_true.mp hall c hc)

theorem separator_not_mem_backend {b : String} (h : b ∈ BackendName.known) :
    ∀ c ∈ separators, c ∉ b.toList := by
  have hall : BackendName.known.all (fun b => separators.all fun c => c ∉ b.toList) = true := by
    decide
  intro c hc
  exact of_decide_eq_true (List.all_eq_true.mp (List.all_eq_true.mp hall b h) c hc)

theorem domain_toString_injective : Function.Injective MemoryDomain.toString := by
  intro d e h
  cases d <;> cases e <;> first | rfl | exact absurd h (by decide)

/-- The characters of one leg. -/
def legChars (l : Leg) : List Char :=
  l.sourceDomain.toString.toList ++ '-' :: (l.destDomain.toString.toList ++ ':' :: l.backend.toList)

theorem legChars_ne_nil (l : Leg) : legChars l ≠ [] := by simp [legChars]

theorem bar_not_mem_legChars {l : Leg} (h : l.backend ∈ BackendName.known) : '|' ∉ legChars l := by
  have hsrc := separator_not_mem_domain l.sourceDomain '|' (by decide)
  have hdst := separator_not_mem_domain l.destDomain '|' (by decide)
  have hback := separator_not_mem_backend h '|' (by decide)
  simp [legChars, hsrc, hdst, hback]

theorem legChars_injective {l l' : Leg} (h : l.backend ∈ BackendName.known)
    (heq : legChars l = legChars l') : l.key = l'.key := by
  have hdst := separator_not_mem_domain l.destDomain
  have hback := separator_not_mem_backend h
  have hrest : '-' ∉ l.destDomain.toString.toList ++ ':' :: l.backend.toList := by
    simp [hdst '-' (by decide), hback '-' (by decide)]
  obtain ⟨hsrc, -, heq⟩ := (List.append_cons_inj_of_notMem
    (separator_not_mem_domain l.sourceDomain '-' (by decide)) hrest).mp heq
  obtain ⟨hdst, -, hback⟩ := (List.append_cons_inj_of_notMem (hdst ':' (by decide))
    (hback ':' (by decide))).mp heq
  rw [Leg.key, Leg.key, domain_toString_injective (String.toList_inj.mp hsrc),
    domain_toString_injective (String.toList_inj.mp hdst), String.toList_inj.mp hback]

theorem colon_ne_empty (a b : String) : a ++ ":" ++ b ≠ "" := by
  intro h
  have hlen := congrArg String.length h
  rw [String.length_append, String.length_append, show ":".length = 1 from rfl,
    show "".length = 0 from rfl] at hlen
  omega

/-- The loop of `route_id` from a text that is not empty. -/
theorem foldl_toList (legs : List Leg) (out : String) (hout : out ≠ "") :
    (legs.foldl (fun out l =>
      (if out ≠ "" then out ++ "|" else out) ++
        l.sourceDomain.toString ++ "-" ++ l.destDomain.toString ++ ":" ++ l.backend) out).toList =
      ['|'].intercalate (out.toList :: legs.map legChars) := by
  induction legs generalizing out with
  | nil => simp [List.intercalate]
  | cons l legs ih =>
      rw [List.foldl_cons, if_pos hout, ih _ (colon_ne_empty _ _)]
      cases legs with
      | nil => simp [List.intercalate, legChars]
      | cons m legs => simp [List.intercalate_cons_cons, legChars]

theorem routeId_toList (legs : List Leg) :
    (routeId legs).toList = ['|'].intercalate (legs.map legChars) := by
  cases legs with
  | nil => rfl
  | cons l legs =>
      rw [routeId, List.foldl_cons, if_neg (not_not.mpr rfl),
        foldl_toList _ _ (colon_ne_empty _ _)]
      simp [legChars]

theorem legChars_of_routeId {legs : List Leg} (h : ∀ l ∈ legs, l.backend ∈ BackendName.known)
    (hne : legs ≠ []) : (routeId legs).toList.splitOn '|' = legs.map legChars := by
  rw [routeId_toList]
  refine List.splitOn_intercalate _ (fun t ht => ?_) (by simpa using hne)
  obtain ⟨l, hl, rfl⟩ := List.mem_map.mp ht
  exact bar_not_mem_legChars (h l hl)

theorem routeId_eq_empty {legs : List Leg} (h : ∀ l ∈ legs, l.backend ∈ BackendName.known)
    (hid : routeId legs = "") : legs = [] := by
  by_contra hne
  have hsplit := legChars_of_routeId h hne
  rw [hid] at hsplit
  cases legs with
  | nil => exact hne rfl
  | cons l legs => exact legChars_ne_nil l (List.cons.inj hsplit).1.symm

theorem keys_of_legChars {legs legs' : List Leg} (h : ∀ l ∈ legs, l.backend ∈ BackendName.known)
    (heq : legs.map legChars = legs'.map legChars) : legs.map Leg.key = legs'.map Leg.key := by
  induction legs generalizing legs' with
  | nil =>
      rw [List.map_nil, eq_comm, List.map_eq_nil_iff] at heq
      rw [heq]
  | cons l legs ih =>
      cases legs' with
      | nil => cases heq
      | cons l' legs' =>
          obtain ⟨hl, hrest⟩ := List.cons.inj heq
          rw [List.map_cons, List.map_cons,
            legChars_injective (h l List.mem_cons_self) hl,
            ih (fun m hm => h m (List.mem_cons_of_mem _ hm)) hrest]

theorem keys_of_routeId {legs legs' : List Leg} (h : ∀ l ∈ legs, l.backend ∈ BackendName.known)
    (h' : ∀ l ∈ legs', l.backend ∈ BackendName.known) (heq : routeId legs = routeId legs') :
    legs.map Leg.key = legs'.map Leg.key := by
  by_cases hne : legs = []
  · rw [hne] at heq ⊢
    rw [routeId_eq_empty h' heq.symm]
  · have hne' : legs' ≠ [] := fun hnil => hne (routeId_eq_empty h (by rw [heq, hnil]; rfl))
    refine keys_of_legChars h ?_
    rw [← legChars_of_routeId h hne, heq, legChars_of_routeId h' hne']

end DefaultRoutePlanner

theorem lookup_addTo_ne (bucket : List (String × UInt64)) {key other : String} (n : UInt64)
    (h : other ≠ key) : (addTo bucket key n).lookup other = bucket.lookup other := by
  have hother : (other == key) = false := beq_eq_false_iff_ne.mpr h
  induction bucket with
  | nil => simp only [addTo, List.lookup, hother]
  | cons kv bucket ih =>
      obtain ⟨k, v⟩ := kv
      unfold addTo
      split
      · rename_i hk
        simp only [List.lookup, hk, hother]
      · simp only [List.lookup, ih]

namespace DefaultRoutePlanner

/-- Equal ids come from equal routes, so bytes counted for one route leave the bucket of every
other route alone. -/
theorem routeId_identifies {legs legs' : List Leg}
    (hknown : ∀ l ∈ legs, l.backend ∈ BackendName.known)
    (hknown' : ∀ l ∈ legs', l.backend ∈ BackendName.known) :
    (routeId legs = routeId legs' → legs.map Leg.key = legs'.map Leg.key) ∧
      (legs.map Leg.key ≠ legs'.map Leg.key → ∀ (t : Telemetry) (n : ByteCount),
        (t.apply (.addRouteBytes (routeId legs) n)).perRoute.lookup (routeId legs') =
          t.perRoute.lookup (routeId legs')) := by
  refine ⟨keys_of_routeId hknown hknown', fun hne t n => lookup_addTo_ne _ n fun heq => ?_⟩
  exact hne (keys_of_routeId hknown hknown' heq.symm)

/-- A direct leg, and the same way over pinned memory. -/
theorem routeId_identifies_two :
    routeId [{ sourceDomain := .hostPageable, destDomain := .device, backend := BackendName.cuda }] ≠
      routeId [{ sourceDomain := .hostPageable, destDomain := .hostPinned, backend := BackendName.host },
        { sourceDomain := .hostPinned, destDomain := .device, backend := BackendName.cuda }] := by
  intro heq
  have hkeys := (routeId_identifies (by decide) (by decide)).1 heq
  exact absurd hkeys (by decide)

end DefaultRoutePlanner

end TransferFabric
