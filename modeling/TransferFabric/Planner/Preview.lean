import TransferFabric.Planner.Ranking
import TransferFabric.Runtime.Lifecycle
import TransferFabric.Runtime.Repertoire

/-!
The route `plan` shows for an options object, against the route a submission of
the same options gets. A submission resolves a range left open to the size of the
source before it plans. The inspection passes the length as it stands, and an
empty length is planned as a transfer of nothing.
-/

namespace TransferFabric

open Interaction DefaultRoutePlanner

/-- The lookups of endpoints are answered by the registry of the state. -/
def World.reads (w : World) : RtEvent → Bool
  | ⟨.getEndpoint h, x⟩ => x = w.endpoints.get h
  | _ => true

namespace DefaultRoutePlanner

theorem edges_setup : ∀ e ∈ edges, e.setup ≠ 0 := by decide +kernel

/-- Every leg of a route for a transfer of something has a setup time. -/
theorem leg_setup {inp : PlannerInput} (hbytes : inp.bytes ≠ 0) {r : Route}
    (hr : r ∈ (plan inp).candidates) {l : Leg} (hl : l ∈ r.legs) : l.fixedSetup ≠ 0 := by
  have hadmits := admits_of_candidate hr
  by_cases hsame : inp.src.memoryDomain = inp.dst.memoryDomain
  · rw [candidates_admits hadmits, plannedRoutes, if_neg hbytes, if_pos hsame] at hr
    split_ifs at hr
    · rw [List.mem_singleton.mp hr] at hl
      rw [List.mem_singleton.mp hl]
      change (0.00002 : Rat) ≠ 0
      decide +kernel
    · cases hr
  · obtain ⟨p, hp, halong⟩ := candidate_along ⟨hadmits, hbytes, hsame⟩ hr
    rw [halong.legs] at hl
    obtain ⟨ab, hab, rfl⟩ := List.mem_map.mp hl
    obtain ⟨e, he, hjoins, -⟩ := (Paths.isChain_iff_hops p).mp hp.linked ab hab
    simp only [legBetween, edgeBetween_of_joins _ _ e he hjoins, Option.map_some, Option.getD_some]
    exact edges_setup e he

/-- A transfer of nothing gets a route that no transfer of something gets. -/
theorem zeroByteRoute_ne_best {inp inp' : PlannerInput} (hbytes : inp.bytes ≠ 0)
    (hfound : (plan inp).found = true) : zeroByteRoute inp' ≠ (plan inp).best := by
  intro heq
  have hmem : (zeroByteRoute inp').legs.head (List.cons_ne_nil _ _) ∈ (plan inp).best.legs := by
    rw [← heq]
    exact List.head_mem _
  exact leg_setup hbytes (best_mem_candidates hfound) hmem rfl

theorem admits_of_found {inp : PlannerInput} (h : (plan inp).found = true) : Admits inp :=
  admits_of_candidate (best_mem_candidates h)

end DefaultRoutePlanner

namespace Runtime

variable {rt : Runtime} {w : World} {opts : TransferOptions}

/-- In the state, `plan` finds the route and calls it the best. -/
def Previews (rt : Runtime) (w : World) (opts : TransferOptions) (route : Route) : Prop :=
  ∃ pr t, Runs (rt.planOptions opts) pr t ∧ Trace.Only w.reads t ∧
    pr.found = true ∧ pr.best = route

/-- What `plan` returns for endpoints that are registered. -/
theorem runs_planOptions {se de : EndpointRecord} {pr : PlanResult}
    (hse : w.endpoints.get opts.source = some se) (hde : w.endpoints.get opts.destination = some de)
    (hread : se.caps.capabilities.has .readable = true)
    (hwrite : de.caps.capabilities.has .writable = true) :
    (∃ t, Runs (rt.planOptions opts) pr t ∧ Trace.Only w.reads t) ↔
      pr = rt.planner (rt.plannerInput opts se de opts.sourceRange.length) := by
  have hrest : ∀ u, Runs (if ¬ se.caps.capabilities.has .readable = true then
        pure { reason := "source not readable" }
      else if ¬ de.caps.capabilities.has .writable = true then
        pure { reason := "destination not writable" }
      else pure (rt.planner (rt.plannerInput { policy := opts.policy } se de
        opts.sourceRange.length)) : Prog RtSig PlanResult) pr u ↔
      pr = rt.planner (rt.plannerInput opts se de opts.sourceRange.length) ∧ u = [] := by
    intro u
    rw [if_neg (not_not.mpr hread), if_neg (not_not.mpr hwrite)]
    exact runs_pure ..
  constructor
  · rintro ⟨_, ⟨x, _, rfl, y, u, rfl, hrun⟩, hreads⟩
    simp only [Trace.only_cons, World.reads, decide_eq_true_eq, hse, hde] at hreads
    obtain ⟨rfl, rfl, -⟩ := hreads
    exact ((hrest u).mp hrun).1
  · intro hpr
    refine ⟨[⟨.getEndpoint opts.source, some se⟩, ⟨.getEndpoint opts.destination, some de⟩],
      ⟨some se, _, rfl, some de, [], rfl, (hrest []).mpr ⟨hpr, rfl⟩⟩, ?_⟩
    simp [World.reads, hse, hde]

/-- What a submission has settled when it enters a record. -/
def Planned (rt : Runtime) (w : World) (opts : TransferOptions) (tr : Transfer) : Prop :=
  ∃ se de ranges, w.endpoints.get opts.source = some se ∧
    w.endpoints.get opts.destination = some de ∧
    resolveRanges se de opts.sourceRange opts.destinationRange = .ok ranges ∧
    (rt.planner (rt.plannerInput opts se de ranges.bytes)).found = true ∧
    tr.body.route = (rt.planner (rt.plannerInput opts se de ranges.bytes)).best

theorem planTransfer_route {se de : EndpointRecord} {bytes : ByteCount} {body : TransferRecord}
    (h : rt.planTransfer opts se de = .ok (bytes, body)) :
    ∃ ranges, resolveRanges se de opts.sourceRange opts.destinationRange = .ok ranges ∧
      (rt.planner (rt.plannerInput opts se de ranges.bytes)).found = true ∧
      body.route = (rt.planner (rt.plannerInput opts se de ranges.bytes)).best := by
  unfold planTransfer at h
  split at h
  · cases h
  · rename_i ranges hranges
    dsimp only at h
    split_ifs at h with hfound
    split at h
    · cases h
    · cases h
      exact ⟨ranges, hranges, hfound, rfl⟩

/-- One record is entered, and it is the planned one. -/
def Enters (t : RtTrace) (tr : Transfer) : Prop :=
  (∃ r, (⟨.insert tr, r⟩ : RtEvent) ∈ t) ∧ ∀ tr' r, (⟨.insert tr', r⟩ : RtEvent) ∈ t → tr' = tr

theorem Enters.cons {t : RtTrace} {tr : Transfer} (h : Enters t tr) {ev : RtEvent}
    (hev : ∀ tr' r, ev ≠ ⟨.insert tr', r⟩) : Enters (ev :: t) tr := by
  obtain ⟨⟨r, hr⟩, honly⟩ := h
  refine ⟨⟨r, List.mem_cons_of_mem _ hr⟩, fun tr' r' hmem => ?_⟩
  rcases List.mem_cons.mp hmem with heq | hmem
  · exact absurd heq.symm (hev tr' r')
  · exact honly tr' r' hmem

theorem runs_admitAs {id : TransferId} {bytes : ByteCount} {body : TransferRecord} {res : Result}
    {t : RtTrace} (h : Runs (rt.admitAs opts id bytes body) res t) :
    Enters t (newTransfer id opts bytes body) := by
  have hcalls : Calls (fun c : RtCall => c = .insert (newTransfer id opts bytes body) ∨
      c.queues = true) (rt.admitAs opts id bytes body) :=
    calls_admitAs (Or.inl rfl) fun _ => Or.inr
  have hall := hcalls.runs h
  obtain ⟨r, rest, rfl, -⟩ := h
  refine ⟨⟨r, List.mem_cons_self⟩, fun tr' r' hmem => ?_⟩
  rcases hall _ hmem with heq | hqueues
  · exact RtCall.insert.inj heq
  · cases hqueues

/-- An accepted submission looks both endpoints up, plans, and enters one record. -/
theorem runs_submit_ok {err : Error} {id : TransferId} {t : RtTrace}
    (h : Runs (rt.submit opts) (.submitted err id) t) (hok : err.ok = true)
    (hreads : Trace.Only w.reads t) : ∃ tr, rt.Planned w opts tr ∧ Enters t tr := by
  have hrejected : ∀ (e : Error) (u : RtTrace), e.ok = false →
      ¬ Runs (pure (.submitted e {}) : Prog RtSig Result) (.submitted err id) u := by
    rintro e u he ⟨heq, -⟩
    rw [(Result.submitted.inj heq).1, he] at hok
    cases hok
  obtain ⟨down, u, rfl, h⟩ := h
  cases down with
  | true => exact absurd h (hrejected _ u rfl)
  | false =>
  by_cases hvalid : ¬ opts.source.valid = true ∨ ¬ opts.destination.valid = true
  · simp only [if_pos hvalid] at h
    exact absurd h (hrejected _ u rfl)
  simp only [if_neg hvalid] at h
  obtain ⟨se, v, rfl, hsource⟩ := (runs_request_bind (S := RtSig) ..).mp h
  obtain ⟨de, t, rfl, hrest⟩ := (runs_request_bind (S := RtSig) ..).mp hsource
  simp only [Trace.only_cons, World.reads, decide_eq_true_eq] at hreads
  obtain ⟨-, hse, hde, -⟩ := hreads
  cases se with
  | none => exact absurd hrest (hrejected _ t rfl)
  | some se =>
  cases de with
  | none => exact absurd hrest (hrejected _ t rfl)
  | some de =>
  dsimp only at hrest
  cases hplan : rt.planTransfer opts se de with
  | error e =>
      rw [hplan] at hrest
      exact absurd hrest (hrejected e t (planTransfer_error hplan))
  | ok p =>
      obtain ⟨bytes, body⟩ := p
      rw [hplan] at hrest
      obtain ⟨ranges, hranges, hfound, hroute⟩ := planTransfer_route hplan
      have hplanned : ∀ id, rt.Planned w opts (newTransfer id opts bytes body) := fun id =>
        ⟨se, de, ranges, hse.symm, hde.symm, hranges, hfound, hroute⟩
      suffices hentered : ∃ id, Enters t (newTransfer id opts bytes body) by
        obtain ⟨id, hid⟩ := hentered
        refine ⟨_, hplanned id, ((hid.cons ?_).cons ?_).cons ?_⟩
        all_goals
          intro tr' r heq
          cases heq
      dsimp only at hrest
      split_ifs at hrest
      · exact ⟨_, runs_admitAs hrest⟩
      · obtain ⟨id', u, rfl, hadmit⟩ := (runs_request_bind (S := RtSig) ..).mp hrest
        refine ⟨id', (runs_admitAs hadmit).cons ?_⟩
        intro tr' r heq
        cases heq

/-- The route shown for a planned record is the route it has, exactly if its source range is
given or the source is empty. -/
theorem Planned.previews_iff {tr : Transfer} (hplanner : rt.planner = DefaultRoutePlanner.plan)
    (h : rt.Planned w opts tr) :
    rt.Previews w opts tr.body.route ↔
      opts.sourceRange.empty = false ∨
        ∀ se, w.endpoints.get opts.source = some se → se.caps.maxTransferSize = 0 := by
  obtain ⟨se, de, ranges, hse, hde, hranges, hfound, hroute⟩ := h
  obtain ⟨hsrc, hbytes, -⟩ := resolveRanges_eq_ok.mp hranges
  rw [hplanner] at hfound hroute
  obtain ⟨hread, hwrite⟩ := (admits_of_found hfound).1
  have hpreviews : rt.Previews w opts tr.body.route ↔
      (DefaultRoutePlanner.plan (rt.plannerInput opts se de opts.sourceRange.length)).found = true ∧
        (DefaultRoutePlanner.plan (rt.plannerInput opts se de opts.sourceRange.length)).best = tr.body.route := by
    have hruns : ∀ pr, (∃ t, Runs (rt.planOptions opts) pr t ∧ Trace.Only w.reads t) ↔
        pr = rt.planner (rt.plannerInput opts se de opts.sourceRange.length) :=
      fun pr => runs_planOptions hse hde hread hwrite
    rw [hplanner] at hruns
    constructor
    · rintro ⟨pr, t, hrun, hreads, hfound, hbest⟩
      obtain rfl := (hruns pr).mp ⟨t, hrun, hreads⟩
      exact ⟨hfound, hbest⟩
    · rintro ⟨hfound, hbest⟩
      obtain ⟨t, hrun, hreads⟩ := (hruns _).mpr rfl
      exact ⟨_, t, hrun, hreads, hfound, hbest⟩
  have hone : (∀ se, w.endpoints.get opts.source = some se → se.caps.maxTransferSize = 0) ↔
      se.caps.maxTransferSize = 0 := by
    rw [hse]
    exact ⟨fun hall => hall se rfl, fun hzero se' heq => Option.some.inj heq ▸ hzero⟩
  rw [hpreviews, hone]
  by_cases hempty : opts.sourceRange.empty = true
  · have hlength : opts.sourceRange.length = 0 := of_decide_eq_true hempty
    have hresolved : ranges.bytes = se.caps.maxTransferSize := by
      rw [hbytes, hsrc, EndpointRecord.sourceRange, if_pos hempty]
    rw [hlength, hempty]
    by_cases hzero : se.caps.maxTransferSize = 0
    · rw [hresolved, hzero] at hfound hroute
      exact iff_of_true ⟨hfound, hroute.symm⟩ (Or.inr hzero)
    · have hbest : (DefaultRoutePlanner.plan (rt.plannerInput opts se de 0)).best =
          zeroByteRoute (rt.plannerInput opts se de 0) := by
        have hadmits : Admits (rt.plannerInput opts se de 0) :=
          (admits_of_found hfound : Admits (rt.plannerInput opts se de ranges.bytes))
        rw [plan_admits hadmits]
        rfl
      refine iff_of_false (fun hagree => ?_) (by simp [hzero])
      rw [hbest, hroute] at hagree
      exact zeroByteRoute_ne_best (hresolved ▸ hzero) hfound hagree.2
  · have hresolved : ranges.bytes = opts.sourceRange.length := by
      rw [hbytes, hsrc, EndpointRecord.sourceRange, if_neg hempty]
    rw [hresolved] at hfound hroute
    exact iff_of_true ⟨hfound, hroute.symm⟩ (Or.inl (Bool.not_eq_true _ ▸ hempty))

/-- A submission that is accepted enters one record. The route `plan` shows in the same
state is that record's exactly if the options give a source range or the source is empty. -/
theorem preview_agrees_iff {err : Error} {id : TransferId} {t : RtTrace}
    (hplanner : rt.planner = DefaultRoutePlanner.plan)
    (hrun : Runs (rt.submit opts) (.submitted err id) t) (hok : err.ok = true)
    (hreads : Trace.Only w.reads t) :
    ∃ tr, Enters t tr ∧
      (rt.Previews w opts tr.body.route ↔
        opts.sourceRange.empty = false ∨
          ∀ se, w.endpoints.get opts.source = some se → se.caps.maxTransferSize = 0) := by
  obtain ⟨tr, hplanned, henters⟩ := runs_submit_ok hrun hok hreads
  exact ⟨tr, henters, hplanned.previews_iff hplanner⟩

/-- The small runtime with the planner that ships. -/
def shipped : Runtime := { loopback with planner := DefaultRoutePlanner.plan }

/-- A transfer of the range between two regions of 16 bytes. -/
def ranged (range : ByteRange) : List Move :=
  twoRegions 16 ++ Move.whole 2 30 (.submit { firstToSecond with sourceRange := range }) 7

theorem half_previewed :
    ∃ tr, Enters ((shipped.play (ranged ⟨0, 8⟩)).world.past 2) tr ∧
      shipped.Previews (shipped.play (ranged ⟨0, 8⟩)).world
        { firstToSecond with sourceRange := ⟨0, 8⟩ } tr.body.route := by
  have hreturned : returned (shipped.play (ranged ⟨0, 8⟩)) 2 =
      some (.submitted {} { hi := 0, lo := 7 }) := by decide +kernel
  have hrun : Runs (shipped.submit { firstToSecond with sourceRange := ⟨0, 8⟩ })
      (.submitted {} { hi := 0, lo := 7 }) ((shipped.play (ranged ⟨0, 8⟩)).world.past 2) :=
    (shipped.play_reaches (ranged ⟨0, 8⟩)).returned
      (show _ = some (.submit { firstToSecond with sourceRange := ⟨0, 8⟩ }) by decide +kernel)
      (returned_eq hreturned)
  obtain ⟨tr, henters, hiff⟩ := preview_agrees_iff
    (w := (shipped.play (ranged ⟨0, 8⟩)).world) rfl hrun rfl (by unfold Trace.Only; decide +kernel)
  exact ⟨tr, henters, hiff.mpr (Or.inl rfl)⟩

/-- The whole region by default is shown as a transfer of nothing. -/
theorem whole_misread :
    ∃ tr, Enters ((shipped.play (ranged {})).world.past 2) tr ∧
      returned (shipped.play (ranged {})) 2 = some (.submitted {} { hi := 0, lo := 7 }) ∧
      ¬ shipped.Previews (shipped.play (ranged {})).world firstToSecond tr.body.route := by
  have hreturned : returned (shipped.play (ranged {})) 2 =
      some (.submitted {} { hi := 0, lo := 7 }) := by decide +kernel
  have hrun : Runs (shipped.submit firstToSecond) (.submitted {} { hi := 0, lo := 7 })
      ((shipped.play (ranged {})).world.past 2) :=
    (shipped.play_reaches (ranged {})).returned
      (show _ = some (.submit firstToSecond) by decide +kernel) (returned_eq hreturned)
  obtain ⟨tr, hplanned, henters⟩ := runs_submit_ok (w := (shipped.play (ranged {})).world) hrun rfl
    (by unfold Trace.Only; decide +kernel)
  refine ⟨tr, henters, hreturned, fun hpreviews => ?_⟩
  rcases (hplanned.previews_iff rfl).mp hpreviews with hempty | hzero
  · cases hempty
  · have hsize : ((shipped.play (ranged {})).world.endpoints.get firstToSecond.source).map
        (fun se => se.caps.maxTransferSize) = some 16 := by decide +kernel
    obtain ⟨se, hse, hsixteen⟩ := Option.map_eq_some_iff.mp hsize
    rw [hzero se hse] at hsixteen
    cases hsixteen

end Runtime

end TransferFabric
