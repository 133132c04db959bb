import TransferFabric.Runtime.CopyMemory
import TransferFabric.Runtime.ExecutorStaging

/-!
The executor copies exactly the requested bytes, whenever the accepted copies
land. The invariant says where each chunk is. At the head of iteration `i`
every earlier chunk has arrived, or its last copy is still to land and its slot
of the last ring still holds it. Within the iteration, slot `i % depth` has no
copy left to land, so the legs may overwrite it.
-/

namespace TransferFabric

open Interaction Memory

namespace RunContext

section Invariant

variable (ctx : RunContext) (fileOf : Handle → Nat) (st₀ : Store Cell Byte) (useAsync : Bool)

/-- Node `j` holds chunk `c` of the original source. -/
def Carries (j c : Nat) (w : CopyWorld) : Prop :=
  ∀ k < ctx.plan.chunkLength c, w.store (ctx.nodeRegion fileOf j c k) =
    st₀ (ctx.sourceRegion fileOf (c * ctx.plan.chunkSize.toNat + k))

/-- The memory at the head of iteration `i`. -/
structure Flowing (i : Nat) (w : CopyWorld) : Prop where
  issued : ∀ q ∈ w.pending, useAsync = true ∧ ∃ c < i, q = ctx.entry c
  staged : ∀ c < i, ctx.entry c ∈ w.pending → ctx.Carries fileOf st₀ (ctx.nlegs - 1) c w
  arrived : ∀ c < i, ctx.entry c ∈ w.pending ∨ ctx.Carries fileOf st₀ ctx.nlegs c w
  frame : ∀ cell, ctx.Outside fileOf cell → w.store cell = st₀ cell

/-- The memory within iteration `i`, when chunk `i` has come to node `j`. -/
structure Filling (i j : Nat) (w : CopyWorld) : Prop extends
    Flowing ctx fileOf st₀ useAsync i w where
  clear : ∀ q ∈ w.pending, q.1 ≠ i % ctx.depth
  carries : ctx.Carries fileOf st₀ j i w

end Invariant

variable {ctx : RunContext} {fileOf : Handle → Nat} {st₀ : Store Cell Byte} {useAsync : Bool}
  {w w' : CopyWorld} {i j c : Nat}

/-- A write elsewhere leaves a chunk where it is. -/
theorem Carries.frame {dst : Nat → Cell} {n : Nat} (h : ctx.Carries fileOf st₀ j c w)
    (hwithin : Within dst n w.store w'.store)
    (hne : ∀ k < ctx.plan.chunkLength c, ∀ l < n, ctx.nodeRegion fileOf j c k ≠ dst l) :
    ctx.Carries fileOf st₀ j c w' := by
  intro k hk
  rw [hwithin _ (hne k hk)]
  exact h k hk

/-- The copy of a leg brings the chunk to the next node. -/
theorem Carries.next {l : Nat} (h : ctx.Carries fileOf st₀ j c w)
    (hm : Moves (ctx.nodeRegion fileOf j c) (ctx.nodeRegion fileOf l c) (ctx.plan.chunkLength c)
      w.store w'.store) : ctx.Carries fileOf st₀ l c w' := by
  intro k hk
  rw [hm.moved k hk]
  exact h k hk

theorem legSpec_moves {st st' : Store Cell Byte} (h : Moves ((ctx.legSpec j (ctx.plan.chunkOf c)).source fileOf)
      ((ctx.legSpec j (ctx.plan.chunkOf c)).target fileOf)
      (ctx.legSpec j (ctx.plan.chunkOf c)).bytes.toNat st st') :
    Moves (ctx.nodeRegion fileOf j c) (ctx.nodeRegion fileOf (j + 1) c) (ctx.plan.chunkLength c)
      st st' := by
  rw [← ctx.chunkOf_length c]
  exact h

theorem nlegs_pos (hlegs : ctx.legs ≠ []) : 0 < ctx.nlegs := List.length_pos_iff.mpr hlegs

theorem finalSpec_eq (hlegs : ctx.legs ≠ []) (c : Chunk) :
    ctx.finalSpec c = ctx.legSpec (ctx.nlegs - 1) c := by
  unfold finalSpec legSpec lastLeg
  rw [Nat.sub_add_cancel (nlegs_pos hlegs)]

theorem entry_lands (hlegs : ctx.legs ≠ []) {st st' : Store Cell Byte}
    (h : lands fileOf (ctx.entry c) st st') :
    Moves (ctx.nodeRegion fileOf (ctx.nlegs - 1) c) (ctx.nodeRegion fileOf ctx.nlegs c)
      (ctx.plan.chunkLength c) st st' := by
  unfold lands entry at h
  rw [finalSpec_eq hlegs] at h
  have := legSpec_moves h
  rwa [Nat.sub_add_cancel (nlegs_pos hlegs)] at this

/-- Different chunks have different last copies. -/
theorem entry_inj (hlegs : ctx.legs ≠ []) {d : Nat} (hc : c < ctx.count) (hd : d < ctx.count)
    (h : ctx.entry c = ctx.entry d) : c = d := by
  have htarget : (ctx.finalSpec (ctx.plan.chunkOf c)).target UInt64.toNat =
      (ctx.finalSpec (ctx.plan.chunkOf d)).target UInt64.toNat :=
    congrArg (fun q => q.2.target UInt64.toNat) h
  exact dest_chunk_inj hlegs hc hd ((ctx.covers hc).length_pos hc) ((ctx.covers hd).length_pos hd)
    (congrFun htarget 0)

section Steps

variable (hlayout : ctx.Layout fileOf) (hlegs : ctx.legs ≠ [])
include hlayout hlegs

/-- One accepted copy lands. -/
theorem Flowing.land {st st' : Store Cell Byte} {q : Nat × CopySpec} {l₁ l₂ : List (Nat × CopySpec)}
    (hi : i ≤ ctx.count) (h : ctx.Flowing fileOf st₀ useAsync i ⟨st, l₁ ++ q :: l₂⟩)
    (hq : lands fileOf q st st') : ctx.Flowing fileOf st₀ useAsync i ⟨st', l₁ ++ l₂⟩ := by
  have hsub : ∀ p ∈ l₁ ++ l₂, p ∈ l₁ ++ q :: l₂ := by
    intro p hp
    simp only [List.mem_append, List.mem_cons] at hp ⊢
    tauto
  have hpos := nlegs_pos hlegs
  obtain ⟨-, c, hc, rfl⟩ := h.issued q (by simp)
  have hm := entry_lands hlegs hq
  refine ⟨fun p hp => h.issued p (hsub p hp), ?_, ?_, ?_⟩
  · intro d hd hmem
    exact (h.staged d hd (hsub _ hmem)).frame hm.frame fun k hk l hl =>
      hlayout.node_ne_dest hlegs (by omega) (by omega) (by omega) hk hl
  · intro d hd
    by_cases hdc : d = c
    · subst hdc
      exact Or.inr ((h.staged d hd (by simp)).next hm)
    · rcases h.arrived d hd with hmem | hthere
      · left
        have hne : ctx.entry d ≠ ctx.entry c := fun heq =>
          hdc (entry_inj hlegs (by omega) (by omega) heq)
        simp only [List.mem_append, List.mem_cons] at hmem ⊢
        tauto
      · right
        exact hthere.frame hm.frame fun k hk l hl heq =>
          hdc (dest_chunk_inj hlegs (by omega) (by omega) hk hl heq)
  · intro cell hout
    rw [← h.frame cell hout]
    exact hm.frame cell fun k hk => hout.ne_node hlegs hpos (Nat.le_refl _) (by omega) hk

theorem Flowing.settles (hi : i ≤ ctx.count) (h : ctx.Flowing fileOf st₀ useAsync i w)
    (hs : w.Settles fileOf w') : ctx.Flowing fileOf st₀ useAsync i w' :=
  Settles.preserves (P := fun st l => ctx.Flowing fileOf st₀ useAsync i ⟨st, l⟩) hs
    (fun _ _ _ _ _ hp hq => hp.land hlayout hlegs hi hq) h

theorem Filling.settles (hi : i < ctx.count) (hj : j < ctx.nlegs)
    (h : ctx.Filling fileOf st₀ useAsync i j w) (hs : w.Settles fileOf w') :
    ctx.Filling fileOf st₀ useAsync i j w' := by
  refine Settles.preserves (P := fun st l => ctx.Filling fileOf st₀ useAsync i j ⟨st, l⟩) hs ?_ h
  intro st st' q l₁ l₂ hp hq
  obtain ⟨-, c, hc, rfl⟩ := hp.issued q (by simp)
  refine ⟨hp.toFlowing.land hlayout hlegs (Nat.le_of_lt hi) hq, ?_, ?_⟩
  · intro p hmem
    apply hp.clear p
    simp only [List.mem_append, List.mem_cons] at hmem ⊢
    tauto
  · exact hp.carries.frame (entry_lands hlegs hq).frame fun k hk l hl =>
      hlayout.node_ne_dest hlegs hj hi (by omega) hk hl

omit hlegs in
/-- The source is untouched, so chunk `i` stands at node `0`. -/
theorem Flowing.fill (hi : i < ctx.count) (h : ctx.Flowing fileOf st₀ useAsync i w)
    (hclear : ∀ q ∈ w.pending, q.1 ≠ i % ctx.depth) :
    ctx.Filling fileOf st₀ useAsync i 0 w := by
  refine ⟨h, hclear, fun k hk => ?_⟩
  rw [nodeRegion_source ctx hi]
  exact h.frame _ (hlayout.source_outside (ctx.chunk_byte_lt hi hk).1)

/-- A write to the next node, whatever it leaves there. No copy that is still to land reads
the slot it writes, and the earlier chunks of the destination lie elsewhere. -/
theorem Filling.disturb (hi : i < ctx.count) (hj : j < ctx.nlegs)
    (h : ctx.Filling fileOf st₀ useAsync i j w) (hpend : w'.pending = w.pending)
    (hwithin : Within (ctx.nodeRegion fileOf (j + 1) i) (ctx.plan.chunkLength i) w.store w'.store) :
    ctx.Flowing fileOf st₀ useAsync i w' := by
  refine ⟨?_, ?_, ?_, ?_⟩
  · rw [hpend]
    exact h.issued
  · intro c hc hmem
    rw [hpend] at hmem
    refine (h.staged c hc hmem).frame hwithin fun k hk l hl heq => ?_
    rcases Nat.lt_or_eq_of_le (Nat.succ_le_of_lt hj) with hring | hlast
    · have hstaged := (staged_iff hlegs (j + 1)).mpr ⟨by omega, hring⟩
      exact h.clear _ hmem
        (hlayout.node_eq_ring hlegs (by omega) hstaged (by omega) hi hk hl heq).2
    · rw [Nat.succ_eq_add_one] at hlast
      rw [hlast] at heq
      exact hlayout.node_ne_dest hlegs (by omega) (by omega) hi hk hl heq
  · intro c hc
    rw [hpend]
    refine (h.arrived c hc).imp_right fun hthere => hthere.frame hwithin fun k hk l hl heq => ?_
    rcases Nat.lt_or_eq_of_le (Nat.succ_le_of_lt hj) with hring | hlast
    · exact hlayout.node_ne_dest hlegs hring hi (by omega) hl hk heq.symm
    · rw [Nat.succ_eq_add_one] at hlast
      rw [hlast] at heq
      exact absurd (dest_chunk_inj hlegs (by omega) hi hk hl heq) (by omega)
  · intro cell hout
    rw [← h.frame cell hout]
    exact hwithin cell fun k hk => hout.ne_node hlegs (by omega) (by omega) hi hk

/-- A leg into a ring. -/
theorem Filling.leg (hi : i < ctx.count) (hj : j + 1 < ctx.nlegs)
    (h : ctx.Filling fileOf st₀ useAsync i j w) (hpend : w'.pending = w.pending)
    (hm : Moves (ctx.nodeRegion fileOf j i) (ctx.nodeRegion fileOf (j + 1) i)
      (ctx.plan.chunkLength i) w.store w'.store) :
    ctx.Filling fileOf st₀ useAsync i (j + 1) w' :=
  ⟨h.disturb hlayout hlegs hi (by omega) hpend hm.frame, hpend ▸ h.clear, h.carries.next hm⟩

/-- A synchronous last leg. -/
theorem Filling.deliver (hi : i < ctx.count) (hasync : useAsync = false)
    (h : ctx.Filling fileOf st₀ useAsync i (ctx.nlegs - 1) w) (hpend : w'.pending = w.pending)
    (hm : Moves (ctx.nodeRegion fileOf (ctx.nlegs - 1) i) (ctx.nodeRegion fileOf ctx.nlegs i)
      (ctx.plan.chunkLength i) w.store w'.store) :
    ctx.Flowing fileOf st₀ useAsync (i + 1) w' := by
  have hlast := Nat.sub_add_cancel (nlegs_pos hlegs)
  have hbefore : ctx.Flowing fileOf st₀ useAsync i w' := by
    refine h.disturb hlayout hlegs hi (by omega) hpend ?_
    rw [hlast]
    exact hm.frame
  have hnone : ∀ q, q ∉ w'.pending := by
    intro q hq
    have := (hbefore.issued q hq).1
    rw [hasync] at this
    cases this
  refine ⟨fun q hq => absurd hq (hnone q), fun c _ hmem => absurd hmem (hnone _), ?_, hbefore.frame⟩
  intro c hc
  right
  by_cases hci : c = i
  · subst hci
    exact h.carries.next hm
  · exact (hbefore.arrived c (by omega)).resolve_left (hnone _)

omit hlayout in
/-- An asynchronous last leg: the chunk waits in its slot. -/
theorem Filling.issue (hi : i < ctx.count) (hasync : useAsync = true)
    (h : ctx.Filling fileOf st₀ useAsync i (ctx.nlegs - 1) w) :
    ctx.Flowing fileOf st₀ useAsync (i + 1) { w with pending := w.pending ++ [ctx.entry i] } := by
  refine ⟨?_, ?_, ?_, h.frame⟩
  · intro q hq
    rcases List.mem_append.mp hq with hq | hq
    · obtain ⟨ha, c, hc, rfl⟩ := h.issued q hq
      exact ⟨ha, c, by omega, rfl⟩
    · exact ⟨hasync, i, by omega, List.mem_singleton.mp hq⟩
  · intro c hc hmem
    by_cases hci : c = i
    · subst hci
      exact h.carries
    · rcases List.mem_append.mp hmem with hmem | hmem
      · exact h.staged c (by omega) hmem
      · exact absurd (entry_inj hlegs (by omega) hi (List.mem_singleton.mp hmem)) hci
  · intro c hc
    by_cases hci : c = i
    · subst hci
      exact Or.inl (by simp)
    · exact (h.arrived c (by omega)).imp_left (List.mem_append_left _)

end Steps

/-! Runs. -/

theorem runLeg_ok {li : Nat} {e : Error} {t : ExecTrace} {c : Chunk}
    (h : Runs (ctx.runLeg li c) e t) (hok : e.ok = true) :
    t = [⟨.canCopy (ctx.leg li).backend (ctx.legSpec li c), true⟩,
      ⟨.copy (ctx.leg li).backend (ctx.legSpec li c), e⟩] := by
  unfold runLeg at h
  cases hb : ctx.backends (ctx.leg li).backend with
  | none =>
      simp only [hb] at h
      obtain ⟨rfl, rfl⟩ := h
      cases hok
  | some b =>
      simp only [hb] at h
      obtain ⟨able, rest, rfl, hr⟩ := h
      cases able with
      | false =>
          obtain ⟨rfl, rfl⟩ := hr
          cases hok
      | true =>
          obtain rfl := (runs_exec _ _ _).mp hr
          rfl

section Runs

variable (hlayout : ctx.Layout fileOf) (hlegs : ctx.legs ≠ [])
include hlayout hlegs

/-- A successful leg settles what is pending and then moves the chunk on. -/
theorem leg_path {li : Nat} {e : Error} {t : ExecTrace} (hi : i < ctx.count)
    (hj : li < ctx.nlegs) (hrun : Runs (ctx.runLeg li (ctx.plan.chunkOf i)) e t) (hok : e.ok = true)
    (hpath : Path (copyEffect fileOf) w t w') (h : ctx.Filling fileOf st₀ useAsync i li w) :
    ∃ m, ctx.Filling fileOf st₀ useAsync i li m ∧ w'.pending = m.pending ∧
      Moves (ctx.nodeRegion fileOf li i) (ctx.nodeRegion fileOf (li + 1) i)
        (ctx.plan.chunkLength i) m.store w'.store := by
  rw [runLeg_ok hrun hok] at hpath
  obtain ⟨w₁, hask, w₂, ⟨m, hsettle, hcopy⟩, rfl⟩ := hpath
  have hfill := (h.settles hlayout hlegs hi hj (settles_of_still rfl hask)).settles hlayout hlegs
    hi hj hsettle
  obtain ⟨hm, hpend⟩ := hcopy hok
  exact ⟨m, hfill, hpend, legSpec_moves hm⟩

/-- All legs but the last bring the chunk to the last ring, or leave it at the source. -/
theorem legs_path {e : Error} {t : ExecTrace} (hi : i < ctx.count)
    (hrun : Runs (ctx.runLegs (ctx.plan.chunkOf i)) e t) (hok : e.ok = true)
    (hpath : Path (copyEffect fileOf) w t w') (h : ctx.Filling fileOf st₀ useAsync i 0 w) :
    ctx.Filling fileOf st₀ useAsync i (ctx.nlegs - 1) w' := by
  have loop := runs_forLoop
    (I := fun li _ t => ∀ w', Path (copyEffect fileOf) w t w' →
      ctx.Filling fileOf st₀ useAsync i li w')
    (J := fun e _ => e.ok = false) hrun (u := []) ?_ ?_ ?_
  · simp only [List.nil_append, Nat.zero_add] at loop
    rcases loop with hgood | hbad
    · exact hgood w' hpath
    · rw [hok] at hbad
      cases hbad
  · rintro w' rfl
    exact h
  · intro li _ s' t₀ t _ hli hI hbody w' hpath
    obtain ⟨e, t₁, t₂, rfl, hleg, hrest⟩ := (runs_bind _ _ _ _).mp hbody
    by_cases he : e.ok = true
    · rw [if_pos he] at hrest
      obtain ⟨-, rfl⟩ := hrest
      rw [List.append_nil] at hpath
      obtain ⟨m, hp₀, hp₁⟩ := (path_append _ _ _ _ _).mp hpath
      obtain ⟨m', hfill, hpend, hm⟩ :=
        leg_path hlayout hlegs hi (by omega) hleg he hp₁ (hI m hp₀)
      exact hfill.leg hlayout hlegs hi (by omega) hpend hm
    · rw [if_neg he] at hrest
      cases hrest.1
  · intro li _ s' t₀ t _ _ _ hbody
    obtain ⟨e, t₁, t₂, rfl, hleg, hrest⟩ := (runs_bind _ _ _ _).mp hbody
    by_cases he : e.ok = true
    · rw [if_pos he] at hrest
      cases hrest.1
    · rw [if_neg he] at hrest
      cases hrest.1
      simpa using he

/-- The last leg delivers the chunk, or leaves it to its stream. -/
theorem finalLeg_path {e : Error} {t : ExecTrace} (hi : i < ctx.count)
    (hrun : Runs (ctx.finalLeg useAsync (ctx.streamOf useAsync i) (ctx.plan.chunkOf i)) e t)
    (hok : e.ok = true) (hpath : Path (copyEffect fileOf) w t w')
    (h : ctx.Filling fileOf st₀ useAsync i (ctx.nlegs - 1) w) :
    ctx.Flowing fileOf st₀ useAsync (i + 1) w' := by
  have hpos := nlegs_pos hlegs
  cases useAsync with
  | false =>
      obtain ⟨m, hfill, hpend, hm⟩ := leg_path hlayout hlegs hi (by omega)
        (show Runs (ctx.runLeg (ctx.nlegs - 1) _) e t from hrun) hok hpath h
      rw [Nat.sub_add_cancel hpos] at hm
      exact hfill.deliver hlayout hlegs hi rfl hpend hm
  | true =>
      rcases finalLeg_async hrun with ⟨he, -⟩ | rfl
      · rw [hok] at he
        cases he
      · obtain ⟨w₁, hask, w₂, ⟨m, hsettle, hissue⟩, rfl⟩ := hpath
        have hlast : ctx.nlegs - 1 < ctx.nlegs := by omega
        have hfill := (h.settles hlayout hlegs hi hlast (settles_of_still rfl hask)).settles
          hlayout hlegs hi hlast hsettle
        rw [hissue hok]
        exact hfill.issue hlegs hi rfl

/-- After the synchronisation before reuse, nothing of the slot is left to land. -/
theorem reuseSync_path {t : ExecTrace} (hi : i < ctx.count)
    (hsync : ctx.ReuseSync useAsync i t) (hok : ∀ ev ∈ t, ExecEvent.syncFailed ev = false)
    (hpath : Path (copyEffect fileOf) w t w') (h : ctx.Flowing fileOf st₀ useAsync i w) :
    ctx.Filling fileOf st₀ useAsync i 0 w' := by
  unfold ReuseSync at hsync
  by_cases hreuse : useAsync = true ∧ i ≥ ctx.depth
  · rw [if_pos hreuse] at hsync
    obtain ⟨e, rfl⟩ := hsync
    have he : Error.ok e = true := by simpa [ExecEvent.syncFailed] using hok
    obtain ⟨w₁, ⟨m, hsettle, hsynced⟩, rfl⟩ := hpath
    obtain ⟨rfl, hclear⟩ := hsynced he
    rw [streamOf, if_pos hreuse.1] at hclear
    exact (h.settles hlayout hlegs (Nat.le_of_lt hi) hsettle).fill hlayout hi hclear
  · rw [if_neg hreuse] at hsync
    subst hsync
    obtain rfl := hpath
    refine h.fill hlayout hi fun q hq => ?_
    obtain ⟨ha, c, hc, rfl⟩ := h.issued q hq
    have hdepth : i < ctx.depth := by
      by_contra hge
      exact hreuse ⟨ha, by omega⟩
    change c % ctx.depth ≠ i % ctx.depth
    rw [Nat.mod_eq_of_lt (by omega), Nat.mod_eq_of_lt hdepth]
    omega

/-- One iteration of the chunk loop. -/
theorem chunk_path {s s' : LoopState} {t : ExecTrace} (hi : i < ctx.count)
    (hrun : ChunkRun ctx useAsync i s (.next s') t)
    (hok : ∀ ev ∈ t, ExecEvent.syncFailed ev = false)
    (hpath : Path (copyEffect fileOf) w t w') (h : ctx.Flowing fileOf st₀ useAsync i w) :
    ctx.Flowing fileOf st₀ useAsync (i + 1) w' := by
  cases hrun with
  | moved hsync hlegsRun he₀ hfinal he completed hcompleted =>
      obtain ⟨w₁, hcancel, hrest⟩ := hpath
      obtain ⟨w₄, hmove, w₅, hstatus, rfl⟩ := (path_append _ _ _ _ _).mp hrest
      obtain ⟨w₃, hmove, hlast⟩ := (path_append _ _ _ _ _).mp hmove
      obtain ⟨w₂, hfirst, hmiddle⟩ := (path_append _ _ _ _ _).mp hmove
      have h₁ := h.settles hlayout hlegs (Nat.le_of_lt hi) (settles_of_still rfl hcancel)
      have h₂ := reuseSync_path hlayout hlegs hi hsync
        (fun ev hev => hok ev (by simp [hev])) hfirst h₁
      have h₃ := legs_path hlayout hlegs hi hlegsRun he₀ hmiddle h₂
      have h₄ := finalLeg_path hlayout hlegs hi hfinal he hlast h₃
      exact h₄.settles hlayout hlegs hi (settles_of_still rfl hstatus)

/-- The chunk loop, when it ends without a failure. -/
theorem chunkLoop_path {s : LoopState} {t : ExecTrace}
    (hrun : Runs (forLoop (ctx.chunkStep useAsync) ctx.count 0 {}) s t) (hs : s.failed = false)
    (hok : ∀ ev ∈ t, ExecEvent.syncFailed ev = false)
    (hpath : Path (copyEffect fileOf) w t w') (h : ctx.Flowing fileOf st₀ useAsync 0 w) :
    ctx.Flowing fileOf st₀ useAsync ctx.count w' := by
  have loop := runs_forLoop
    (I := fun i _ t => (∀ ev ∈ t, ExecEvent.syncFailed ev = false) →
      ∀ w', Path (copyEffect fileOf) w t w' → ctx.Flowing fileOf st₀ useAsync i w')
    (J := fun s _ => s.failed = true) hrun (u := []) ?_ ?_ ?_
  · simp only [List.nil_append, Nat.zero_add] at loop
    rcases loop with hgood | hbad
    · exact hgood hok w' hpath
    · rw [hs] at hbad
      cases hbad
  · rintro - w' rfl
    exact h
  · intro i s s' t₀ t _ hi hI hbody hok w' hpath
    obtain ⟨m, hp₀, hp₁⟩ := (path_append _ _ _ _ _).mp hpath
    exact chunk_path hlayout hlegs (by omega) (chunkStep_cases (by omega) hbody)
      (fun ev hev => hok ev (List.mem_append_right _ hev)) hp₁
      (hI (fun ev hev => hok ev (List.mem_append_left _ hev)) m hp₀)
  · intro i s s' t₀ t _ hi _ hbody
    cases chunkStep_cases (by omega) hbody with
    | cancelled => rfl
    | legFailed _ _ _ => rfl
    | finalFailed _ _ _ _ _ => rfl

/-- The drain leaves nothing to land. -/
theorem drain_path {s s' : LoopState} {t : ExecTrace} (hs : s.failed = false)
    (hs' : s'.failed = false) (hrun : Runs (ctx.drain useAsync s) s' t)
    (hpath : Path (copyEffect fileOf) w t w')
    (h : ctx.Flowing fileOf st₀ useAsync ctx.count w) :
    ctx.Flowing fileOf st₀ useAsync ctx.count w' ∧ w'.pending = [] := by
  unfold drain at hrun
  cases useAsync with
  | false =>
      obtain ⟨-, rfl⟩ := hrun
      obtain rfl := hpath
      refine ⟨h, List.eq_nil_iff_forall_not_mem.mpr fun q hq => ?_⟩
      cases (h.issued q hq).1
  | true =>
      rw [if_pos ⟨rfl, by simp [hs]⟩] at hrun
      have loop := runs_forLoop
        (I := fun k _ t => ∀ w', Path (copyEffect fileOf) w t w' →
          ctx.Flowing fileOf st₀ true ctx.count w' ∧ ∀ q ∈ w'.pending, k ≤ q.1)
        (J := fun s _ => s.failed = true) hrun (u := []) ?_ ?_ ?_
      · simp only [List.nil_append, Nat.zero_add] at loop
        rcases loop with hgood | hbad
        · obtain ⟨hflow, hlow⟩ := hgood w' hpath
          refine ⟨hflow, List.eq_nil_iff_forall_not_mem.mpr fun q hq => ?_⟩
          obtain ⟨-, c, hc, rfl⟩ := hflow.issued q hq
          exact absurd (hlow _ hq) (Nat.not_le_of_lt (Nat.mod_lt c ctx.depth_pos))
        · rw [hs'] at hbad
          cases hbad
      · rintro w' rfl
        exact ⟨h, fun q _ => Nat.zero_le _⟩
      · intro k s s' t₀ t _ _ hI hbody w' hpath
        obtain ⟨e, rfl, hf⟩ := drainStep_cases hbody
        obtain ⟨m, hp₀, w₁, ⟨m', hsettle, hsynced⟩, rfl⟩ := (path_append _ _ _ _ _).mp hpath
        obtain ⟨hflow, hlow⟩ := hI m hp₀
        by_cases he : e.ok = true
        · obtain ⟨rfl, hclear⟩ := hsynced he
          refine ⟨hflow.settles hlayout hlegs (Nat.le_refl _) hsettle, fun q hq => ?_⟩
          have := hlow q (hsettle.subset hq)
          have := hclear q hq
          omega
        · rw [if_neg he] at hf
          cases hf
      · intro k s s' t₀ t _ _ _ hbody
        obtain ⟨e, rfl, hf⟩ := drainStep_cases hbody
        by_cases he : e.ok = true
        · rw [if_pos he] at hf
          cases hf
        · rw [if_neg he] at hf
          cases hf
          rfl

end Runs

theorem still_of_setup {t : ExecTrace} (h : t.Only ExecEvent.isStreamSetup) :
    t.Only ExecEvent.isStill :=
  h.mono fun ev hev => by
    obtain ⟨c, x⟩ := ev
    cases c <;> first | rfl | cases hev

theorem Returned.still {t : ExecTrace} (h : ctx.Returned t) : t.Only ExecEvent.isStill := by
  obtain ⟨rel, des, rfl, hrel, hdes⟩ := h
  refine Trace.only_append.mpr ⟨(releaseRings_only hrel).mono fun ev hev => ?_, still_of_setup hdes⟩
  obtain ⟨c, x⟩ := ev
  cases c <;> first | rfl | cases hev

theorem still_of_reads {site : IoSite} {u : IoTrace} (h : u.Only IoEvent.isRead) :
    Trace.Only ExecEvent.isStill (u.map (liftIo site)) := by
  intro ev hev
  obtain ⟨ev, hmem, rfl⟩ := List.mem_map.mp hev
  exact h ev hmem

theorem VerifyRun.still {r : Error} {t : ExecTrace} (h : VerifyRun ctx r t) :
    t.Only ExecEvent.isStill := by
  cases h with
  | skipped hnot => simp [ExecEvent.isStill]
  | compared hv hs hd hr hu =>
      have hsrc := (hashEndpointRegion_stored UInt64.toNat hv.1 hv.total_ne_zero hs).1
      have hdst := (hashEndpointRegion_stored UInt64.toNat hv.1 hv.total_ne_zero hd).1
      simp [ExecEvent.isStill, still_of_reads hsrc, still_of_reads hdst]

/-- Every byte of the total lies in a chunk. -/
theorem chunk_cover (ctx : RunContext) {k : Nat} (hk : k < ctx.plan.total.toNat) :
    ∃ c < ctx.count, ∃ l < ctx.plan.chunkLength c, k = c * ctx.plan.chunkSize.toNat + l := by
  have htotal : ctx.plan.total ≠ 0 := (toNat_ne_zero _).mp (by omega)
  have hcovers := ctx.record.chunkPlan.built.covers htotal
  have hsize := hcovers.size_pos
  have hsplit := Nat.div_add_mod k ctx.plan.chunkSize.toNat
  have hmod := Nat.mod_lt k hsize
  rw [Nat.mul_comm] at hsplit
  refine ⟨k / ctx.plan.chunkSize.toNat, ?_, k % ctx.plan.chunkSize.toNat, ?_, hsplit.symm⟩
  · exact (Nat.div_lt_iff_lt_mul hsize).mpr (Nat.lt_of_lt_of_le hk hcovers.total_le)
  · unfold ChunkPlan.chunkLength
    exact Nat.lt_min.mpr ⟨hmod, by omega⟩

/-- The destination range holds what the source range held, and no byte outside the
destination range and the rings has changed. -/
structure Copied (ctx : RunContext) (fileOf : Handle → Nat) (st st' : Store Cell Byte) : Prop where
  delivered : ∀ k < ctx.plan.total.toNat,
    st' (ctx.destRegion fileOf k) = st (ctx.sourceRegion fileOf k)
  source : ∀ k < ctx.plan.total.toNat,
    st' (ctx.sourceRegion fileOf k) = st (ctx.sourceRegion fileOf k)
  frame : ∀ cell, ctx.Outside fileOf cell → st' cell = st cell

theorem Flowing.copied (hlayout : ctx.Layout fileOf) (hlegs : ctx.legs ≠ [])
    (h : ctx.Flowing fileOf st₀ useAsync ctx.count w) (hw : w.pending = []) :
    ctx.Copied fileOf st₀ w.store where
  delivered := by
    intro k hk
    obtain ⟨c, hc, l, hl, rfl⟩ := ctx.chunk_cover hk
    have hthere := (h.arrived c hc).resolve_left (by simp [hw])
    rw [← nodeRegion_dest hlegs hc]
    exact hthere l hl
  source := fun k hk => h.frame _ (hlayout.source_outside hk)
  frame := h.frame

/-- A run of the transfer over a memory. -/
structure CopyExecution (ctx : RunContext) (fileOf : Handle → Nat) (w : CopyWorld) (r : Error)
    (t : ExecTrace) (w' : CopyWorld) : Prop where
  runs : Runs ctx.runTransfer r t
  path : Path (copyEffect fileOf) w t w'

theorem CopyExecution.copied {r : Error} {t : ExecTrace} (h : ctx.CopyExecution fileOf w r t w')
    (hlegs : ctx.legs ≠ []) (hlayout : ctx.Layout fileOf) (hw : w.pending = [])
    (hok : r.ok = true) (hsync : ∀ ev ∈ t, ExecEvent.syncFailed ev = false) :
    ctx.Copied fileOf w.store w'.store := by
  obtain ⟨hrun, hpath⟩ := h
  cases runTransfer_cases hrun with
  | empty hempty =>
      have hzero : ctx.plan.chunkCount = 0 :=
        hempty.resolve_left fun hnil => hlegs (List.isEmpty_iff.mp hnil)
      have hcount : ¬ 0 < ctx.count := by simp [count, hzero]
      have hnone : ∀ k, ¬ k < ctx.plan.total.toNat := fun k hk => by
        obtain ⟨c, hc, -⟩ := ctx.chunk_cover hk
        omega
      obtain ⟨hstore, -⟩ := still_path (by simp [ExecEvent.isStill]) hw hpath
      rw [hstore]
      exact ⟨fun k hk => absurd hk (hnone k), fun _ _ => rfl, fun _ _ => rfl⟩
  | refused _ he => simp [he] at hok
  | failed hcount _ hk hasync hopen hmove hs =>
      rcases moveChunks_outcome hk hcount hmove with ⟨hf, -⟩ | ⟨-, hres, -⟩
      · rw [hs] at hf
        cases hf
      · rw [hres] at hok
        cases hok
  | @moved useAsync s r opened moved verified hcount _ hk hasync hopen hmove hs hverify =>
      obtain ⟨w₂, hpath, hlast⟩ := (path_append _ _ _ _ _).mp hpath
      obtain ⟨w₁, hfirst, hmoves⟩ := (path_append _ _ _ _ _).mp hpath
      obtain ⟨s₀, loop, drained, returned, rfl, hloop, hdrain, hret⟩ := moveChunks_cases hmove
      obtain ⟨w₄, hmoves, hreturn⟩ := (path_append _ _ _ _ _).mp hmoves
      obtain ⟨w₃, hchunks, hdrains⟩ := (path_append _ _ _ _ _).mp hmoves
      obtain ⟨hstore₁, hnil₁⟩ := still_path (still_of_setup hopen) hw hfirst
      have hstart : ctx.Flowing fileOf w.store useAsync 0 w₁ :=
        ⟨by simp [hnil₁], (fun _ h => by cases h), (fun _ h => by cases h), fun cell _ => by rw [hstore₁]⟩
      have hs₀ : s₀.failed = false := by
        rcases (drain_outcome hdrain).2 with ⟨rfl, -⟩ | ⟨-, hf, -⟩
        · exact hs
        · rw [hs] at hf
          cases hf
      have hflow := chunkLoop_path hlayout hlegs hloop hs₀
        (fun ev hev => hsync ev (by simp [hev])) hchunks hstart
      obtain ⟨hflow, hnil⟩ := drain_path hlayout hlegs hs₀ hs hdrain hdrains hflow
      obtain ⟨hstore₂, hnil₂⟩ := still_path hret.still hnil hreturn
      obtain ⟨hstore₃, -⟩ := still_path (verify_cases hverify).still hnil₂ hlast
      rw [hstore₃, hstore₂]
      exact hflow.copied hlayout hlegs hnil

end RunContext

section ThreeNodes

variable {ctx : RunContext}

theorem staged_three (hnodes : ctx.nnodes = 3) {j : Nat} (h : ctx.Staged j) : j = 1 := by
  obtain ⟨hpos, hlast⟩ := h
  omega

variable (hbufs : (ctx.ring 1).bufs.map (fun b => (b.data, b.size)) =
  [(0x10000, 4096), (0x20000, 4096)])

include hbufs

/-- The two buffers of the ring. -/
theorem slotRegion_three {s : Nat} (h : s < 2) :
    ctx.slotRegion 1 s = memRegion (if s = 0 then 0x10000 else 0x20000) := by
  unfold RunContext.slotRegion
  obtain ⟨b, l, hcons, hb, hl⟩ := List.map_eq_cons_iff.mp hbufs
  obtain ⟨b', l', rfl, hb', -⟩ := List.map_eq_cons_iff.mp hl
  rw [hcons]
  obtain rfl | rfl : s = 0 ∨ s = 1 := by omega
  · exact congrArg memRegion (Prod.ext_iff.mp hb).1
  · exact congrArg memRegion (Prod.ext_iff.mp hb').1

theorem reserved_three (hnodes : ctx.nnodes = 3) (hdepth : ctx.depth = 2)
    (hplan : ctx.plan = threeChunks) : ctx.Reserved := by
  intro j hj
  obtain rfl := staged_three hnodes hj
  refine ⟨?_, fun b hb => ?_⟩
  · rw [hdepth, ← List.length_map, hbufs]
    rfl
  · have hmem := List.mem_map_of_mem (f := fun b : StagingBuffer => (b.data, b.size)) hb
    rw [hbufs] at hmem
    rw [hplan]
    rcases List.mem_cons.mp hmem with heq | hmem
    · exact (Prod.ext_iff.mp heq).2
    · exact (Prod.ext_iff.mp (List.mem_singleton.mp hmem)).2

/-- Two buffers of a chunk each, and a source and a destination of three chunks. -/
theorem layout_three (hnodes : ctx.nnodes = 3) (hdepth : ctx.depth = 2)
    (hplan : ctx.plan = threeChunks) (hsource : ctx.sourceRegion UInt64.toNat = memRegion 0x100000)
    (hdest : ctx.destRegion UInt64.toNat = memRegion 0x200000) : ctx.Layout UInt64.toNat where
  reserved := reserved_three hbufs hnodes hdepth hplan
  source_dest := by
    rw [hplan, hsource, hdest]
    exact fun k hk l hl => memRegion_ne (n := 12288) (m := 12288) (by decide) (by decide)
      (by decide) hk hl
  ring_source := by
    rw [hplan, hsource, hdepth]
    intro j hj s hs k hk l hl
    obtain rfl := staged_three hnodes hj
    rw [slotRegion_three hbufs hs]
    split
    · exact memRegion_ne (n := 4096) (m := 12288) (by decide) (by decide) (by decide) hk hl
    · exact memRegion_ne (n := 4096) (m := 12288) (by decide) (by decide) (by decide) hk hl
  ring_dest := by
    rw [hplan, hdest, hdepth]
    intro j hj s hs k hk l hl
    obtain rfl := staged_three hnodes hj
    rw [slotRegion_three hbufs hs]
    split
    · exact memRegion_ne (n := 4096) (m := 12288) (by decide) (by decide) (by decide) hk hl
    · exact memRegion_ne (n := 4096) (m := 12288) (by decide) (by decide) (by decide) hk hl
  ring_ring := by
    rw [hplan, hdepth]
    intro i hi j hj s hs r hr k hk l hl heq
    obtain rfl := staged_three hnodes hi
    obtain rfl := staged_three hnodes hj
    rw [slotRegion_three hbufs hs, slotRegion_three hbufs hr] at heq
    refine ⟨rfl, ?_⟩
    by_contra hne
    refine absurd heq (memRegion_ne (n := 4096) (m := 4096) ?_ ?_ ?_ hk hl)
    · split <;> decide
    · split <;> decide
    · obtain ⟨rfl, rfl⟩ | ⟨rfl, rfl⟩ : s = 0 ∧ r = 1 ∨ s = 1 ∧ r = 0 := by omega
      · decide
      · decide

end ThreeNodes

/-- Every byte of memory is the last byte of its address. -/
def addressBytes : CopyWorld where
  store := fun cell =>
    match cell with
    | .mem a => a.toUInt8
    | .file _ _ => 0

end TransferFabric
