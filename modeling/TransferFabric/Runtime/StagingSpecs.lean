import TransferFabric.Runtime.View

/-!
The staging functions, verified from a thread's view: they only touch buffers of
the record in hand, a reservation that fails leaves nothing behind, and a release
gives every buffer of the record back. What a careful thread holds is then always
the buffers its record lists.
-/

namespace TransferFabric

open Interaction

/-- A program keeps to a thread's permissions and ends in `Q`. -/
abbrev Keeps (rt : Runtime) (careful : Prop) {α : Type} (p : Prog RtSig α)
    (Q : α → View → Prop) (m : View) : Prop :=
  wp (View.Permits rt careful) View.step p Q m

variable {rt : Runtime} {careful : Prop} {α β : Type} {m : View} {r : Ref} {t : Transfer}

theorem Keeps.mono {p : Prog RtSig α} {Q R : α → View → Prop} (h : Keeps rt careful p Q m)
    (hQR : ∀ a m, Q a m → R a m) : Keeps rt careful p R m := wp_mono p h hQR

theorem keeps_bind {p : Prog RtSig α} {f : α → Prog RtSig β} {Q : β → View → Prop}
    (h : Keeps rt careful p (fun a m => Keeps rt careful (f a) Q m) m) :
    Keeps rt careful (p >>= f) Q m := (wp_bind p f Q m).mpr h

theorem keeps_ask {c : RtCall} {Q : RtAnswer c → View → Prop} (hp : m.Permits rt careful c)
    (hQ : ∀ x, m.Sees c x → Q x (m.after c x)) : Keeps rt careful (ask c) Q m :=
  ⟨hp, fun x _ hs => hs.2 ▸ hQ x hs.1⟩

section Calls

variable (hown : m.own = some (r, t))

include hown

theorem keeps_load {Q : Transfer → View → Prop} (hQ : Q t m) :
    Keeps rt careful (ask (.load r)) Q m := by
  refine keeps_ask (Or.inl ⟨t, hown⟩) fun x hx => ?_
  obtain rfl : x = t := hx t hown
  rw [View.after, View.edit_none _ rfl]
  exact hQ

theorem keeps_setState {s : TransferState} {Q : Unit → View → Prop} (hs : s.isTerminal = false)
    (hstate : t.state ≠ .active) (hcleared : s = .queued → m.Cleared t)
    (hQ : Q () { m with own := some (r, t.setState s) }) :
    Keeps rt careful (ask (.setState r s)) Q m := by
  refine keeps_ask ⟨⟨t, hown, hstate, hcleared⟩, hs⟩ fun x _ => ?_
  rw [View.after, View.edit_own x hown rfl]
  exact hQ

theorem keeps_storeStarted {Q : Unit → View → Prop}
    (hQ : Q () { m with own := some (r, { t with started := true }) }) :
    Keeps rt careful (ask (.storeStarted r)) Q m := by
  refine keeps_ask ⟨t, hown⟩ fun x _ => ?_
  rw [View.after, View.edit_own x hown rfl]
  exact hQ

theorem keeps_exchangeStarted {Q : Bool → View → Prop}
    (hQ : ∀ x, Q x { m with own := some (r, { t with started := false }) }) :
    Keeps rt careful (ask (.exchangeStarted r)) Q m := by
  refine keeps_ask ⟨t, hown⟩ fun x _ => ?_
  rw [View.after, View.edit_own x hown rfl]
  exact hQ x

theorem keeps_setStaging {bufs : List (List StagingBuffer)} {Q : Unit → View → Prop}
    (hQ : Q () { m with own := some (r, t.setStaging bufs) }) :
    Keeps rt careful (ask (.setStaging r bufs)) Q m := by
  refine keeps_ask ⟨t, hown⟩ fun x _ => ?_
  rw [View.after, View.edit_own x hown rfl]
  exact hQ

theorem keeps_pushStaging {j : Nat} {b : StagingBuffer} {Q : Unit → View → Prop}
    (hQ : Q () { m with own := some (r, t.pushStaging j b) }) :
    Keeps rt careful (ask (.pushStaging r j b)) Q m := by
  refine keeps_ask ⟨t, hown⟩ fun x _ => ?_
  rw [View.after, View.edit_own x hown rfl]
  exact hQ

theorem keeps_allocate {k : PoolKind} {bytes : ByteCount} {Q : Option StagingBuffer → View → Prop}
    (hQ : ∀ x, Q x (m.noteBuf k x)) : Keeps rt careful (ask (.allocate r k bytes)) Q m := by
  refine keeps_ask ⟨t, hown⟩ fun x _ => ?_
  rw [View.after, View.edit_none x rfl]
  exact hQ x

theorem keeps_release {k : PoolKind} {b : StagingBuffer} {Q : Unit → View → Prop}
    (hheld : careful → ¬ b.null → (k, b) ∈ m.bufs) (hQ : Q () (m.dropBuf k b)) :
    Keeps rt careful (ask (.release r k b)) Q m := by
  refine keeps_ask ⟨⟨t, hown⟩, hheld⟩ fun x _ => ?_
  rw [View.after, View.edit_none x rfl]
  exact hQ

end Calls

/-- A counter that is neither of the creation nor of an outcome. -/
def TelemetryOp.Plain (op : TelemetryOp) : Prop := op ≠ .transferCreated ∧ op.outcome = none

theorem keeps_count {op : TelemetryOp} {Q : Unit → View → Prop} (hop : op.Plain) (hQ : Q () m) :
    Keeps rt careful (ask (.count op)) Q m := by
  have hlearn : m.noteCount op = m := by simp [View.noteCount, hop.1, hop.2]
  refine keeps_ask ?_ fun x _ => ?_
  · show if op = .transferCreated then _ else _
    rw [if_neg hop.1, hop.2]
    exact fun h => by cases h
  · rw [View.after, View.edit_none x rfl]
    show Q () (m.noteCount op)
    rwa [hlearn]

/-! Giving buffers back. -/

theorem liveBufs_cons_null {k : PoolKind} {b : StagingBuffer} {bufs : List StagingBuffer}
    (hb : b.null) : liveBufs k (b :: bufs) = liveBufs k bufs := by
  simp [liveBufs, hb]

theorem liveBufs_cons_live {k : PoolKind} {b : StagingBuffer} {bufs : List StagingBuffer}
    (hb : ¬ b.null) : liveBufs k (b :: bufs) = (k, b) :: liveBufs k bufs := by
  simp [liveBufs, hb]

theorem liveBufs_append (k : PoolKind) (as bs : List StagingBuffer) :
    liveBufs k (as ++ bs) = liveBufs k as ++ liveBufs k bs := by
  simp [liveBufs]

/-- The buffers named are among those held; afterwards the rest is held. -/
theorem keeps_releaseBufs {k : PoolKind} {bufs : List StagingBuffer}
    {rest : List (PoolKind × StagingBuffer)} {Q : Unit → View → Prop}
    (hown : m.own = some (r, t)) (hheld : careful → m.bufs.Perm (liveBufs k bufs ++ rest))
    (hQ : ∀ left, (careful → left.Perm rest) → Q () { m with bufs := left }) :
    Keeps rt careful (releaseBufs r k bufs) Q m := by
  induction bufs generalizing m with
  | nil => exact hQ m.bufs hheld
  | cons b bufs ih =>
      refine keeps_bind (keeps_release hown ?_ ?_)
      · intro hc hb
        rw [(hheld hc).mem_iff, liveBufs_cons_live hb]
        exact List.mem_cons_self
      · by_cases hb : b.null
        · have hdrop : m.dropBuf k b = m := if_pos hb
          rw [hdrop]
          exact ih hown (fun hc => by simpa only [liveBufs_cons_null hb] using hheld hc) hQ
        · have hdrop : m.dropBuf k b = { m with bufs := m.bufs.erase (k, b) } := if_neg hb
          rw [hdrop]
          refine ih hown (fun hc => ?_) hQ
          have := (hheld hc).erase (k, b)
          rwa [liveBufs_cons_live hb, List.cons_append, List.erase_cons_head] at this

theorem stagedIn_succ (t : Transfer) (count start : Nat) :
    t.stagedIn (count + 1) start = t.stagedAt start ++ t.stagedIn count (start + 1) := by
  simp [Transfer.stagedIn, List.range'_succ]

theorem keeps_releaseNodes {count start : Nat} {rest : List (PoolKind × StagingBuffer)}
    {Q : Unit → View → Prop} {t' : Transfer} (hown : m.own = some (r, t'))
    (hheld : careful → m.bufs.Perm (t.stagedIn count start ++ rest))
    (hQ : ∀ left, (careful → left.Perm rest) → Q () { m with bufs := left }) :
    Keeps rt careful (releaseNodes r t count start) Q m := by
  induction count generalizing m start with
  | zero => exact hQ m.bufs hheld
  | succ count ih =>
      unfold releaseNodes forLoop
      have hfirst : careful → m.bufs.Perm (t.stagedAt start ++ (t.stagedIn count (start + 1) ++ rest)) :=
        fun hc => by simpa only [stagedIn_succ, List.append_assoc] using hheld hc
      refine keeps_bind (keeps_bind (keeps_releaseBufs hown hfirst fun left hleft => ?_))
      exact ih (m := { m with bufs := left }) hown hleft hQ

theorem keeps_releaseStaging {Q : Unit → View → Prop} (hown : m.own = some (r, t))
    (hheld : careful → m.bufs.Perm t.staged)
    (hQ : ∀ bufs left, (careful → left = []) →
      Q () { m with own := some (r, t.setStaging bufs), bufs := left }) :
    Keeps rt careful (releaseStaging r) Q m := by
  refine keeps_bind (keeps_load hown ?_)
  by_cases hlegs : t.body.route.legs = []
  · rw [if_pos hlegs]
    have hnone : t.staged = [] := by simp [Transfer.staged, Transfer.stagedIn, Route.nodes, hlegs]
    have := hQ t.body.stagingBufs m.bufs fun hc => by simpa [hnone] using hheld hc
    rwa [show t.setStaging t.body.stagingBufs = t from rfl, ← hown] at this
  · rw [if_neg hlegs]
    have hall : careful → m.bufs.Perm (t.stagedIn (t.body.route.nodes.length - 2) 1 ++ []) :=
      fun hc => (List.append_nil _).symm ▸ hheld hc
    refine keeps_bind (keeps_releaseNodes (t := t) hown hall fun left hleft => ?_)
    exact keeps_setStaging (m := { m with bufs := left }) hown
      (hQ [] left fun hc => List.perm_nil.mp (hleft hc))

/-! Reserving buffers. -/

theorem stagedAt_push_self {j : Nat} (b : StagingBuffer) (hj : j < t.body.stagingBufs.length) :
    (t.pushStaging j b).stagedAt j =
      t.stagedAt j ++ liveBufs (poolFor (t.body.route.nodes.getD j .unknown)) [b] := by
  simp only [Transfer.stagedAt, Transfer.pushStaging, Transfer.setStaging, List.getD_eq_getElem?_getD,
    List.getElem?_modify_eq, List.getElem?_eq_getElem hj, Option.map_eq_map, Option.map_some,
    Option.getD_some, ← liveBufs_append]

theorem stagedAt_push_ne {j j' : Nat} (b : StagingBuffer) (hj : j' ≠ j) :
    (t.pushStaging j b).stagedAt j' = t.stagedAt j' := by
  simp only [Transfer.stagedAt, Transfer.pushStaging, Transfer.setStaging, List.getD_eq_getElem?_getD,
    List.getElem?_modify_ne _ _ (Ne.symm hj)]

/-- One more buffer at a node between the ends. -/
theorem staged_push {j : Nat} (b : StagingBuffer) (hj : 1 ≤ j)
    (hlt : j + 1 < t.body.route.nodes.length) (hlen : j < t.body.stagingBufs.length) :
    List.Perm (t.pushStaging j b).staged
      (t.staged ++ liveBufs (poolFor (t.body.route.nodes.getD j .unknown)) [b]) := by
  have hmem : j ∈ List.range' 1 (t.body.route.nodes.length - 2) :=
    List.mem_range'_1.mpr ⟨hj, by omega⟩
  obtain ⟨rest, hold, hnew⟩ := flatMap_perm_at (f := t.stagedAt) (g := (t.pushStaging j b).stagedAt)
    List.nodup_range' hmem fun j' hj' => stagedAt_push_ne b hj'
  rw [stagedAt_push_self b hlen, List.append_assoc] at hnew
  refine hnew.trans (List.Perm.trans ?_ (hold.symm.append_right _))
  rw [List.append_assoc]
  exact List.Perm.append_left _ List.perm_append_comm

theorem takeBuf_eq (m : View) (k : PoolKind) (b : StagingBuffer) :
    ∃ left, m.takeBuf k b = { m with bufs := left } ∧ left = m.bufs ++ liveBufs k [b] := by
  unfold View.takeBuf
  by_cases hb : b.null
  · exact ⟨m.bufs, if_pos hb, by simp [liveBufs, hb]⟩
  · exact ⟨_, if_neg hb, by simp [liveBufs, hb]⟩

/-- The record in hand may list more buffers at node `j` than `t` does, and the thread
holds what the record lists. -/
def Grown (careful : Prop) (t : Transfer) (j : Nat) (bufs : List (List StagingBuffer))
    (left : List (PoolKind × StagingBuffer)) : Prop :=
  bufs.length = t.body.stagingBufs.length ∧
    (∀ j' ≠ j, bufs.getD j' [] = t.body.stagingBufs.getD j' []) ∧
    (careful → left.Perm (t.setStaging bufs).staged)

theorem keeps_reserveRing {j n : Nat} {bytes : ByteCount} {Q : Bool → View → Prop}
    (hown : m.own = some (r, t)) (hj : 1 ≤ j) (hlt : j + 1 < t.body.route.nodes.length)
    (hlen : j < t.body.stagingBufs.length) (hheld : careful → m.bufs.Perm t.staged)
    (hQ : ∀ done bufs left, Grown careful t j bufs left →
      Q done { m with own := some (r, t.setStaging bufs), bufs := left }) :
    Keeps rt careful
      (reserveRing r (poolFor (t.body.route.nodes.getD j .unknown)) bytes j n) Q m := by
  have hsame : ∀ done, Q done m := fun done => by
    have := hQ done t.body.stagingBufs m.bufs ⟨rfl, fun _ _ => rfl, hheld⟩
    rwa [show t.setStaging t.body.stagingBufs = t from rfl, ← hown] at this
  induction n generalizing m t with
  | zero => exact hsame true
  | succ n ih =>
      refine keeps_bind (keeps_allocate hown fun x => ?_)
      cases x with
      | none => exact hsame false
      | some b =>
          obtain ⟨left₁, htake, hleft₁⟩ := takeBuf_eq m (poolFor (t.body.route.nodes.getD j .unknown)) b
          show Keeps rt careful _ Q (m.takeBuf _ b)
          rw [htake]
          refine keeps_bind (keeps_pushStaging (m := { m with bufs := left₁ }) hown ?_)
          refine keeps_bind (keeps_count ⟨by simp, rfl⟩ (keeps_bind (keeps_count ⟨by simp, rfl⟩ ?_)))
          have hheld₁ : careful → left₁.Perm (t.pushStaging j b).staged := fun hc => by
            rw [hleft₁]
            exact ((hheld hc).append_right _).trans (staged_push b hj hlt hlen).symm
          have hQ₁ : ∀ done bufs left, Grown careful (t.pushStaging j b) j bufs left →
              Q done { m with own := some (r, t.setStaging bufs), bufs := left } := by
            rintro done bufs left ⟨hlen', hothers, hperm⟩
            refine hQ done bufs left ⟨?_, fun j' hj' => ?_, hperm⟩
            · simpa [Transfer.pushStaging, Transfer.setStaging] using hlen'
            · rw [hothers j' hj']
              simp only [Transfer.pushStaging, Transfer.setStaging, List.getD_eq_getElem?_getD,
                List.getElem?_modify_ne _ _ (Ne.symm hj')]
          refine ih (m := { m with own := some (r, t.pushStaging j b), bufs := left₁ })
            (t := t.pushStaging j b) rfl hlt ?_ hheld₁ hQ₁ fun done => ?_
          · simpa [Transfer.pushStaging, Transfer.setStaging] using hlen
          · exact hQ₁ done _ _ ⟨rfl, fun _ _ => rfl, hheld₁⟩

/-- When the nodes after `j` have no buffers, the record's buffers are those of node `j`
and of the nodes before it. -/
theorem staged_split {j : Nat} (hj : 1 ≤ j) (hlt : j + 1 < t.body.route.nodes.length)
    (hnone : ∀ j' > j, t.body.stagingBufs.getD j' [] = []) :
    List.Perm t.staged (t.stagedIn 1 j ++ (t.stagedIn (j - 1) 1 ++ [])) := by
  have hcount : t.body.route.nodes.length - 2 = (j - 1) + (1 + (t.body.route.nodes.length - 2 - j)) := by
    omega
  have hlater : t.stagedIn (t.body.route.nodes.length - 2 - j) (j + 1) = [] := by
    refine List.flatMap_eq_nil_iff.mpr fun j' hj' => ?_
    have := (List.mem_range'_1.mp hj').1
    simp only [Transfer.stagedAt, hnone j' (by omega)]
    rfl
  have hsplit : ∀ a b start, t.stagedIn (a + b) start =
      t.stagedIn a start ++ t.stagedIn b (start + a) := by
    intro a b start
    unfold Transfer.stagedIn
    rw [← List.flatMap_append, ← List.range'_append_1]
  unfold Transfer.staged
  rw [hcount, hsplit, hsplit, Nat.add_sub_cancel' hj, hlater, List.append_nil, List.append_nil]
  exact List.perm_append_comm

theorem keeps_undoReservation {j : Nat} {Q : Unit → View → Prop} (hown : m.own = some (r, t))
    (hj : 1 ≤ j) (hlt : j + 1 < t.body.route.nodes.length)
    (hnone : ∀ j' > j, t.body.stagingBufs.getD j' [] = [])
    (hheld : careful → m.bufs.Perm t.staged)
    (hQ : ∀ left, (careful → left = []) →
      Q () { m with own := some (r, t.setStaging []), bufs := left }) :
    Keeps rt careful (undoReservation r j) Q m := by
  refine keeps_bind (keeps_load hown (keeps_bind ?_))
  refine keeps_releaseNodes (t := t) hown
    (fun hc => (hheld hc).trans (staged_split hj hlt hnone)) fun left₁ hleft₁ => keeps_bind ?_
  refine keeps_releaseNodes (t := t) (m := { m with bufs := left₁ }) hown hleft₁
    fun left₂ hleft₂ => ?_
  exact keeps_setStaging (m := { m with bufs := left₂ }) hown
    (hQ left₂ fun hc => List.perm_nil.mp (hleft₂ hc))

/-- The reservation fails with one error only. -/
def stagingFailed : Error :=
  { category := .resourceExhausted, message := "staging reservation failed" }

theorem Transfer.staged_bare (h : ∀ j, t.body.stagingBufs.getD j [] = []) : t.staged = [] := by
  refine List.flatMap_eq_nil_iff.mpr fun j _ => ?_
  rw [Transfer.stagedAt, h j]
  rfl

/-- The record gets the buffers its route needs, or none. -/
theorem keeps_reserveStaging {depth : Nat} {Q : Error → View → Prop} (hown : m.own = some (r, t))
    (hheld : careful → m.bufs = [])
    (hQ : ∀ e bufs left, e = {} ∨ e = stagingFailed ∧ bufs = [] →
      (careful → left.Perm (t.setStaging bufs).staged) →
      Q e { m with own := some (r, t.setStaging bufs), bufs := left }) :
    Keeps rt careful (reserveStaging depth r) Q m := by
  refine keeps_bind (keeps_load hown ?_)
  by_cases hlegs : t.body.route.legs = []
  · rw [if_pos hlegs]
    have hstaged : t.staged = [] := by simp [Transfer.staged, Transfer.stagedIn, Route.nodes, hlegs]
    have := hQ {} t.body.stagingBufs m.bufs (Or.inl rfl) fun hc => by
      rw [hheld hc, show t.setStaging t.body.stagingBufs = t from rfl, hstaged]
    rwa [show t.setStaging t.body.stagingBufs = t from rfl, ← hown] at this
  rw [if_neg hlegs]
  have hnodes : 2 ≤ t.body.route.nodes.length := by
    rw [Route.length_nodes _ hlegs]
    have := List.length_pos_iff.mpr hlegs
    omega
  refine keeps_bind (keeps_setStaging hown ?_)
  -- at the head of iteration `j` nothing is reserved from node `j` on
  let I : Nat → Error → View → Prop := fun j e m' => e = {} ∧ ∃ bufs left,
    bufs.length = t.body.route.nodes.length ∧ (∀ j' ≥ j, bufs.getD j' [] = []) ∧
    (careful → left.Perm (t.setStaging bufs).staged) ∧
    m' = { m with own := some (r, t.setStaging bufs), bufs := left }
  let J : Error → View → Prop := fun e m' => e = stagingFailed ∧ ∃ left, (careful → left = []) ∧
    m' = { m with own := some (r, t.setStaging []), bufs := left }
  refine Keeps.mono (wp_forLoop _ I J _ 1 ?_ ?_) ?_
  · rintro j _ _ hj hlt ⟨rfl, bufs, left, hlen, hlater, hperm, rfl⟩
    refine keeps_bind (keeps_reserveRing (t := t.setStaging bufs) rfl hj
      (by show j + 1 < t.body.route.nodes.length; omega)
      (by show j < bufs.length; omega) hperm ?_)
    rintro done bufs' left' ⟨hlen', hothers, hperm'⟩
    have hafter : ∀ j' > j, bufs'.getD j' [] = [] := fun j' hj' => by
      rw [hothers j' (by omega)]
      exact hlater j' (by omega)
    cases done with
    | true => exact ⟨rfl, bufs', left', hlen'.trans hlen, fun j' hj' => hafter j' (by omega), hperm', rfl⟩
    | false =>
        refine keeps_bind (keeps_undoReservation (t := t.setStaging bufs') rfl hj
          (by show j + 1 < t.body.route.nodes.length; omega) hafter hperm' fun left'' hleft => ?_)
        exact ⟨rfl, left'', hleft, rfl⟩
  · refine ⟨rfl, List.replicate t.body.route.nodes.length [], m.bufs, by simp, fun j _ => ?_,
      fun hc => ?_, rfl⟩
    · rw [List.getD_eq_getElem?_getD, List.getElem?_replicate]
      split <;> rfl
    · rw [hheld hc, Transfer.staged_bare]
      intro j
      show (List.replicate t.body.route.nodes.length []).getD j [] = []
      rw [List.getD_eq_getElem?_getD, List.getElem?_replicate]
      split <;> rfl
  · rintro e m' (⟨rfl, bufs, left, -, -, hperm, rfl⟩ | ⟨rfl, left, hleft, rfl⟩)
    · exact hQ {} bufs left (Or.inl rfl) hperm
    · refine hQ _ [] left (Or.inr ⟨rfl, rfl⟩) fun hc => ?_
      rw [hleft hc, Transfer.staged_bare]
      intro j
      rfl

end TransferFabric
