/-
# Groups do not disturb each other

The workers of all hosts and the switch run together, whatever groups there are: one worker may
serve several groups, one after the other, and the packets of all groups pass through one switch.
`cluster_agreement` is what every group can rely on all the same, and `cluster_recoverable` what
a slot keeps for it.

Two things keep the groups apart.  The window of a worker contains packets of one group only, and
a response of another group finds no position in it (`Serving.turn`); and no two lanes share a
slot (`Lanes.Created.addr_ne`).  Nothing else is assumed of the order of things: `Cluster.Step` is
any step of any worker, of the switch, or of the network.
-/
import NetCCL.System.Lane
import NetCCL.System.Agreement

namespace NetCCL

open Lib Switch Backend

variable {W K : Type} [DecidableEq W] {D : Lanes W K} {tbl : Tables}
  {copies : W → BitVec 8 → List (ℕ × W)} {s s' : Cluster W} {k : K} {f : Traffic (Fin (D.n k))}

/-! ## 1. A worker's step -/

omit [DecidableEq W] in
/-- A worker that keeps to its lanes goes on doing so. -/
theorem Keeps.step {w : W} {ctx : BitVec 8 → BitVec 32} {aggLen : ℕ}
    (h : Keeps D s w ctx aggLen) {l : Label} {r : Run} (hok : D.Allows w (s.host w) l)
    (hstep : (s.host w).Step l r) (hs : s'.host w = r) : Keeps D s' w ctx aggLen := by
  obtain ⟨k, sent, popped, acc, hinv⟩ := h.serving.inv
  have hlen : ∀ t, l = .pushReq t → t.aggLen = aggLen := by
    intro t ht
    obtain ⟨k, i, hw, hgives⟩ := hok.plan t ht
    exact hgives.aggLen.trans (h.lanes k i hw).2
  refine ⟨hs ▸ h.serving.step ⟨hok.barrier, hlen⟩ hstep, h.lanes, fun ptr hptr hnot => ?_⟩
  rw [hs] at hptr hnot ⊢
  have hnot' : ptr ∉ pushed (s.host w).log := by
    obtain ⟨events, -, hlog⟩ := hstep
    rw [hlog, pushed_append] at hnot
    exact fun hmem => hnot (List.mem_append_left _ hmem)
  by_cases hpush : ∃ t, l = .pushReq t
  · obtain ⟨t, rfl⟩ := hpush
    obtain ⟨events, hw, -⟩ := hstep
    have hheap : r.worker.heap = (s.host w).worker.heap ++ [t] := by rw [(step_pushReq hw).2.2]
    unfold Worker.groupOf
    rcases subOp_pushed hheap hptr with ⟨hlt, hsub⟩ | ⟨rfl, hsub⟩ <;> rw [hsub]
    · exact h.heap ptr hlt hnot'
    · obtain ⟨k, i, hw, hgives⟩ := hok.plan t rfl
      exact ⟨k, i, hw, hgives.groupId.symm⟩
  · have hheap := hinv.cursor.heap_eq hstep (not_exists.mp hpush)
    unfold Worker.groupOf
    rw [Worker.subOp_congr hheap]
    exact h.heap ptr (by rwa [hheap] at hptr) hnot'

omit [DecidableEq W] in
/-- What a worker sends is of one of its lanes. -/
theorem Keeps.sends {w : W} {ctx : BitVec 8 → BitVec 32} {aggLen : ℕ}
    (h : Keeps D s' w ctx aggLen) {l : Label} {r₀ r : Run} {events : List Event}
    (hturn : ∀ g, TurnIn g aggLen r₀ r l events) (hs : s'.host w = r) :
    ∀ x ∈ Cluster.sends r events, D.Has w x.2.inc.groupId := by
  intro x hx
  obtain ⟨⟨pos, fr⟩, hfr, rfl⟩ := List.mem_map.mp hx
  dsimp only
  obtain ⟨p, hle, hp, rfl⟩ := (hturn fr.inc.groupId).sent pos fr hfr rfl
  obtain ⟨j, hj, hg, hnum⟩ := exists_of_filter hp
  obtain ⟨k, sent, popped, acc, hinv⟩ := h.serving.inv
  rw [hs] at hinv
  -- the packet is in the window, so its sub-op is not answered
  have hwindow : completed r.log ≤ j := by
    by_contra hlt
    have := within_lt hj hg (Nat.lt_of_not_le hlt)
    unfold Run.completedIn at hle
    omega
  obtain ⟨-, hlt, hinc⟩ := hinv.cursor.header p (List.mem_of_getElem? hj)
  have hgroup := h.heap p.subOp (by rw [hs]; exact hlt) (by rw [hs]; exact hinv.unanswered hwindow hj)
  rw [hs] at hgroup
  rw [hinc]
  exact hgroup

/-- A packet whose response a step accepts, if it does, has arrived from everybody. -/
def Genuine (D : Lanes W K) (s : Cluster W) (w : W) (l : Label) (k : K)
    (f : Traffic (Fin (D.n k))) : Prop :=
  ∀ i, D.worker k i = w → ∀ fr p q, l = .receive fr → (s.host w).completedIn (D.gid k) ≤ q →
    Answers ((s.host w).builtIn (D.gid k)) (p, fr) q → ∀ j, q ∈ f.arr j

/-- **A worker's step**, for one lane. -/
theorem Lane.run (hD : D.Created tbl copies) (h : Lane D s k f) {w : W}
    (hw : ∃ ctx aggLen, Keeps D s w ctx aggLen) {l : Label} (hok : D.Allows w (s.host w) l)
    (hresp : Genuine D s w l k f) (hrun : s.run w l = some s') :
    ∃ f', Lane D s' k f' ∧ f'.arr = f.arr := by
  obtain ⟨⟨v, events⟩, hv, rfl⟩ := Option.map_eq_some_iff.mp hrun
  have hstep : (s.host w).Step l ⟨v, (s.host w).log ++ events⟩ := ⟨events, hv, rfl⟩
  obtain ⟨ctx, aggLen, hkeeps⟩ := hw
  have hturn := hkeeps.serving.turn hstep rfl (D.gid k)
  dsimp only
  generalize Run.mk v ((s.host w).log ++ events) = r at *
  change ∃ f', Lane D (s.stepped w r (Cluster.sends r events)) k f' ∧ f'.arr = f.arr
  by_cases hmember : ∃ i, D.worker k i = w
  · obtain ⟨i, rfl⟩ := hmember
    refine h.turn hD ((h.share i).step hkeeps.serving (hok.followsIn hD rfl) hstep) ?_ (hresp i rfl)
    rw [(hkeeps.lanes k i rfl).2]
    exact hturn
  · exact ⟨f, h.elsewhere fun i hi => hmember ⟨i, hi⟩, rfl⟩

/-- A worker's step: the workers keep to their lanes, and so do the wires. -/
theorem Cluster.Joint.kept (h : Cluster.Joint D s) {w : W} {l : Label}
    (hok : D.Allows w (s.host w) l) (hrun : s.run w l = some s') :
    (∀ u, ∃ ctx aggLen, Keeps D s' u ctx aggLen) ∧
      (∀ u, ∀ x ∈ s'.wire u, D.Has u x.2.inc.groupId) ∧ s'.recirc = s.recirc := by
  obtain ⟨⟨v, events⟩, hv, rfl⟩ := Option.map_eq_some_iff.mp hrun
  have hstep : (s.host w).Step l ⟨v, (s.host w).log ++ events⟩ := ⟨events, hv, rfl⟩
  obtain ⟨ctx, aggLen, hkeeps⟩ := h.workers w
  have hturn := hkeeps.serving.turn hstep rfl
  dsimp only
  generalize Run.mk v ((s.host w).log ++ events) = r at *
  have hkeeps' : Keeps D (s.stepped w r (Cluster.sends r events)) w ctx aggLen :=
    hkeeps.step hok hstep Cluster.stepped_self
  refine ⟨fun u => ?_, fun u x hx => ?_, rfl⟩
  · rcases eq_or_ne u w with rfl | hu
    · exact ⟨ctx, aggLen, hkeeps'⟩
    · obtain ⟨ctx', aggLen', hkeeps'⟩ := h.workers u
      refine ⟨ctx', aggLen', ?_, hkeeps'.lanes, ?_⟩ <;> dsimp only <;>
        rw [Function.update_of_ne hu]
      · exact hkeeps'.serving
      · exact hkeeps'.heap
  · rcases eq_or_ne u w with rfl | hu
    · rw [Function.update_self] at hx
      rcases List.mem_append.mp hx with hx | hx
      · exact h.wire u x hx
      · exact hkeeps'.sends hturn Cluster.stepped_self x hx
    · rw [Function.update_of_ne hu] at hx
      exact h.wire u x hx

omit [DecidableEq W] in
/-- Nothing about the workers has changed. -/
theorem Keeps.congr {w : W} {ctx : BitVec 8 → BitVec 32} {aggLen : ℕ} (h : Keeps D s w ctx aggLen)
    (hs : s'.host = s.host) : Keeps D s' w ctx aggLen :=
  ⟨by rw [hs]; exact h.serving, h.lanes, by rw [hs]; exact h.heap⟩

omit [DecidableEq W] in
theorem Cluster.Joint.workers_congr (h : Cluster.Joint D s) (hs : s'.host = s.host) (w : W) :
    ∃ ctx aggLen, Keeps D s' w ctx aggLen :=
  (h.workers w).imp fun _ => Exists.imp fun _ hk => hk.congr hs

/-! ## 2. The switch and the network -/

omit [DecidableEq W] in
/-- **Which packet a response answers**: the one it was made for, unless it is as late as the
PSN of its group takes to come round. -/
theorem Lane.answered (hD : D.Created tbl copies) (h : Lane D s k f) {i : Fin (D.n k)}
    (hk : ∃ ctx aggLen, Keeps D s (D.worker k i) ctx aggLen) {q j : ℕ} {r : Response} {p : PktState}
    {typeOfService : BitVec 8} (hr : Responds (D.plan k) (D.contribution s k) f q i r)
    (hcurrent : ((s.host (D.worker k i)).builtIn (D.gid k)).length ≤ q + 2 ^ 32)
    (hj : (s.host (D.worker k i)).completedIn (D.gid k) ≤ j)
    (hans : Answers ((s.host (D.worker k i)).builtIn (D.gid k))
      (p, responseFrame typeOfService r) j) : j = q := by
  obtain ⟨ctx, aggLen, hkeeps⟩ := hk
  obtain ⟨x, hx, -, hpsn, -⟩ := hans
  obtain ⟨payload, rfl, -⟩ := hr.eq
  have hq := h.lt_built (hr.all i)
  have hjlt := (List.getElem?_eq_some_iff.mp hx).1
  have hwin := h.inv.width i
  rw [h.hi, h.lo] at hwin
  have hwidth := (hD.created k).width
  have hnum : (D.plan k).psn + BitVec.ofNat 32 q = (D.plan k).psn + BitVec.ofNat 32 j := by
    rw [← ((h.share i).packet hkeeps.serving (hkeeps.lanes k i rfl).1 hx).2.2.1]
    exact hpsn
  have hmod := congrArg BitVec.toNat ((BitVec.add_right_inj _).mp hnum)
  rw [BitVec.toNat_ofNat, BitVec.toNat_ofNat] at hmod
  omega

omit [DecidableEq W] in
/-- What is lost matters to no lane. -/
theorem Lane.lose (h : Lane D s k f) {recirc : List (ℕ × W × Packet)}
    {back : List (ℕ × W × Response)} (hrecirc : recirc ⊆ s.recirc) (hback : back ⊆ s.back) :
    Lane D { s with recirc, back } k f :=
  h.frame ⟨fun _ => rfl, fun _ => rfl, fun _ => ⟨rfl, rfl⟩, fun _ hx => Or.inl (hrecirc hx),
    fun _ hx => Or.inl (hback hx)⟩

omit [DecidableEq W] in
theorem Cluster.Joint.lose (h : Cluster.Joint D s) {recirc : List (ℕ × W × Packet)}
    {back : List (ℕ × W × Response)} (hrecirc : recirc ⊆ s.recirc) (hback : back ⊆ s.back) :
    Cluster.Joint D { s with recirc, back } :=
  ⟨fun w => (h.workers w).imp fun _ => Exists.imp fun _ hk => hk.congr rfl,
    fun k => (h.lanes k).imp fun _ hf => hf.lose hrecirc hback, h.wire,
    fun x hx => h.recirc x (hrecirc hx)⟩

omit [DecidableEq W] in
/-- A response that is not late is genuine. -/
theorem Cluster.Joint.genuine (hD : D.Created tbl copies) (h : Cluster.Joint D s) {m q : ℕ} {w : W}
    {r : Response} (hm : s.back[m]? = some (q, w, r)) (hcurrent : s.Current m)
    (typeOfService : BitVec 8) (hf : Lane D s k f) :
    Genuine D { s with back := s.back.eraseIdx m } w (.receive (responseFrame typeOfService r)) k
      f := by
  rintro i rfl fr p j hl hj hans
  obtain rfl := Label.receive.inj hl
  -- the response is of the group of the packet it is accepted for
  have hgroup : r.netccl.groupId = D.gid k := by
    obtain ⟨x, hx, -, -, hinc⟩ := hans
    obtain ⟨_, _, hg, _⟩ := exists_of_filter hx
    exact hinc.trans (ofGroup_iff.mp hg)
  have hresp := hf.back _ (List.mem_of_getElem? hm) i rfl hgroup
  have hlate := hcurrent q (D.worker k i) r hm
  rw [hgroup] at hlate
  obtain rfl := hf.answered hD (h.workers _) hresp hlate hj hans
  exact hresp.all

/-- Any step of a worker but the receipt of a response. -/
theorem Cluster.step_own {w : W} {l : Label}
    (h : Cluster.Step tbl copies s (.host w l) s') : s.run w l = some s' ∧ ∀ fr, l ≠ .receive fr := by
  unfold Cluster.Step at h
  cases l with
  | receive fr => cases h
  | _ => exact ⟨h, by simp⟩

/-- **Every step** keeps a lane, and what has arrived. -/
theorem Cluster.Joint.lane (hD : D.Created tbl copies) (h : Cluster.Joint D s)
    {a : Cluster.Action W} (hok : D.Orderly s a) (hstep : Cluster.Step tbl copies s a s')
    (hf : Lane D s k f) : ∃ f', Lane D s' k f' ∧ ∀ i, f.arr i ⊆ f'.arr i := by
  have hsame : (∃ f', Lane D s' k f' ∧ f'.arr = f.arr) →
      ∃ f', Lane D s' k f' ∧ ∀ i, f.arr i ⊆ f'.arr i := by
    rintro ⟨f', hf', harr⟩
    exact ⟨f', hf', fun i => by rw [harr]⟩
  cases a with
  | host w l =>
    obtain ⟨hrun, hnone⟩ := Cluster.step_own hstep
    exact hsame (hf.run hD (h.workers w) (hok.host w l rfl)
      (fun _ _ fr _ _ hl => absurd hl (hnone fr)) hrun)
  | lose w m =>
    obtain rfl := Option.some.inj hstep
    exact hsame (hf.loseWire hD w m)
  | arrive w =>
    simp only [Cluster.Step, Cluster.step] at hstep
    split at hstep
    · cases hstep
    · rename_i q fr rest hw
      obtain rfl := Option.some.inj hstep
      obtain ⟨k', i, rfl, hg⟩ := h.wire w (q, fr) (hw ▸ List.mem_cons_self)
      by_cases hk : k' = k
      · subst hk
        obtain ⟨f', hf', harr, -⟩ := hf.arrive hD (h.workers _) hw hg.symm
        exact ⟨f', hf', harr⟩
      · obtain ⟨f₀, hf₀⟩ := h.lanes k'
        have hinc : fr.inc = (D.plan k').header i q :=
          (hf₀.arriving (h.workers _) (x := (q, fr))
            (mem_onWire.mpr ⟨hw ▸ List.mem_cons_self, hg.symm⟩)).header
        exact hsame ⟨f, hf.arriveOther hD hk hw hinc, rfl⟩
  | second m =>
    obtain ⟨⟨q, w, p⟩, hm, rfl⟩ := Option.map_eq_some_iff.mp hstep
    have hx := List.mem_of_getElem? hm
    have hsub : s.recirc.eraseIdx m ⊆ s.recirc := List.eraseIdx_subset ..
    have hlost := hf.lose hsub (List.Subset.refl s.back)
    rcases h.recirc _ hx with ⟨k', i, rfl, hg⟩ | ⟨hpass, hnone⟩
    swap
    · exact hsame ⟨f, hlost.secondNone hpass hnone, rfl⟩
    by_cases hk : k' = k
    · subst hk
      exact hsame ⟨f, hlost.second hD (hf.recirc _ hx i rfl hg.symm), rfl⟩
    · obtain ⟨f₀, hf₀⟩ := h.lanes k'
      have hp := hf₀.recirc _ hx i rfl hg.symm
      exact hsame ⟨f, hlost.secondOther hD hk (hf₀.lose hsub (List.Subset.refl _)) hp, rfl⟩
  | loseSecond m =>
    obtain rfl := Option.some.inj hstep
    exact hsame ⟨f, hf.lose (List.eraseIdx_subset ..) (List.Subset.refl _), rfl⟩
  | receive m typeOfService =>
    obtain ⟨⟨q, w, r⟩, hm, hrun⟩ := Option.bind_eq_some_iff.mp hstep
    have hlost := hf.lose (List.Subset.refl s.recirc) (List.eraseIdx_subset (l := s.back) (k := m))
    exact hsame (hlost.run hD ((h.lose (List.Subset.refl _) (List.eraseIdx_subset ..)).workers w)
      .receive (h.genuine hD hm (hok.current m typeOfService rfl) typeOfService hf) hrun)
  | loseBack m =>
    obtain rfl := Option.some.inj hstep
    exact hsame ⟨f, hf.lose (List.Subset.refl _) (List.eraseIdx_subset ..), rfl⟩

/-- **Every step** keeps every lane. -/
theorem Cluster.Joint.step (hD : D.Created tbl copies) (h : Cluster.Joint D s)
    {a : Cluster.Action W} (hok : D.Orderly s a) (hstep : Cluster.Step tbl copies s a s') :
    Cluster.Joint D s' := by
  have hlanes : ∀ k, ∃ f', Lane D s' k f' := by
    intro k
    obtain ⟨f, hf⟩ := h.lanes k
    obtain ⟨f', hf', -⟩ := h.lane hD hok hstep hf
    exact ⟨f', hf'⟩
  cases a with
  | host w l =>
    obtain ⟨hworkers, hwire, hrecirc⟩ := h.kept (hok.host w l rfl) (Cluster.step_own hstep).1
    exact ⟨hworkers, hlanes, hwire, hrecirc ▸ h.recirc⟩
  | lose w m =>
    obtain rfl := Option.some.inj hstep
    refine ⟨h.workers_congr rfl, hlanes, fun v x hx => ?_, h.recirc⟩
    dsimp only at hx
    rcases eq_or_ne v w with rfl | hv
    · rw [Function.update_self] at hx
      exact h.wire v x (List.mem_of_mem_eraseIdx hx)
    · rw [Function.update_of_ne hv] at hx
      exact h.wire v x hx
  | arrive w =>
    simp only [Cluster.Step, Cluster.step] at hstep
    split at hstep
    · cases hstep
    · rename_i q fr rest hw
      obtain rfl := Option.some.inj hstep
      obtain ⟨hhost, hwire, -, -, hrecirc⟩ := Cluster.firstPass_spec tbl
        { s with wire := Function.update s.wire w rest } q w fr
      refine ⟨h.workers_congr hhost, hlanes, fun v x hx => ?_, fun x hx => ?_⟩
      · rw [hwire] at hx
        dsimp only at hx
        rcases eq_or_ne v w with rfl | hv
        · rw [Function.update_self] at hx
          exact h.wire v x (hw ▸ List.mem_cons_of_mem _ hx)
        · rw [Function.update_of_ne hv] at hx
          exact h.wire v x hx
      · rcases hrecirc x hx with hx | ⟨rfl, -⟩
        · exact h.recirc x hx
        · exact Or.inl (h.wire w (q, fr) (hw ▸ List.mem_cons_self))
  | second m =>
    obtain ⟨⟨q, w, p⟩, -, rfl⟩ := Option.map_eq_some_iff.mp hstep
    obtain ⟨hhost, hwire, hrecirc, -, -⟩ := Cluster.secondPass_spec tbl copies
      { s with recirc := s.recirc.eraseIdx m } q w p
    refine ⟨h.workers_congr hhost, hlanes, fun v x hx => h.wire v x (by rwa [hwire] at hx),
      fun x hx => ?_⟩
    rw [hrecirc] at hx
    exact h.recirc x (List.mem_of_mem_eraseIdx hx)
  | loseSecond m =>
    obtain rfl := Option.some.inj hstep
    exact ⟨h.workers_congr rfl, hlanes, h.wire, fun x hx => h.recirc x (List.mem_of_mem_eraseIdx hx)⟩
  | receive m typeOfService =>
    obtain ⟨⟨q, w, r⟩, -, hrun⟩ := Option.bind_eq_some_iff.mp hstep
    obtain ⟨hworkers, hwire, hrecirc⟩ :=
      (h.lose (List.Subset.refl _) (List.eraseIdx_subset ..)).kept .receive hrun
    exact ⟨hworkers, hlanes, hwire, hrecirc ▸ h.recirc⟩
  | loseBack m =>
    obtain rfl := Option.some.inj hstep
    exact ⟨h.workers_congr rfl, hlanes, h.wire, h.recirc⟩

/-- The run lemma. -/
theorem cluster_joint_reach (hD : D.Created tbl copies)
    (h : Reach D.Init (Cluster.Step tbl copies) D.Orderly s) : Cluster.Joint D s :=
  h.invariant (fun _ hi => .init hD hi) fun _ _ _ hj hok hs => hj.step hD hok hs

/-! ## 3. What a group agrees on -/

/-- The response `fr`, accepted on rank `i` of the lane for the packet `p`, carries the sums. -/
def Cluster.Carries (D : Lanes W K) (s : Cluster W) (k : K) (i : Fin (D.n k)) (p : PktState)
    (fr : Frame) : Prop :=
  ∃ q x, ((s.host (D.worker k i)).builtIn (D.gid k))[q]? = some x ∧ p = { x with acked := true } ∧
    fr.inc = (D.plan k).header i q ∧
    (∀ j, q < ((s.host (D.worker k j)).builtIn (D.gid k)).length) ∧
    ((D.plan k).receives i q = true →
      fr.pktLen = sizeofNetcclPkt ∧ Sums (D.contribution s k) q (payloadOf fr.payload))

omit [DecidableEq W] in
/-- It does so from then on. -/
theorem Cluster.Carries.mono {i : Fin (D.n k)} {p : PktState} {fr : Frame}
    (h : s.Carries D k i p fr)
    (hmono : ∀ w g, (s.host w).builtIn g <+: (s'.host w).builtIn g) : s'.Carries D k i p fr := by
  obtain ⟨q, x, hx, hp, hinc, hall, hsums⟩ := h
  have hget : ∀ j, q < ((s.host (D.worker k j)).builtIn (D.gid k)).length →
      ((s'.host (D.worker k j)).builtIn (D.gid k))[q]? =
        ((s.host (D.worker k j)).builtIn (D.gid k))[q]? := by
    intro j hj
    obtain ⟨rest, hrest⟩ := hmono (D.worker k j) (D.gid k)
    rw [← hrest, List.getElem?_append_left hj]
  refine ⟨q, x, by rw [hget i (hall i), hx], hp, hinc,
    fun j => Nat.lt_of_lt_of_le (hall j) (hmono _ _).length_le, fun hrx => ?_⟩
  obtain ⟨hlen, hwords⟩ := hsums hrx
  refine ⟨hlen, fun w => (hwords w).trans (Finset.sum_congr rfl fun j _ => ?_)⟩
  rw [Lanes.contribution, Lanes.contribution, hget j (hall j)]

/-- **What a step does to the logs**: one worker adds to its own, and accepts at most the
response it is handed, for a packet of the group of the response. -/
theorem Cluster.Joint.logs (h : Cluster.Joint D s) {a : Cluster.Action W}
    (hstep : Cluster.Step tbl copies s a s') :
    (∀ w g, (s.host w).builtIn g <+: (s'.host w).builtIn g) ∧
      ∀ w g x, x ∈ accepted (s'.host w).log → x.1.pkt.inc.groupId = g →
        x ∈ accepted (s.host w).log ∨ (s.Handed a w x.2 ∧ ∃ q, (s.host w).completedIn g ≤ q ∧
          Answers ((s.host w).builtIn g) x q) := by
  rcases Cluster.step_host hstep with hhost | ⟨w, l, r, events, hw, hlog, hhost, -, hhanded⟩
  · rw [hhost]
    exact ⟨fun w g => List.prefix_rfl, fun w g x hx _ => Or.inl hx⟩
  · obtain ⟨ctx, aggLen, hkeeps⟩ := h.workers w
    have hturn := hkeeps.serving.turn ⟨events, hw, hlog⟩ hlog
    rw [hhost]
    refine ⟨fun u g => ?_, fun u g x hx hg => ?_⟩
    · rcases eq_or_ne u w with rfl | hu
      · rw [Function.update_self]
        rcases (hturn g).built with hb | ⟨p, hb, -⟩ <;> rw [hb]
        exact List.prefix_append _ _
      · rw [Function.update_of_ne hu]
    · rcases eq_or_ne u w with rfl | hu
      · rw [Function.update_self, hlog, accepted_append] at hx
        rcases List.mem_append.mp hx with hx | hx
        · exact Or.inl hx
        · right
          cases (hturn g).accepts with
          | nothing hnone => exact absurd hg (hnone x hx)
          | response hone hq hans =>
            rw [hone] at hx
            obtain rfl := List.mem_singleton.mp hx
            exact ⟨hhanded _ rfl, _, hq, hans⟩
      · rw [Function.update_of_ne hu] at hx
        exact Or.inl hx

omit [DecidableEq W] in
/-- **A response that is accepted** is for the packet it is accepted for, and carries the
sums. -/
theorem Cluster.Joint.carries (hD : D.Created tbl copies) (h : Cluster.Joint D s)
    {a : Cluster.Action W} (hok : D.Promised s a) {i : Fin (D.n k)} {x : PktState × Frame}
    (hhanded : s.Handed a (D.worker k i) x.2) {j : ℕ}
    (hj : (s.host (D.worker k i)).completedIn (D.gid k) ≤ j)
    (hans : Answers ((s.host (D.worker k i)).builtIn (D.gid k)) x j) :
    s.Carries D k i x.1 x.2 := by
  obtain ⟨m, q, r, typeOfService, ha, hm, hfr⟩ := hhanded
  obtain ⟨p, fr⟩ := x
  dsimp only at hfr ⊢
  subst hfr
  obtain ⟨f, hf⟩ := h.lanes k
  have hgroup : r.netccl.groupId = D.gid k := by
    obtain ⟨x, hx, -, -, hinc⟩ := hans
    obtain ⟨_, _, hg, _⟩ := exists_of_filter hx
    exact hinc.trans (ofGroup_iff.mp hg)
  have hresp : Responds (D.plan k) (D.contribution s k) f q i r :=
    hf.back _ (List.mem_of_getElem? hm) i rfl hgroup
  have hlate := hok.current m typeOfService ha q (D.worker k i) r hm
  rw [hgroup] at hlate
  obtain rfl := hf.answered hD (h.workers _) hresp hlate hj hans
  obtain ⟨x, hx, hp, -⟩ := hans
  obtain ⟨payload, rfl, hsums⟩ := hresp.eq
  refine ⟨j, x, hx, hp, rfl, fun i => hf.lt_built (hresp.all i), fun hrx => ?_⟩
  have hpayload := respond_payload payload hrx
  refine ⟨by rw [responseFrame, hpayload]; rfl, ?_⟩
  rw [payloadOf_responseFrame typeOfService hpayload]
  rcases hsums with hsums | hpast
  · exact hsums (hok.fits k j)
  · -- the packet is still in the window of the rank
    have hlt := hpast i
    rw [hf.lo] at hlt
    exact absurd hlt (Nat.not_lt.mpr hj)

/-- Whatever a rank of the lane has accepted for it carries the sums. -/
def Cluster.Agrees (D : Lanes W K) (s : Cluster W) (k : K) : Prop :=
  ∀ i, ∀ x ∈ accepted (s.host (D.worker k i)).log, x.1.pkt.inc.groupId = D.gid k →
    s.Carries D k i x.1 x.2

theorem Cluster.Joint.agrees (hD : D.Created tbl copies) (h : Cluster.Joint D s)
    (hagrees : ∀ k, s.Agrees D k) {a : Cluster.Action W} (hok : D.Promised s a)
    (hstep : Cluster.Step tbl copies s a s') (k : K) : s'.Agrees D k := by
  obtain ⟨hmono, haccepted⟩ := h.logs hstep
  intro i x hx hg
  rcases haccepted _ _ x hx hg with hx | ⟨hhanded, j, hj, hans⟩
  · exact (hagrees k i x hx hg).mono hmono
  · exact (h.carries hD hok hhanded hj hans).mono hmono

/-- The run lemma. -/
theorem cluster_carries_reach (hD : D.Created tbl copies)
    (h : Reach D.Init (Cluster.Step tbl copies) D.Promised s) :
    Cluster.Joint D s ∧ ∀ k, s.Agrees D k := by
  refine h.invariant (P := fun s => Cluster.Joint D s ∧ ∀ k, s.Agrees D k)
    (fun s hi => ⟨.init hD hi, fun k i x hx => ?_⟩) ?_
  · obtain ⟨ctx, -, -, hlog⟩ := hi.host (D.worker k i)
    rw [hlog] at hx
    exact absurd hx List.not_mem_nil
  · rintro s a s' ⟨hjoint, hagrees⟩ hok hstep
    exact ⟨hjoint.step hD hok.toOrderly hstep, hjoint.agrees hD hagrees hok hstep⟩

omit [DecidableEq W] in
/-- What the host makes of it. -/
theorem Cluster.Joint.agreed (h : Cluster.Joint D s) (hagrees : s.Agrees D k) (i : Fin (D.n k))
    {p : PktState} {fr : Frame} (hacc : (p, fr) ∈ accepted (s.host (D.worker k i)).log)
    (hgroup : p.pkt.inc.groupId = D.gid k) :
    ∃ q x, ((s.host (D.worker k i)).builtIn (D.gid k))[q]? = some x ∧
      p = { x with acked := true } ∧ fr.inc = x.pkt.inc ∧
      x.psn = (D.plan k).psn + BitVec.ofNat 32 q ∧
      (needRx ((s.host (D.worker k i)).worker.subOp p.subOp).op = true →
        fr.pktLen = sizeofNetcclPkt ∧ ∀ v, (word (payloadOf fr.payload) v).toInt =
          ∑ j, (word (D.contribution s k j q) v).toInt) := by
  obtain ⟨q, x, hx, hp, hinc, -, hsums⟩ := hagrees i _ hacc hgroup
  dsimp only at hp hinc hsums
  obtain ⟨ctx, aggLen, hkeeps⟩ := h.workers (D.worker k i)
  obtain ⟨f, hf⟩ := h.lanes k
  obtain ⟨-, hheader, hpsn, hgives⟩ :=
    (hf.share i).packet hkeeps.serving (hkeeps.lanes k i rfl).1 hx
  refine ⟨q, x, hx, hp, hinc.trans hheader.symm, hpsn, fun hrx => hsums ?_⟩
  have hsub : p.subOp = x.subOp := by rw [hp]
  rw [hsub, hgives.needRx rfl] at hrx
  exact hrx

/-- With the same lanes throughout, every sub-op a worker was ever given is of one of its
lanes. -/
theorem cluster_has_reach (hD : D.Created tbl copies)
    (h : Reach D.Init (Cluster.Step tbl copies) D.Orderly s) (w : W) :
    ∀ ptr < (s.host w).worker.heap.length, D.Has w ((s.host w).worker.groupOf ptr) := by
  refine (h.invariant (P := fun s => Cluster.Joint D s ∧ ∀ w, ∀ ptr < (s.host w).worker.heap.length,
    D.Has w ((s.host w).worker.groupOf ptr)) (fun s hi => ⟨.init hD hi, fun w ptr hptr => ?_⟩)
      ?_).2 w
  · obtain ⟨ctx, -, ⟨mem, pkt, hw⟩, -⟩ := hi.host w
    rw [hw] at hptr
    exact absurd hptr (Nat.not_lt_zero _)
  · rintro s a s' ⟨hjoint, hhas⟩ hok hstep
    refine ⟨hjoint.step hD hok hstep, fun u ptr hptr => ?_⟩
    rcases Cluster.step_host hstep with hhost | ⟨w, l, r, events, hw, hlog, hhost, ha, -⟩
    · rw [hhost] at hptr ⊢
      exact hhas u ptr hptr
    · rw [hhost] at hptr ⊢
      rcases eq_or_ne u w with rfl | hu
      · rw [Function.update_self] at hptr ⊢
        unfold Worker.groupOf
        by_cases hpush : ∃ t, l = .pushReq t
        · obtain ⟨t, rfl⟩ := hpush
          have hheap : r.worker.heap = (s.host u).worker.heap ++ [t] := by
            rw [(step_pushReq hw).2.2]
          rcases subOp_pushed hheap hptr with ⟨hlt, hsub⟩ | ⟨rfl, hsub⟩ <;> rw [hsub]
          · exact hhas u ptr hlt
          · obtain ⟨k, i, hw, hgives⟩ := (hok.host u _ (ha (by simp))).plan t rfl
            exact ⟨k, i, hw, hgives.groupId.symm⟩
        · obtain ⟨ctx, aggLen, hkeeps⟩ := hjoint.workers u
          obtain ⟨_, sent, popped, acc, hinv⟩ := hkeeps.serving.inv
          have hheap := hinv.cursor.heap_eq ⟨events, hw, hlog⟩ (not_exists.mp hpush)
          rw [Worker.subOp_congr hheap]
          exact hhas u ptr (by rwa [hheap] at hptr)
      · rw [Function.update_of_ne hu] at hptr ⊢
        exact hhas u ptr hptr

/-- **Agreement in every group.**  Whatever response a worker accepts, whatever groups it serves
and whatever other groups do at the switch, it accepts for a packet of one of its lanes that the
response was made for; and if its rank is to get a payload, the 64 words are the sums over the
ranks of this lane. -/
theorem cluster_agreement (hD : D.Created tbl copies)
    (h : Reach D.Init (Cluster.Step tbl copies) D.Promised s) (w : W) {p : PktState} {fr : Frame}
    (hacc : (p, fr) ∈ accepted (s.host w).log) :
    ∃ k i q x, D.worker k i = w ∧ D.gid k = p.pkt.inc.groupId ∧
      ((s.host w).builtIn (D.gid k))[q]? = some x ∧ p = { x with acked := true } ∧
      fr.inc = x.pkt.inc ∧ x.psn = (D.plan k).psn + BitVec.ofNat 32 q ∧
      (needRx ((s.host w).worker.subOp p.subOp).op = true → fr.pktLen = sizeofNetcclPkt ∧
        ∀ v, (word (payloadOf fr.payload) v).toInt =
          ∑ j, (word (D.contribution s k j q) v).toInt) := by
  obtain ⟨hjoint, hagrees⟩ := cluster_carries_reach hD h
  obtain ⟨ctx, aggLen, hkeeps⟩ := hjoint.workers w
  obtain ⟨_, sent, popped, acc, hinv⟩ := hkeeps.serving.inv
  -- the packet was built, for one of the worker's lanes
  obtain ⟨k, i, rfl, hgroup⟩ : D.Has w p.pkt.inc.groupId := by
    obtain ⟨j, -, x, hx, hp, -⟩ := forall₂_exists hinv.window.accepted hacc
    dsimp only at hp
    obtain ⟨-, hlt, hinc⟩ := hinv.cursor.header x (List.mem_of_getElem? hx)
    rw [hp]
    dsimp only
    rw [hinc]
    exact cluster_has_reach hD (h.mono fun _ _ hok => hok.toOrderly) w x.subOp hlt
  obtain ⟨q, x, hrest⟩ := hjoint.agreed (hagrees k) i hacc hgroup.symm
  exact ⟨k, i, q, x, rfl, hgroup, hrest⟩

/-! ## 4. What a slot keeps -/

/-- **The slot answers packet `q` of the lane again**, to rank `j`: it shows the version of the
packet, every rank, and the sums, if they fit; what rank `j` sends again is taken for complete,
and answered to it in the second pass, whenever that is. -/
structure Cluster.Answering (D : Lanes W K) (tbl : Tables) (s : Cluster W) (k : K) (j : Fin (D.n k))
    (q : ℕ) : Prop where
  slot : s.regs.regBitmap ((D.plan k).addr q) = ⟨(D.plan k).version q, groupMask (D.n k)⟩
  sums : FitsAt (D.contribution s k) Finset.univ q →
    Sums (D.contribution s k) q (s.regs.aggregatorArray ((D.plan k).addr q))
  answered : ∀ x, ((s.host (D.worker k j)).builtIn (D.gid k))[q]? = some x →
    (∃ port, (ingress tbl s.regs (packetOf x.pkt)).2.2 = .recirculate port) ∧
      ∀ later, (ingress tbl later
        (egressRecirculate (ingress tbl s.regs (packetOf x.pkt)).2.1)).2.2 = .l2Forward

omit [DecidableEq W] in
/-- A packet that has arrived from everybody is answered again to who has not accepted it. -/
theorem Lane.answering (hD : D.Created tbl copies) (h : Lane D s k f) {j : Fin (D.n k)} {q : ℕ}
    (hw : ∃ ctx aggLen, Keeps D s (D.worker k j) ctx aggLen) (hall : ∀ i, q ∈ f.arr i)
    (hj : ¬ (s.host (D.worker k j)).AckedIn (D.gid k) q) : s.Answering D tbl k j q := by
  have hlo : f.lo j ≤ q := Nat.le_of_not_lt fun hlt => hj ((h.acc j q).mp (h.inv.left j q hlt))
  have hslot := h.inv.kept (Nat.mul_div_le (D.plan k).aggLen 2) (hall j) hlo
  have hshows := h.held.shows q hslot
  rw [came_eq_univ.mpr hall] at hshows
  refine ⟨hshows.bitmap (hD.created k).registered.1,
    fun hfits => sums_of_pairs (fun x => (hshows.words hfits x).1)
      fun x => (hshows.words hfits x).2, fun x hx => ?_⟩
  obtain ⟨ctx, aggLen, hkeeps⟩ := hw
  have harriving : Arriving (D.plan k) (D.contribution s k) q j (packetOf x.pkt) := by
    refine ⟨rfl, ((h.share j).packet hkeeps.serving (hkeeps.lanes k j rfl).1 hx).2.1, ?_⟩
    rw [Lanes.contribution, hx]
    rfl
  exact harriving.answered (hD.created k) hshows

omit [DecidableEq W] in
theorem Cluster.Joint.answering (hD : D.Created tbl copies) (h : Cluster.Joint D s)
    {i j : Fin (D.n k)} {q : ℕ} (hi : (s.host (D.worker k i)).AckedIn (D.gid k) q)
    (hj : ¬ (s.host (D.worker k j)).AckedIn (D.gid k) q) : s.Answering D tbl k j q := by
  obtain ⟨f, hf⟩ := h.lanes k
  exact hf.answering hD (h.workers _) (hf.inv.whole i q ((hf.acc i q).mpr hi)) hj

omit [DecidableEq W] in
theorem Cluster.Joint.behind (h : Cluster.Joint D s) {i : Fin (D.n k)} {q x : ℕ}
    (hqx : q + (D.plan k).aggLen ≤ x)
    (hx : x < ((s.host (D.worker k i)).builtIn (D.gid k)).length) (j : Fin (D.n k)) :
    (s.host (D.worker k j)).AckedIn (D.gid k) q := by
  obtain ⟨f, hf⟩ := h.lanes k
  rw [← hf.hi] at hx
  exact (hf.acc j q).mp (hf.inv.behind (Nat.mul_div_le (D.plan k).aggLen 2) hx hqx j)

/-- **A lost response can be recovered in every group**, whatever the other groups have done to
the switch since: if one rank of a lane has accepted packet `q` and another has built it and not
accepted it, the slot answers it again; and when a packet `L` further on has so much as been
built, all ranks of the lane have accepted `q`. -/
theorem cluster_recoverable (hD : D.Created tbl copies)
    (h : Reach D.Init (Cluster.Step tbl copies) D.Orderly s) (k : K) :
    (∀ i j q, (s.host (D.worker k i)).AckedIn (D.gid k) q →
      q < ((s.host (D.worker k j)).builtIn (D.gid k)).length →
      ¬ (s.host (D.worker k j)).AckedIn (D.gid k) q → s.Answering D tbl k j q) ∧
    ∀ i q x, q + (D.plan k).aggLen ≤ x →
      x < ((s.host (D.worker k i)).builtIn (D.gid k)).length →
      ∀ j, (s.host (D.worker k j)).AckedIn (D.gid k) q := by
  have hjoint := cluster_joint_reach hD h
  exact ⟨fun i j q hi _ hj => hjoint.answering hD hi hj,
    fun i q x hqx hx j => hjoint.behind hqx hx j⟩

/-! ## 5. Two groups that share a host -/

/-- Group `k + 1` all-reduces one word. -/
def crossPlan (k : Fin 2) : Plan where
  groupId := BitVec.ofNat 8 (k + 1)
  aggAddr := 1024 * k
  aggLen := 1024
  psn := 0
  opCode _ := .allReduce
  root _ := 0
  size _ := 4

/-- The first group is of workers 0 and 1, the second of workers 1 and 2. -/
def crossLanes : Lanes (Fin 3) (Fin 2) where
  n _ := 2
  plan := crossPlan
  worker k i := ⟨k + i, by omega⟩

def crossTables : Tables where
  metadataTable g := if g = 1 ∨ g = 2 then some 3 else none
  recirculateTable g := if g = 1 ∨ g = 2 then some 64 else none

def crossCopies (_ : Fin 3) (g : BitVec 8) : List (ℕ × Fin 3) :=
  (List.finRange 2).map fun j =>
    (j.val, crossLanes.worker (if g = 1 then ⟨0, Nat.two_pos⟩ else ⟨1, Nat.one_lt_two⟩) j)

/-- The word of group `k + 1` is at address `256 * (k + 1)`. -/
def crossSubOp (k i : Fin 2) : SubOp :=
  ⟨⟨.allReduce, 0, 4, 256 * (k + 1),
      ⟨BitVec.ofNat 8 (k + 1), 2, BitVec.ofNat 8 i, 1024 * k, 1024⟩⟩,
    256 * (k + 1), 4, 1024 * k, 1024⟩

/-- Worker `w` has `w + 1` at both addresses. -/
def crossStart : Cluster (Fin 3) where
  host w := ⟨.init (fun a => if a = 256 ∨ a = 512 then BitVec.ofNat 8 (w + 1) else 0)
    (fun _ => ⟨⟨0, 0, 0, 0, 0, 0⟩, 0, 0, fun _ => 0⟩) fun _ => 0, []⟩
  wire _ := []
  regs := ⟨fun _ => ⟨0, 0⟩, fun _ _ => ⟨0, 0⟩⟩
  recirc := []
  back := []

theorem cross_created : crossLanes.Created crossTables crossCopies where
  created k := by
    refine ⟨⟨(by decide : 2 ≤ 32), ?_⟩, ⟨64, ?_⟩, (by decide : 1024 ∣ 2 ^ 32), (by decide : 10 ≤ 1024 / 2),
      (by decide : 1024 < 2 ^ 16)⟩ <;> revert k <;> decide
  members k i j h := by
    have hval := congrArg Fin.val h
    simp only [crossLanes] at hval
    exact Fin.ext (by omega)
  groups := by decide
  lengths _ _ _ _ _ := rfl
  bound := by decide
  slots := by decide
  copies := by decide

theorem cross_init : crossLanes.Init crossStart :=
  ⟨fun _ => ⟨fun _ => 0, fun _ _ _ => rfl, ⟨_, _, rfl⟩, rfl⟩, fun _ => rfl, fun _ _ _ => rfl, rfl,
    rfl⟩

/-- What is promised of the load balancers and the network, computed. -/
def crossFollowed (s : Cluster (Fin 3)) : Cluster.Action (Fin 3) → Bool
  | .host w (.pushReq t) =>
    decide ((∃ k i : Fin 2, k.val + i.val = w.val ∧ t = crossSubOp k i) ∧
      ∀ ptr < (s.host w).worker.heap.length, ptr ∉ pushed (s.host w).log →
        ((s.host w).worker.subOp ptr).op.group.groupId = t.op.group.groupId)
  | .receive m _ => (s.back[m]?).elim true fun x =>
      decide (((s.host x.2.1).builtIn x.2.2.netccl.groupId).length ≤ x.1 + 2 ^ 32)
  | _ => true

/-- ... and of the data. -/
def crossAllowed (s : Cluster (Fin 3)) (a : Cluster.Action (Fin 3)) : Bool :=
  decide (∀ w, ∀ p ∈ built (s.host w).log, Light p) && crossFollowed s a

/-- Small words have small sums. -/
theorem subsetFits_of_light {n : ℕ} (hn : n ≤ 32) {x : Fin n → BitVec 32}
    (h : ∀ i, 0 ≤ (x i).toInt ∧ (x i).toInt < 8) : SubsetFits Finset.univ x := by
  intro t _
  have hle : ∑ i ∈ t, (x i).toInt ≤ ∑ _i ∈ t, 8 :=
    Finset.sum_le_sum fun i _ => Int.le_of_lt (h i).2
  have hnonneg : 0 ≤ ∑ i ∈ t, (x i).toInt := Finset.sum_nonneg fun i _ => (h i).1
  have hcard : t.card ≤ n := by simpa using Finset.card_le_univ t
  rw [Finset.sum_const, nsmul_eq_mul] at hle
  constructor <;> omega

omit [DecidableEq W] in
theorem Lanes.fits_of_light (hn : D.n k ≤ 32)
    (h : ∀ i, ∀ p ∈ built (s.host (D.worker k i)).log, Light p) (q : ℕ) (v : Fin 64) :
    SubsetFits Finset.univ fun i => word (D.contribution s k i q) v := by
  refine subsetFits_of_light hn fun i => ?_
  unfold Lanes.contribution
  cases hp : ((s.host (D.worker k i)).builtIn (D.gid k))[q]? with
  | none =>
    have hzero : word (fun _ => ⟨0, 0⟩) v = 0 := by
      unfold word
      dsimp only
      split <;> rfl
    rw [Option.elim_none, hzero]
    decide
  | some p => exact h i p (List.mem_filter.mp (List.mem_of_getElem? hp)).1 v

theorem crossAllowed_promised (s : Cluster (Fin 3)) (a : Cluster.Action (Fin 3))
    (h : crossAllowed s a = true) : crossLanes.Promised s a := by
  rw [crossAllowed, Bool.and_eq_true, decide_eq_true_eq] at h
  obtain ⟨hlight, hok⟩ := h
  refine ⟨⟨?_, ?_⟩, fun k => Lanes.fits_of_light (by decide : 2 ≤ 32) fun i => hlight _⟩
  · rintro w l rfl
    cases l with
    | pushReq t =>
      obtain ⟨⟨k, i, hw, rfl⟩, hbarrier⟩ := of_decide_eq_true hok
      refine ⟨hbarrier, fun t' ht => ?_⟩
      obtain rfl := Label.pushReq.inj ht
      exact ⟨k, i, Fin.ext hw, rfl, rfl, rfl, rfl, rfl, rfl, rfl⟩
    | _ => exact ⟨trivial, by simp⟩
  · rintro m typeOfService rfl q w r hm
    rw [crossFollowed, hm, Option.elim_some] at hok
    exact of_decide_eq_true hok

/-- The packet of worker 2 is at the switch before the first group is done; worker 1 turns to the
second group then. -/
def crossRun : List (Cluster.Action (Fin 3)) :=
  let a : Fin 2 := ⟨0, Nat.two_pos⟩
  let b : Fin 2 := ⟨1, Nat.one_lt_two⟩
  let first := crossLanes.worker a a
  let shared := crossLanes.worker a b
  let last := crossLanes.worker b b
  let send (k i : Fin 2) : List (Cluster.Action (Fin 3)) :=
    [.pushReq (crossSubOp k i), .loopTop 0, .endRx, .startTx, .sendOne, .sendOne, .congestion,
      .loopTop 0].map (.host (crossLanes.worker k i))
  send a a ++ send a b ++ send b b ++
  [.arrive first, .arrive last, .arrive shared, .second 0, .receive 0 0, .receive 0 0] ++
  [.endRx, .startTx, .sendOne, .congestion].map (.host shared) ++
  send b a ++ [.arrive shared, .second 0, .receive 0 0]

/-- The worker the groups share accepts 1 + 2 in the first, and 2 + 3 in the second. -/
theorem cluster_agreement_cross :
    ∃ s, exec (Cluster.step crossTables crossCopies) crossAllowed crossStart crossRun = some s ∧
      (∃ p fr, (p, fr) ∈ accepted (s.host 1).log ∧ p.pkt.inc.groupId = 2 ∧
        ∃ q, ∀ v, (word (payloadOf fr.payload) v).toInt =
          ∑ j : Fin 2, (word (crossLanes.contribution s 1 j q) v).toInt) ∧
      (accepted (s.host 1).log).map (fun x => (word (payloadOf x.2.payload) 0).toInt) =
        [3, 5] := by
  have hrun : (exec (Cluster.step crossTables crossCopies) crossAllowed crossStart crossRun).bind
      (fun s => ((accepted (s.host 1).log)[1]?).map fun x =>
        (needRx ((s.host 1).worker.subOp x.1.subOp).op, x.1.pkt.inc.groupId,
          (accepted (s.host 1).log).map fun x => (word (payloadOf x.2.payload) 0).toInt)) =
      some (true, 2, [3, 5]) := by
    decide +kernel
  obtain ⟨s, hs, hview⟩ := Option.bind_eq_some_iff.mp hrun
  obtain ⟨⟨p, fr⟩, hacc, hview⟩ := Option.map_eq_some_iff.mp hview
  simp only [Prod.mk.injEq] at hview
  obtain ⟨hrx, hgroup, hwords⟩ := hview
  have hmem := List.mem_of_getElem? hacc
  have hreach := exec_reach crossAllowed_promised _ (.init cross_init) hs
  obtain ⟨k, i, q, x, -, hg, -, -, -, -, hsums⟩ := cluster_agreement cross_created hreach 1 hmem
  have hsecond : ∀ k : Fin 2, crossLanes.gid k = 2 → k = 1 := by decide
  obtain rfl := hsecond k (hg.trans hgroup)
  exact ⟨s, hs, ⟨p, fr, hmem, hgroup, q, (hsums hrx).2⟩, hwords⟩

/-- The answer to worker 1 is on its way; meanwhile the packet of worker 2 is in a slot of its
own. -/
theorem cluster_recoverable_cross :
    ∃ s, exec (Cluster.step crossTables crossCopies) crossAllowed crossStart (crossRun.take 29) =
        some s ∧ s.Answering crossLanes crossTables 0 ⟨1, Nat.one_lt_two⟩ 0 := by
  have hrun : (exec (Cluster.step crossTables crossCopies) crossAllowed crossStart
      (crossRun.take 29)).map (fun s =>
        decide ((((built (s.host 0).log)[0]?).map fun p => p.pkt.inc.groupId) = some 1 ∧
          (s.host 0).Acked 0 ∧ 0 < ((s.host 1).builtIn 1).length ∧
          ∀ j < (built (s.host 1).log).length, ¬ (s.host 1).Acked j)) = some true := by
    decide +kernel
  obtain ⟨s, hs, hview⟩ := Option.map_eq_some_iff.mp hrun
  obtain ⟨hzero, hacked, hlt, hunacked⟩ := of_decide_eq_true hview
  obtain ⟨p, hp, hgroup⟩ := Option.map_eq_some_iff.mp hzero
  have hreach := exec_reach crossAllowed_promised _ (.init cross_init) hs
  refine ⟨s, hs, (cluster_recoverable cross_created (hreach.mono fun _ _ hok => hok.toOrderly) 0).1
    ⟨0, Nat.two_pos⟩ ⟨1, Nat.one_lt_two⟩ 0 ⟨0, p, hp, hgroup, rfl, hacked⟩ hlt ?_⟩
  rintro ⟨j, x, hx, -, -, hack⟩
  exact hunacked j (List.getElem?_eq_some_iff.mp hx).1 hack

end NetCCL
