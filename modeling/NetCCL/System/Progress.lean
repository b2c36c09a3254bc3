/-
# No group is ever stuck

Whatever has happened to a cluster, whatever was lost, it can go on by itself: nothing new is
posted, the threads go round, and what is on its way arrives (`Cluster.Goes`).
`cluster_progress` is what it comes to: every packet that all ranks of a lane have built is
accepted by all of them, and shifted out.

Nothing else makes up for a loss than the timeout of the sender (`Run.timeout`).  What it sends
again counts once in the slot, and when the packet has come from every rank, each rank that sends
it once more is answered (`Lane.answering`), whether or not the multicast reached it.

That all ranks have BUILT the packet cannot be left out: a rank may not have posted the sub-op
yet, or be busy with another group.
-/
import NetCCL.Backend.Timeout
import NetCCL.System.Isolation

namespace NetCCL

open Lib Switch Backend

variable {W K : Type} [DecidableEq W] {D : Lanes W K} {tbl : Tables}
  {copies : W → BitVec 8 → List (ℕ × W)} {s s' : Cluster W} {k : K} {f : Traffic (Fin (D.n k))}

/-! ## 1. Going on -/

/-- The threads go round, and what is on its way arrives. -/
def Cluster.Action.Unaided : Cluster.Action W → Prop
  | .host _ l => l.Thread
  | .arrive _ | .second _ | .receive _ _ => True
  | _ => False

variable (D tbl copies) in
/-- **The cluster goes on by itself.** -/
abbrev Cluster.Goes (s : Cluster W) : Cluster W → Prop :=
  Reach (· = s) (Cluster.Step tbl copies) fun s a => D.Orderly s a ∧ a.Unaided

omit [DecidableEq W] in
/-- What the threads do is no concern of the load balancers. -/
theorem Lanes.Allows.thread {w : W} {r : Run} {l : Label} (hl : l.Thread) : D.Allows w r l := by
  cases l with
  | pushReq t => exact hl.elim
  | _ => exact ⟨trivial, fun _ he => by cases he⟩

omit [DecidableEq W] in
theorem Lanes.Orderly.thread {w : W} {l : Label} (hl : l.Thread) : D.Orderly s (.host w l) :=
  ⟨fun _ _ he => by cases he; exact .thread hl, fun _ _ he => by cases he⟩

/-- What a run has done stays done. -/
structure Cluster.Since (D : Lanes W K) (s s' : Cluster W) : Prop where
  joint : Cluster.Joint D s'
  built : ∀ w g, (s.host w).builtIn g <+: (s'.host w).builtIn g
  acked : ∀ w g q, (s.host w).AckedIn g q → (s'.host w).AckedIn g q
  completed : ∀ w g, (s.host w).completedIn g ≤ (s'.host w).completedIn g

theorem Cluster.Joint.since (hD : D.Created tbl copies) (h : Cluster.Joint D s)
    {a : Cluster.Action W} (hok : D.Orderly s a) (hstep : Cluster.Step tbl copies s a s') :
    Cluster.Since D s s' := by
  have hjoint := h.step hD hok hstep
  rcases Cluster.step_host hstep with hhost | ⟨w, l, r, events, hw, hlog, hhost, -, -⟩
  · refine ⟨hjoint, ?_, ?_, ?_⟩ <;> rw [hhost]
    · exact fun _ _ => List.prefix_rfl
    · exact fun _ _ _ hq => hq
    · exact fun _ _ => Nat.le_refl _
  · obtain ⟨ctx, aggLen, hkeeps⟩ := h.workers w
    have hturn := hkeeps.serving.turn ⟨events, hw, hlog⟩ hlog
    refine ⟨hjoint, fun u g => ?_, fun u g q hq => ?_, fun u g => ?_⟩ <;> rw [hhost] <;>
      rcases eq_or_ne u w with rfl | hu
    · rw [Function.update_self]
      rcases (hturn g).built with hb | ⟨p, hb, -⟩ <;> rw [hb]
      exact List.prefix_append _ _
    · rw [Function.update_of_ne hu]
    · rw [Function.update_self]
      cases (hturn g).accepts with
      | nothing _ hack => exact (hack q).mpr hq
      | response _ _ _ hack => exact (hack q).mpr (Or.inr hq)
    · rwa [Function.update_of_ne hu]
    · rw [Function.update_self]
      exact (hturn g).le
    · rw [Function.update_of_ne hu]

omit [DecidableEq W] in
theorem Cluster.Since.trans {s'' : Cluster W} (h : Cluster.Since D s s')
    (h' : Cluster.Since D s' s'') : Cluster.Since D s s'' :=
  ⟨h'.joint, fun w g => (h.built w g).trans (h'.built w g),
    fun w g q hq => h'.acked w g q (h.acked w g q hq),
    fun w g => (h.completed w g).trans (h'.completed w g)⟩

theorem Cluster.Goes.since (hD : D.Created tbl copies) (hgo : Cluster.Goes D tbl copies s s')
    (h : Cluster.Joint D s) : Cluster.Since D s s' := by
  induction hgo with
  | init he =>
    subst he
    exact ⟨h, fun _ _ => List.prefix_rfl, fun _ _ _ hq => hq, fun _ _ => Nat.le_refl _⟩
  | step _ hok hstep ih => exact ih.trans (ih.joint.since hD hok.1 hstep)

/-- A lane keeps what has arrived. -/
theorem Cluster.Goes.lane (hD : D.Created tbl copies) (hgo : Cluster.Goes D tbl copies s s')
    (h : Cluster.Joint D s) (hf : Lane D s k f) :
    ∃ f', Lane D s' k f' ∧ ∀ i, f.arr i ⊆ f'.arr i := by
  induction hgo with
  | init he =>
    subst he
    exact ⟨f, hf, fun _ => Set.Subset.refl _⟩
  | step hgo hok hstep ih =>
    obtain ⟨f₁, hf₁, harr₁⟩ := ih
    obtain ⟨f₂, hf₂, harr₂⟩ := (Cluster.Goes.since hD hgo h).joint.lane hD hok.1 hstep hf₁
    exact ⟨f₂, hf₂, fun i => (harr₁ i).trans (harr₂ i)⟩

/-- The threads of one worker go round. -/
theorem Cluster.Goes.rounds {s₀ : Cluster W} (hgo : Cluster.Goes D tbl copies s₀ s) {w : W}
    {r : Run} (hr : (s.host w).Rounds r) :
    ∃ s', Cluster.Goes D tbl copies s₀ s' ∧ s'.host w = r ∧ s'.back = s.back := by
  induction hr with
  | init he => exact ⟨s, hgo, he.symm, rfl⟩
  | @step r r' l _ hl hstep ih =>
    obtain ⟨s₁, hgo₁, rfl, hback⟩ := ih
    obtain ⟨events, hw, hlog⟩ := hstep
    have hstep : Cluster.Step tbl copies s₁ (.host w l)
        (s₁.stepped w r' (Cluster.sends r' events)) := by
      have hrun : s₁.run w l = some (s₁.stepped w r' (Cluster.sends r' events)) := by
        rw [Cluster.run, hw]
        change some (s₁.stepped w ⟨r'.worker, (s₁.host w).log ++ events⟩ _) = _
        rw [← hlog]
      cases l with
      | receive fr => exact hl.elim
      | _ => exact hrun
    exact ⟨_, .step hgo₁ ⟨.thread hl, hl⟩ hstep, Cluster.stepped_self, hback⟩

/-- A first pass. -/
theorem Cluster.Goes.arrive {s₀ : Cluster W} (hgo : Cluster.Goes D tbl copies s₀ s) {w : W} {q : ℕ}
    {fr : Frame} {rest : List (ℕ × Frame)} (hw : s.wire w = (q, fr) :: rest) :
    Cluster.Goes D tbl copies s₀
      (Cluster.firstPass tbl { s with wire := Function.update s.wire w rest } q w fr) := by
  have hok : D.Orderly s (.arrive w) := by constructor <;> rintro _ _ ⟨⟩
  refine .step hgo ⟨hok, trivial⟩ ?_
  unfold Cluster.Step Cluster.step
  dsimp only
  rw [hw]

/-- What is in front of a frame arrives before it. -/
theorem Cluster.Goes.drain {s₀ : Cluster W} {w : W} {rest : List (ℕ × Frame)}
    (pre : List (ℕ × Frame)) : ∀ {s : Cluster W}, Cluster.Goes D tbl copies s₀ s →
      s.wire w = pre ++ rest → ∃ s', Cluster.Goes D tbl copies s₀ s' ∧ s'.wire w = rest := by
  induction pre with
  | nil => exact fun hgo hw => ⟨_, hgo, hw⟩
  | cons x pre ih =>
    intro s hgo hw
    obtain ⟨q, fr⟩ := x
    rw [List.cons_append] at hw
    obtain ⟨-, hwire, -, -, -⟩ := Cluster.firstPass_spec tbl
      { s with wire := Function.update s.wire w (pre ++ rest) } q w fr
    exact ih (hgo.arrive hw) (by rw [hwire]; exact Function.update_self _ _ _)

/-! ## 2. A packet is sent again -/

variable {i j : Fin (D.n k)} {q : ℕ}

/-- **A packet that is not accepted comes to the switch**, first of what is on the wire. -/
theorem Cluster.Joint.comes (hD : D.Created tbl copies) (h : Cluster.Joint D s) {x : PktState}
    (hq : ((s.host (D.worker k i)).builtIn (D.gid k))[q]? = some x) :
    ∃ s', Cluster.Goes D tbl copies s s' ∧ ((s'.host (D.worker k i)).AckedIn (D.gid k) q ∨
      ∃ rest, s'.wire (D.worker k i) = (q, x.pkt) :: rest) := by
  obtain ⟨r, hr, htimeout⟩ := Run.timeout (s.host (D.worker k i))
  have hgo : Cluster.Goes D tbl copies s s := .init rfl
  obtain ⟨s₁, hgo₁, rfl, -⟩ := Cluster.Goes.rounds hgo hr
  by_cases hack : (s₁.host (D.worker k i)).AckedIn (D.gid k) q
  · exact ⟨s₁, hgo₁, Or.inl hack⟩
  have hsince := hgo₁.since hD h
  have hx : ((s₁.host (D.worker k i)).builtIn (D.gid k))[q]? = some x := by
    obtain ⟨rest, hrest⟩ := hsince.built (D.worker k i) (D.gid k)
    rw [← hrest, List.getElem?_append_left (List.getElem?_eq_some_iff.mp hq).1, hq]
  obtain ⟨ctx, aggLen, hkeeps⟩ := hsince.joint.workers (D.worker k i)
  obtain ⟨_, _, _, acc, hinv⟩ := hkeeps.serving.inv
  obtain ⟨pos, hsent, hnum⟩ := hinv.window.resentIn htimeout hx hack
  generalize hout : (s₁.host (D.worker k i)).worker.startTx = out at *
  obtain ⟨v, events⟩ := out
  have hw : (s₁.host (D.worker k i)).worker.step .startTx = some (v, events) := by
    rw [Worker.step, if_pos htimeout.pc, hout]
  have hquiet := (step_sameQueue hw (by simp) (by simp)).2.1
  -- the step hands the packet to the NIC, behind what is on the wire
  have hmem : (q, x.pkt) ∈ Cluster.sends ⟨v, (s₁.host (D.worker k i)).log ++ events⟩ events := by
    refine List.mem_map.mpr ⟨(pos, x.pkt), mem_transmitted.mpr hsent, ?_⟩
    have hg : x.pkt.inc.groupId = D.gid k :=
      ofGroup_iff.mp (List.mem_filter.mp (List.mem_of_getElem? hx)).2
    unfold Run.numberIn at hnum ⊢
    dsimp only
    rw [built_append, hquiet, List.append_nil, hg, hnum]
  obtain ⟨s₂, hstep, hwire⟩ : ∃ s₂, Cluster.Step tbl copies s₁ (.host (D.worker k i) .startTx) s₂ ∧
      s₂.wire (D.worker k i) = s₁.wire (D.worker k i) ++
        Cluster.sends ⟨v, (s₁.host (D.worker k i)).log ++ events⟩ events := by
    refine ⟨s₁.stepped (D.worker k i) ⟨v, (s₁.host (D.worker k i)).log ++ events⟩
      (Cluster.sends ⟨v, (s₁.host (D.worker k i)).log ++ events⟩ events), ?_,
      Function.update_self _ _ _⟩
    unfold Cluster.Step Cluster.step Cluster.run
    dsimp only
    rw [hw]
    rfl
  obtain ⟨pre, rest, hsplit⟩ := List.append_of_mem hmem
  rw [hsplit, ← List.append_assoc] at hwire
  have hgo₂ : Cluster.Goes D tbl copies s s₂ :=
    .step hgo₁ ⟨.thread (l := .startTx) trivial, trivial⟩ hstep
  obtain ⟨s₃, hgo₃, hwire₃⟩ := hgo₂.drain _ hwire
  exact ⟨s₃, hgo₃, Or.inr ⟨rest, hwire₃⟩⟩

/-- **It arrives.** -/
theorem Cluster.Joint.arrives (hD : D.Created tbl copies) (h : Cluster.Joint D s)
    (hf : Lane D s k f) (i : Fin (D.n k))
    (hq : q < ((s.host (D.worker k i)).builtIn (D.gid k)).length) :
    ∃ s' f', Cluster.Goes D tbl copies s s' ∧ Lane D s' k f' ∧ (∀ j, f.arr j ⊆ f'.arr j) ∧
      q ∈ f'.arr i := by
  have hx := List.getElem?_eq_getElem hq
  generalize ((s.host (D.worker k i)).builtIn (D.gid k))[q] = x at hx
  obtain ⟨s₁, hgo₁, hcome⟩ := h.comes hD hx
  obtain ⟨f₁, hf₁, harr₁⟩ := hgo₁.lane hD h hf
  have hsince := hgo₁.since hD h
  rcases hcome with hack | ⟨rest, hwire⟩
  · exact ⟨s₁, f₁, hgo₁, hf₁, harr₁, hf₁.inv.whole i q ((hf₁.acc i q).mpr hack) i⟩
  have hg : x.pkt.inc.groupId = D.gid k :=
    ofGroup_iff.mp (List.mem_filter.mp (List.mem_of_getElem? hx)).2
  obtain ⟨f₂, hf₂, harr₂, hq₂⟩ := hf₁.arrive hD (hsince.joint.workers _) hwire hg
  exact ⟨_, f₂, hgo₁.arrive hwire, hf₂, fun j => (harr₁ j).trans (harr₂ j), hq₂⟩

/-- **It arrives from every rank.** -/
theorem Cluster.Joint.arrivesAll (hD : D.Created tbl copies) (h : Cluster.Joint D s)
    (hf : Lane D s k f) (hq : ∀ i, q < ((s.host (D.worker k i)).builtIn (D.gid k)).length) :
    ∃ s' f', Cluster.Goes D tbl copies s s' ∧ Lane D s' k f' ∧ ∀ i, q ∈ f'.arr i := by
  suffices hall : ∀ t : Finset (Fin (D.n k)), ∃ s' f', Cluster.Goes D tbl copies s s' ∧
      Lane D s' k f' ∧ ∀ i ∈ t, q ∈ f'.arr i by
    obtain ⟨s', f', hgo, hf', harr⟩ := hall Finset.univ
    exact ⟨s', f', hgo, hf', fun i => harr i (Finset.mem_univ i)⟩
  intro t
  induction t using Finset.cons_induction with
  | empty => exact ⟨s, f, .init rfl, hf, fun i hi => absurd hi (Finset.notMem_empty i)⟩
  | cons i t hi ih =>
    obtain ⟨s₁, f₁, hgo₁, hf₁, harr₁⟩ := ih
    have hsince := hgo₁.since hD h
    obtain ⟨s₂, f₂, hgo₂, hf₂, harr₂, hq₂⟩ := hsince.joint.arrives hD hf₁ i
      (Nat.lt_of_lt_of_le (hq i) (hsince.built _ _).length_le)
    refine ⟨s₂, f₂, hgo₁.trans hgo₂, hf₂, fun j hj => ?_⟩
    rcases Finset.mem_cons.mp hj with rfl | hj
    · exact hq₂
    · exact harr₂ j (harr₁ j hj)

/-! ## 3. ... and answered -/

omit [DecidableEq W] in
theorem Cluster.firstPass_recirculate {w : W} {fr : Frame} {port : ℕ}
    (h : (ingress tbl s.regs (packetOf fr)).2.2 = .recirculate port) :
    Cluster.firstPass tbl s q w fr = { s with
      regs := (ingress tbl s.regs (packetOf fr)).1
      recirc := s.recirc ++
        [(q, w, egressRecirculate (ingress tbl s.regs (packetOf fr)).2.1)] } := by
  dsimp only [Cluster.firstPass]
  rw [h]

omit [DecidableEq W] in
theorem Cluster.secondPass_l2Forward {w : W} {p : Packet}
    (h : (ingress tbl s.regs p).2.2 = .l2Forward) :
    Cluster.secondPass tbl copies s q w p = { s with
      regs := (ingress tbl s.regs p).1
      back := s.back ++ [(q, w, egressRespond (ingress tbl s.regs p).2.1 0)] } := by
  dsimp only [Cluster.secondPass]
  rw [h]

/-- A second pass. -/
theorem Cluster.Goes.second {s₀ : Cluster W} (hgo : Cluster.Goes D tbl copies s₀ s) {m : ℕ} {w : W}
    {p : Packet} (hm : s.recirc[m]? = some (q, w, p)) :
    Cluster.Goes D tbl copies s₀
      (Cluster.secondPass tbl copies { s with recirc := s.recirc.eraseIdx m } q w p) := by
  have hok : D.Orderly s (.second m) := by constructor <;> rintro _ _ ⟨⟩
  refine .step hgo ⟨hok, trivial⟩ ?_
  unfold Cluster.Step Cluster.step
  dsimp only
  rw [hm]
  rfl

/-- A packet of the lane that has arrived from everybody is recirculated when it comes again, and
its second pass answers it. -/
theorem Cluster.Goes.respond {s₀ : Cluster W} (hD : D.Created tbl copies)
    (hgo : Cluster.Goes D tbl copies s₀ s) (h : Cluster.Joint D s) (hf : Lane D s k f)
    (hall : ∀ i, q ∈ f.arr i) (hj : ¬ (s.host (D.worker k j)).AckedIn (D.gid k) q) {x : PktState}
    (hq : ((s.host (D.worker k j)).builtIn (D.gid k))[q]? = some x) {rest : List (ℕ × Frame)}
    (hw : s.wire (D.worker k j) = (q, x.pkt) :: rest) :
    ∃ (s' : Cluster W) (r : Response), Cluster.Goes D tbl copies s₀ s' ∧ s'.host = s.host ∧
      (q, D.worker k j, r) ∈ s'.back ∧ r.netccl.groupId = D.gid k := by
  obtain ⟨⟨port, hport⟩, hlater⟩ := (hf.answering hD (h.workers _) hall hj).answered x hq
  have hg : x.pkt.inc.groupId = D.gid k :=
    ofGroup_iff.mp (List.mem_filter.mp (List.mem_of_getElem? hq)).2
  have hgo₁ := hgo.arrive hw
  rw [Cluster.firstPass_recirculate
    (s := { s with wire := Function.update s.wire (D.worker k j) rest }) hport] at hgo₁
  dsimp only at hgo₁
  have hgo₂ := hgo₁.second (List.getElem?_concat_length ..)
  rw [Cluster.secondPass_l2Forward (hlater _)] at hgo₂
  refine ⟨_, _, hgo₂, rfl, List.mem_append_right _ (List.mem_singleton_self _), ?_⟩
  rw [egressRespond_groupId]
  exact hg

/-- A response to a packet that is not accepted yet is, where the thread takes frames. -/
theorem Cluster.Goes.take {s₀ : Cluster W} (hD : D.Created tbl copies)
    (hgo : Cluster.Goes D tbl copies s₀ s) (h : Cluster.Joint D s) {r : Response}
    (hr : (q, D.worker k j, r) ∈ s.back) (hgroup : r.netccl.groupId = D.gid k)
    (hpc : (s.host (D.worker k j)).worker.pc = .rx)
    (hj : ¬ (s.host (D.worker k j)).AckedIn (D.gid k) q) :
    ∃ s', Cluster.Goes D tbl copies s₀ s' ∧ (s'.host (D.worker k j)).AckedIn (D.gid k) q := by
  obtain ⟨m, hm⟩ := List.mem_iff_getElem?.mp hr
  obtain ⟨f, hf⟩ := h.lanes k
  obtain ⟨ctx, aggLen, hkeeps⟩ := h.workers (D.worker k j)
  have hresp : Responds (D.plan k) (D.contribution s k) f q j r := hf.back _ hr j rfl hgroup
  obtain ⟨x, hx⟩ : ∃ x, ((s.host (D.worker k j)).builtIn (D.gid k))[q]? = some x :=
    ⟨_, List.getElem?_eq_getElem (hf.lt_built (hresp.all j))⟩
  obtain ⟨-, hheader, hpsn, -⟩ :=
    (hf.share j).packet hkeeps.serving (hkeeps.lanes k j rfl).1 hx
  -- the response is not late: the packet is in the window
  have hlate : ((s.host (D.worker k j)).builtIn (D.gid k)).length ≤ q + 2 ^ 32 := by
    have hlo : f.lo j ≤ q := Nat.le_of_not_lt fun hlt => hj ((hf.acc j q).mp (hf.inv.left j q hlt))
    have hwidth := hf.inv.width j
    have hlen := (hD.created k).width
    rw [hf.hi] at hwidth
    omega
  have hok : D.Orderly s (.receive m 0) := by
    constructor
    · rintro _ _ ⟨⟩
    · rintro _ _ ⟨⟩ q' w' r' hm'
      obtain ⟨rfl, rfl, rfl⟩ : q = q' ∧ D.worker k j = w' ∧ r = r' := by
        simpa using hm.symm.trans hm'
      rw [hgroup]
      exact hlate
  -- it is found, and taken
  obtain ⟨_, _, _, acc, hinv⟩ := hkeeps.serving.inv
  have hinc : (responseFrame 0 r).inc = x.pkt.inc := by
    obtain ⟨payload, rfl, -⟩ := hresp.eq
    rw [hheader]
    rfl
  obtain ⟨pos, rest, hevents⟩ := hinv.window.acceptsIn hpc hx hj (by rw [hheader, hpsn]; rfl) hinc
  generalize hout : (s.host (D.worker k j)).worker.rxProcessOne (responseFrame 0 r) = out at *
  obtain ⟨v, events⟩ := out
  have hw : (s.host (D.worker k j)).worker.step (.receive (responseFrame 0 r)) =
      some (v, events) := by
    rw [Worker.step, if_pos hpc, hout]
  generalize hrun : Run.mk v ((s.host (D.worker k j)).log ++ events) = run at *
  have hstep : Cluster.Step tbl copies s (.receive m 0) (Cluster.stepped
      { s with back := s.back.eraseIdx m } (D.worker k j) run (Cluster.sends run events)) := by
    unfold Cluster.Step Cluster.step Cluster.run
    dsimp only
    rw [hm]
    dsimp only [Option.bind_some]
    rw [hw, ← hrun]
    rfl
  refine ⟨_, .step hgo ⟨hok, trivial⟩ hstep, ?_⟩
  rw [Cluster.stepped_self]
  have hlog : run.log = (s.host (D.worker k j)).log ++ events := by rw [← hrun]
  cases (hkeeps.serving.turn ⟨events, by rw [← hrun]; exact hw, hlog⟩ hlog (D.gid k)).accepts with
  | nothing hnone =>
    refine absurd ?_ (hnone ({ x with acked := true }, responseFrame 0 r) ?_)
    · exact ofGroup_iff.mp (List.mem_filter.mp (List.mem_of_getElem? hx)).2
    · dsimp only at hevents
      rw [hevents]
      exact List.mem_cons_self
  | response _ hle hans hack =>
    obtain rfl := hf.answered hD (h.workers _) hresp hlate hle hans
    exact (hack _).mpr (Or.inl rfl)

/-- **It is accepted.** -/
theorem Cluster.Joint.accepts (hD : D.Created tbl copies) (h : Cluster.Joint D s)
    (hf : Lane D s k f) (hall : ∀ i, q ∈ f.arr i) (j : Fin (D.n k)) :
    ∃ s', Cluster.Goes D tbl copies s s' ∧ (s'.host (D.worker k j)).AckedIn (D.gid k) q := by
  have hq := hf.lt_built (hall j)
  have hx := List.getElem?_eq_getElem hq
  generalize ((s.host (D.worker k j)).builtIn (D.gid k))[q] = x at hx
  obtain ⟨s₁, hgo₁, hcome⟩ := h.comes hD hx
  by_cases hack₁ : (s₁.host (D.worker k j)).AckedIn (D.gid k) q
  · exact ⟨s₁, hgo₁, hack₁⟩
  obtain ⟨rest, hwire⟩ := hcome.resolve_left hack₁
  obtain ⟨f₁, hf₁, harr₁⟩ := hgo₁.lane hD h hf
  have hsince₁ := hgo₁.since hD h
  have hx₁ : ((s₁.host (D.worker k j)).builtIn (D.gid k))[q]? = some x := by
    obtain ⟨more, hmore⟩ := hsince₁.built (D.worker k j) (D.gid k)
    rw [← hmore, List.getElem?_append_left hq, hx]
  obtain ⟨s₂, r, hgo₂, -, hmem, hgroup⟩ := Cluster.Goes.respond hD hgo₁ hsince₁.joint hf₁
    (fun i => harr₁ i (hall i)) hack₁ hx₁ hwire
  -- the thread comes to where it takes frames
  obtain ⟨run, hrun, hpc⟩ := Run.Rounds.rx (r := s₂.host (D.worker k j)) (.init rfl)
  obtain ⟨s₃, hgo₃, rfl, hback⟩ := Cluster.Goes.rounds hgo₂ hrun
  rw [← hback] at hmem
  by_cases hack₃ : (s₃.host (D.worker k j)).AckedIn (D.gid k) q
  · exact ⟨s₃, hgo₃, hack₃⟩
  · exact Cluster.Goes.take hD hgo₃ (hgo₃.since hD h).joint hmem hgroup hpc hack₃

/-- **It is shifted out**, with all before it. -/
theorem Cluster.Joint.shifts {n : ℕ} (hD : D.Created tbl copies) (h : Cluster.Joint D s)
    (i : Fin (D.n k)) (hn : n ≤ ((s.host (D.worker k i)).builtIn (D.gid k)).length)
    (hack : ∀ q < n, (s.host (D.worker k i)).AckedIn (D.gid k) q) :
    ∃ s', Cluster.Goes D tbl copies s s' ∧ n ≤ (s'.host (D.worker k i)).completedIn (D.gid k) := by
  obtain ⟨r₁, hr₁, hpc⟩ := Run.Rounds.rx (r := s.host (D.worker k i)) (.init rfl)
  have hgo : Cluster.Goes D tbl copies s s := .init rfl
  obtain ⟨s₁, hgo₁, rfl, -⟩ := Cluster.Goes.rounds hgo hr₁
  have hsince := hgo₁.since hD h
  obtain ⟨ctx, aggLen, hkeeps⟩ := hsince.joint.workers (D.worker k i)
  obtain ⟨events, hw⟩ : ∃ out, (s₁.host (D.worker k i)).worker.step .endRx = some out :=
    ⟨_, by rw [Worker.step, if_pos hpc]⟩
  obtain ⟨v, events⟩ := events
  have hstep : (s₁.host (D.worker k i)).Step .endRx
      ⟨v, (s₁.host (D.worker k i)).log ++ events⟩ := ⟨events, hw, rfl⟩
  obtain ⟨s₂, hgo₂, hhost, -⟩ := Cluster.Goes.rounds hgo₁ (.step (.init rfl) (by trivial) hstep)
  refine ⟨s₂, hgo₂, ?_⟩
  rw [hhost]
  exact hkeeps.serving.shiftsIn hstep (Nat.le_trans hn (hsince.built _ _).length_le)
    fun q hq => hsince.acked _ _ q (hack q hq)

/-! ## 4. From every state -/

variable {n : ℕ}

/-- All ranks of the lane have built `n` packets. -/
structure Cluster.Ready (D : Lanes W K) (s : Cluster W) (k : K) (n : ℕ) : Prop where
  joint : Cluster.Joint D s
  built : ∀ i, n ≤ ((s.host (D.worker k i)).builtIn (D.gid k)).length

omit [DecidableEq W] in
theorem Cluster.Ready.since (h : Cluster.Ready D s k n) (hs : Cluster.Since D s s') :
    Cluster.Ready D s' k n :=
  ⟨hs.joint, fun i => Nat.le_trans (h.built i) (hs.built _ _).length_le⟩

/-- **All of them are accepted**, packet by packet and rank by rank. -/
theorem Cluster.Ready.accepts (hD : D.Created tbl copies) (h : Cluster.Ready D s k n) :
    ∃ s', Cluster.Goes D tbl copies s s' ∧
      ∀ i, ∀ q < n, (s'.host (D.worker k i)).AckedIn (D.gid k) q := by
  have hstep : ∀ s a s', Cluster.Ready D s k n → (D.Orderly s a ∧ a.Unaided) →
      Cluster.Step tbl copies s a s' → Cluster.Since D s s' :=
    fun s a s' h hok hs => h.joint.since hD hok.1 hs
  have hall : ∃ s', Cluster.Goes D tbl copies s s' ∧
      ∀ x : Fin (D.n k) × Fin n, (s'.host (D.worker k x.1)).AckedIn (D.gid k) x.2 := by
    refine Reach.exists_all (I := fun s => Cluster.Ready D s k n)
      (P := fun (x : Fin (D.n k) × Fin n) s => (s.host (D.worker k x.1)).AckedIn (D.gid k) x.2)
      (fun s a s' h hok hs => h.since (hstep s a s' h hok hs))
      (fun x s a s' h hx hok hs => (hstep s a s' h hok hs).acked _ _ _ hx) ?_ h
    rintro ⟨i, q, hq⟩ s h
    obtain ⟨f, hf⟩ := h.joint.lanes k
    obtain ⟨s₁, f₁, hgo₁, hf₁, hall⟩ :=
      h.joint.arrivesAll hD hf fun i => Nat.lt_of_lt_of_le hq (h.built i)
    obtain ⟨s₂, hgo₂, hack⟩ := (hgo₁.since hD h.joint).joint.accepts hD hf₁ hall i
    exact ⟨s₂, hgo₁.trans hgo₂, hack⟩
  obtain ⟨s', hgo, hack⟩ := hall
  exact ⟨s', hgo, fun i q hq => hack (i, ⟨q, hq⟩)⟩

/-- **No lane is stuck.**  In whatever state a run leaves the cluster, it can go on by itself until
every packet that all ranks of the lane have built is accepted by all of them, and shifted out of
their windows. -/
theorem cluster_progress (hD : D.Created tbl copies)
    (h : Reach D.Init (Cluster.Step tbl copies) D.Orderly s) (k : K) {n : ℕ}
    (hn : ∀ i, n ≤ ((s.host (D.worker k i)).builtIn (D.gid k)).length) :
    ∃ s', Cluster.Goes D tbl copies s s' ∧
      ∀ i, n ≤ (s'.host (D.worker k i)).completedIn (D.gid k) := by
  have hready : Cluster.Ready D s k n := ⟨cluster_joint_reach hD h, hn⟩
  obtain ⟨s₁, hgo₁, hack⟩ := hready.accepts hD
  have hstep : ∀ s a s', Cluster.Ready D s k n → (D.Orderly s a ∧ a.Unaided) →
      Cluster.Step tbl copies s a s' → Cluster.Since D s s' :=
    fun s a s' h hok hs => h.joint.since hD hok.1 hs
  -- what is accepted stays accepted, while one window after the other shifts
  obtain ⟨s₂, hgo₂, hdone⟩ : ∃ s', Cluster.Goes D tbl copies s₁ s' ∧
      ∀ i, n ≤ (s'.host (D.worker k i)).completedIn (D.gid k) :=
    Reach.exists_all (I := fun s => Cluster.Ready D s k n ∧
        ∀ i, ∀ q < n, (s.host (D.worker k i)).AckedIn (D.gid k) q)
      (P := fun i s => n ≤ (s.host (D.worker k i)).completedIn (D.gid k))
      (fun s a s' h hok hs => ⟨h.1.since (hstep s a s' h.1 hok hs),
        fun i q hq => (hstep s a s' h.1 hok hs).acked _ _ _ (h.2 i q hq)⟩)
      (fun i s a s' h hi hok hs => hi.trans ((hstep s a s' h.1 hok hs).completed _ _))
      (fun i s h => h.1.joint.shifts hD i (h.1.built i) (h.2 i))
      ⟨hready.since (hgo₁.since hD hready.joint), hack⟩
  exact ⟨s₂, hgo₁.trans hgo₂, hdone⟩

/-- The answer to worker 1 is lost, and its group gets there all the same. -/
theorem cluster_progress_cross :
    ∃ s, exec (Cluster.step crossTables crossCopies) crossAllowed crossStart
        (crossRun.take 29 ++ [.loseBack 0]) = some s ∧ s.back = [] ∧
      ∃ s', Cluster.Goes crossLanes crossTables crossCopies s s' ∧
        ∀ i, 1 ≤ (s'.host (crossLanes.worker 0 i)).completedIn (crossLanes.gid 0) := by
  have hrun : (exec (Cluster.step crossTables crossCopies) crossAllowed crossStart
      (crossRun.take 29 ++ [.loseBack 0])).map (fun s => decide (s.back.isEmpty = true ∧
        ∀ i, 1 ≤ ((s.host (crossLanes.worker 0 i)).builtIn (crossLanes.gid 0)).length)) =
      some true := by
    decide +kernel
  obtain ⟨s, hs, hview⟩ := Option.map_eq_some_iff.mp hrun
  obtain ⟨hback, hbuilt⟩ := of_decide_eq_true hview
  have hreach := exec_reach crossAllowed_promised _ (.init cross_init) hs
  exact ⟨s, hs, List.isEmpty_iff.mp hback,
    cluster_progress cross_created (hreach.mono fun _ _ hok => hok.toOrderly) 0 hbuilt⟩

end NetCCL
