/-
# A worker that nothing reaches

The thread goes round `worker_loop` whether or not frames arrive.  From any point of the loop it
gets to the top by itself (`Run.Rounds.top`), the loop of `shift_send` included, and a response
of which it has taken note once does not put off the timeout again.  So when it is let alone for
`TIMEOUT_TIME`, it comes to a round of `tx_process` that sends every packet of the window whose
response is missing once more (`InWindow.resent`).

`collect_retrans` needs a later response to find a gap.  What is missing at the end of the window
only this round makes good.
-/
import NetCCL.Backend.Location
import NetCCL.Backend.Share

namespace NetCCL.Backend

open Lib

variable {ctx : BitVec 8 → BitVec 32} {r r' : Run} {w w' : Worker} {acc : List ℕ}

/-! ## 1. The thread by itself -/

/-- The steps of the thread, but for the receipt of a frame. -/
def Label.Thread : Label → Prop
  | .loopTop _ | .endRx | .startTx | .sendOne | .congestion => True
  | _ => False

/-- The thread goes on by itself. -/
abbrev Run.Rounds (r : Run) : Run → Prop := Reach (· = r) Run.Step fun _ l => l.Thread

theorem Run.Rounds.one {l : Label} {events : List Event} (h : r.Rounds r') (hl : l.Thread)
    (hw : r'.worker.step l = some (w, events)) : r.Rounds ⟨w, r'.log ++ events⟩ :=
  .step h hl ⟨events, hw, rfl⟩

/-- One round of the loop of `shift_send` makes the window longer, or it is the last. -/
theorem sendOne_pc (w : Worker) (toSend winLen expectWinLen : ℕ) :
    (w.sendOne toSend winLen expectWinLen).1.pc = .cc ∨ (winLen < expectWinLen ∧
      (w.sendOne toSend winLen expectWinLen).1.pc =
        .send (nextPosition toSend) (winLen + 1) expectWinLen) := by
  rw [Worker.sendOne]
  split
  · rename_i hlt
    split
    · exact Or.inl rfl
    · exact Or.inr ⟨hlt, rfl⟩
  · exact Or.inl rfl

/-- The loop of `shift_send` ends. -/
theorem Run.Rounds.cc {n : ℕ} : ∀ {r' : Run} {toSend winLen expectWinLen : ℕ}, r.Rounds r' →
    r'.worker.pc = .send toSend winLen expectWinLen → expectWinLen - winLen ≤ n →
    ∃ r'', r.Rounds r'' ∧ r''.worker.pc = .cc := by
  induction n with
  | zero =>
    intro r' toSend winLen expectWinLen h hpc hn
    have hstep : r'.worker.step .sendOne = some (r'.worker.sendOne toSend winLen expectWinLen) := by
      simp [Worker.step, hpc]
    refine ⟨_, h.one (l := .sendOne) trivial hstep, ?_⟩
    rcases sendOne_pc r'.worker toSend winLen expectWinLen with hcc | ⟨hlt, -⟩
    · exact hcc
    · omega
  | succ n ih =>
    intro r' toSend winLen expectWinLen h hpc hn
    have hstep : r'.worker.step .sendOne = some (r'.worker.sendOne toSend winLen expectWinLen) := by
      simp [Worker.step, hpc]
    rcases sendOne_pc r'.worker toSend winLen expectWinLen with hcc | ⟨hlt, hsend⟩
    · exact ⟨_, h.one (l := .sendOne) trivial hstep, hcc⟩
    · exact ih (h.one (l := .sendOne) trivial hstep) hsend (by omega)

/-- **The thread gets to the top of its loop**, wherever it is. -/
theorem Run.Rounds.top (h : r.Rounds r') : ∃ r'', r.Rounds r'' ∧ r''.worker.pc = .top := by
  have hcc : ∀ {x : Run}, r.Rounds x → x.worker.pc = .cc →
      ∃ r'', r.Rounds r'' ∧ r''.worker.pc = .top := by
    intro x hx hpc
    exact ⟨_, hx.one (l := .congestion) trivial (by rw [Worker.step, if_pos hpc]), rfl⟩
  have hsend : ∀ {x : Run} {toSend winLen expectWinLen : ℕ}, r.Rounds x →
      x.worker.pc = .send toSend winLen expectWinLen →
      ∃ r'', r.Rounds r'' ∧ r''.worker.pc = .top := by
    intro x _ _ _ hx hpc
    obtain ⟨y, hy, hpc'⟩ := hx.cc hpc (Nat.le_refl _)
    exact hcc hy hpc'
  have htx : ∀ {x : Run}, r.Rounds x → x.worker.pc = .tx →
      ∃ r'', r.Rounds r'' ∧ r''.worker.pc = .top := by
    intro x hx hpc
    obtain ⟨_, _, _, _, hst, -⟩ := startTx_spec x.worker
    exact hsend (hx.one (l := .startTx) trivial (by rw [Worker.step, if_pos hpc]))
      (congrArg Worker.pc hst)
  cases hpc : r'.worker.pc with
  | top => exact ⟨r', h, hpc⟩
  | rx => exact htx (h.one (l := .endRx) trivial (by rw [Worker.step, if_pos hpc])) rfl
  | tx => exact htx h hpc
  | send toSend winLen expectWinLen => exact hsend h hpc
  | cc => exact hcc h hpc

/-- ... and to where frames are received. -/
theorem Run.Rounds.rx (h : r.Rounds r') : ∃ r'', r.Rounds r'' ∧ r''.worker.pc = .rx := by
  obtain ⟨x, hx, hpc⟩ := h.top
  exact ⟨_, hx.one (l := .loopTop 0) trivial (by rw [Worker.step, if_pos hpc]), rfl⟩

/-! ## 2. The timeout -/

/-- `tx_process` has taken note of every response. -/
def Worker.Noted (w : Worker) : Prop := w.prevAckCnt = w.ackCnt

/-- What `shift_ack` leaves as it is. -/
structure SameClock (w w' : Worker) : Prop where
  ackCnt : w'.ackCnt = w.ackCnt
  prevAckCnt : w'.prevAckCnt = w.prevAckCnt
  globalTs : w'.globalTs = w.globalTs
  lastAck : w'.window.lastAckTimeStamp = w.window.lastAckTimeStamp

theorem SameClock.refl (w : Worker) : SameClock w w := ⟨rfl, rfl, rfl, rfl⟩

theorem SameClock.trans {w₁ w₂ w₃ : Worker} (h : SameClock w₁ w₂) (h' : SameClock w₂ w₃) :
    SameClock w₁ w₃ :=
  ⟨h'.ackCnt.trans h.ackCnt, h'.prevAckCnt.trans h.prevAckCnt, h'.globalTs.trans h.globalTs,
    h'.lastAck.trans h.lastAck⟩

theorem completePkt_sameClock (w : Worker) (p : PktState) : SameClock w (w.completePkt p).1 := by
  rw [Worker.completePkt]
  split
  · split <;> exact ⟨rfl, rfl, rfl, rfl⟩
  · exact .refl w

theorem shiftFrom_sameClock (n : ℕ) : ∀ (w : Worker) (toAck : ℕ),
    SameClock w (w.shiftFrom n toAck).1 := by
  induction n with
  | zero => exact fun w _ => .refl w
  | succ n ih =>
    intro w toAck
    rw [Worker.shiftFrom]
    split
    · exact (completePkt_sameClock w _).trans (ih _ _)
    · exact .refl w

theorem shiftAck_sameClock (w : Worker) : SameClock w w.shiftAck.1 := by
  obtain ⟨hack, hprev, hts, hlast⟩ := shiftFrom_sameClock maxWinLen w w.window.toAck
  exact ⟨hack, hprev, hts, hlast⟩

theorem genPkt_counts (w : Worker) (position : ℕ) :
    (w.genPkt position).1.ackCnt = w.ackCnt ∧ (w.genPkt position).1.prevAckCnt = w.prevAckCnt := by
  unfold Worker.genPkt
  split
  · exact ⟨rfl, rfl⟩
  · unfold Worker.nextSubOp
    cases w.qp.frontReq with
    | none => exact ⟨rfl, rfl⟩
    | some ptr =>
      dsimp only
      by_cases hmix : w.currentGroupId ≠ (w.subOp ptr).op.group.groupId ∧ w.window.txEmpty = false
      · rw [if_pos hmix]
        exact ⟨rfl, rfl⟩
      · rw [if_neg hmix]
        exact ⟨rfl, rfl⟩

theorem sendOne_counts (w : Worker) (toSend winLen expectWinLen : ℕ) :
    (w.sendOne toSend winLen expectWinLen).1.ackCnt = w.ackCnt ∧
      (w.sendOne toSend winLen expectWinLen).1.prevAckCnt = w.prevAckCnt := by
  have hcounts := genPkt_counts w toSend
  rw [Worker.sendOne]
  split
  · split
    · rename_i hgen
      rw [hgen] at hcounts
      exact hcounts
    · rename_i hgen
      rw [hgen] at hcounts
      exact hcounts
  · exact ⟨rfl, rfl⟩

theorem congestionControl_counts (w : Worker) : w.congestionControl.ackCnt = w.ackCnt ∧
    w.congestionControl.prevAckCnt = w.prevAckCnt := by
  unfold Worker.congestionControl
  dsimp only
  split
  · exact ⟨rfl, rfl⟩
  split
  · exact ⟨rfl, rfl⟩
  split
  · split <;> exact ⟨rfl, rfl⟩
  · exact ⟨rfl, rfl⟩

/-- `full_retrans` counts nothing. -/
theorem startTx_counts (w : Worker) :
    w.startTx.1.ackCnt = w.ackCnt ∧ w.startTx.1.prevAckCnt = w.ackCnt := by
  have hnoted : (if w.ackCnt ≠ w.prevAckCnt then
      { w with prevAckCnt := w.ackCnt
               window := { w.window with lastAckTimeStamp := w.globalTs } }
    else w).Noted := by
    split
    · exact rfl
    · rename_i hne
      exact (not_not.mp hne).symm
  obtain ⟨cnt, ts, heq⟩ := startTx_noted w
  rw [Worker.startTx]
  dsimp only
  rw [heq] at hnoted ⊢
  split
  · obtain ⟨ts', cc, hfull, -⟩ :=
      fullRetrans_spec { w with prevAckCnt := cnt, window := { w.window with lastAckTimeStamp := ts } }
    rw [hfull]
    exact ⟨rfl, hnoted⟩
  · exact ⟨rfl, hnoted⟩

/-- Nothing is left to note while the thread is by itself. -/
theorem Run.Step.noted {l : Label} (hstep : r.Step l r') (hl : l.Thread) (h : r.worker.Noted) :
    r'.worker.Noted := by
  obtain ⟨events, hw, -⟩ := hstep
  have hcounts : ∀ x : Worker, x.ackCnt = r.worker.ackCnt ∧ x.prevAckCnt = r.worker.prevAckCnt →
      x.Noted := fun x hx => (hx.2.trans h).trans hx.1.symm
  have hworker : ∀ x : Worker × List Event, some x = some (r'.worker, events) → x.1.Noted →
      r'.worker.Noted := by
    intro x hx hnoted
    rw [Option.some.inj hx] at hnoted
    exact hnoted
  cases l with
  | loopTop ts =>
    rw [Worker.step] at hw
    split at hw
    · exact hworker _ hw h
    · cases hw
  | endRx =>
    rw [Worker.step] at hw
    split at hw
    · obtain ⟨hack, hprev, -, -⟩ := shiftAck_sameClock r.worker
      exact hworker ({ r.worker.shiftAck.1 with pc := .tx }, r.worker.shiftAck.2) hw
        (hcounts _ ⟨hack, hprev⟩)
    · cases hw
  | startTx =>
    rw [Worker.step] at hw
    split at hw
    · have hst := startTx_counts r.worker
      exact hworker _ hw (hst.2.trans hst.1.symm)
    · cases hw
  | sendOne =>
    rw [Worker.step] at hw
    split at hw
    · exact hworker _ hw (hcounts _ (sendOne_counts r.worker _ _ _))
    · cases hw
  | congestion =>
    rw [Worker.step] at hw
    split at hw
    · exact hworker _ hw (hcounts _ (congestionControl_counts r.worker))
    · cases hw
  | receive _ | pushReq _ | popResp | store _ _ => exact hl.elim

theorem Run.Rounds.noted (h : r.Rounds r') (hr : r.worker.Noted) : r'.worker.Noted :=
  h.invariant (P := fun x => x.worker.Noted) (fun _ he => he ▸ hr)
    fun _ _ _ hx hl hstep => hstep.noted hl hx

/-- The thread is about to run into the timeout. -/
structure Worker.TimedOut (w : Worker) : Prop where
  pc : w.pc = .tx
  noted : w.Noted
  late : timeoutTime ≤ w.globalTs - w.window.lastAckTimeStamp

theorem Run.Rounds.endRx (h : r.Rounds r') (hpc : r'.worker.pc = .rx) :
    ∃ x, r.Rounds x ∧ x.worker.pc = .tx ∧ SameClock r'.worker x.worker := by
  have hclock := shiftAck_sameClock r'.worker
  have hstep : r'.worker.step .endRx =
      some ({ r'.worker.shiftAck.1 with pc := .tx }, r'.worker.shiftAck.2) := by
    rw [Worker.step, if_pos hpc]
  exact ⟨_, h.one (l := .endRx) trivial hstep, rfl, hclock.ackCnt, hclock.prevAckCnt,
    hclock.globalTs, hclock.lastAck⟩

/-- **The timeout comes.**  It takes two rounds: the first takes note of the last response. -/
theorem Run.timeout (r : Run) : ∃ r', r.Rounds r' ∧ r'.worker.TimedOut := by
  obtain ⟨r₁, h₁, hpc₁⟩ := Run.Rounds.rx (r := r) (.init rfl)
  obtain ⟨r₂, h₂, hpc₂, -⟩ := h₁.endRx hpc₁
  obtain ⟨r₃, h₃, hnoted⟩ : ∃ x, r.Rounds x ∧ x.worker.Noted := by
    have hcounts := startTx_counts r₂.worker
    exact ⟨_, h₂.one (l := .startTx) trivial (by rw [Worker.step, if_pos hpc₂]),
      hcounts.2.trans hcounts.1.symm⟩
  obtain ⟨r₄, h₄, hpc₄⟩ := Run.Rounds.top (r := r₃) (.init rfl)
  have hnoted₄ := h₄.noted hnoted
  have hr₄ : r.Rounds r₄ := h₃.trans h₄
  -- the clock shows the timeout, and `shift_ack` does not set it back
  have hr₅ := hr₄.one (l := .loopTop (r₄.worker.window.lastAckTimeStamp + timeoutTime)) trivial
    (by rw [Worker.step, if_pos hpc₄])
  obtain ⟨r₆, h₆, hpc₆, hack, hprev, hts, hlast⟩ := hr₅.endRx rfl
  refine ⟨r₆, h₆, hpc₆, hprev.trans (hnoted₄.trans hack.symm), ?_⟩
  rw [hts, hlast]
  dsimp only
  rw [BitVec.add_comm, BitVec.add_sub_cancel]
  exact BitVec.le_refl _

/-- The timeout sends the whole window again. -/
theorem Worker.TimedOut.resends (h : w.TimedOut) (hopen : w.window.txEmpty = false) :
    w.startTx.2 = w.window.transmitUnacked w.window.toAck w.window.toSend := by
  rw [Worker.startTx]
  dsimp only
  rw [if_neg (not_not.mpr h.noted.symm), if_pos h.late, Worker.fullRetrans, if_neg (by rw [hopen]; simp)]

/-- **What has no response is sent again.** -/
theorem InWindow.resent (h : InWindow r acc) (ht : r.worker.TimedOut) {j : ℕ} {p : PktState}
    (hj : completed r.log ≤ j) (hp : (built r.log)[j]? = some p) (hack : j ∉ acc) :
    .sent (j % maxWinLen) p.pkt ∈ r.worker.startTx.2 := by
  have hlt := (List.getElem?_eq_some_iff.mp hp).1
  have hbound := h.holds.bound
  have hle := h.holds.le
  have hout : r.worker.pc.Outside := by
    intro _ _ _ he
    rw [ht.pc] at he
    cases he
  have hsend := h.sendPos
  rw [Worker.sendPos_outside hout] at hsend
  have hopen : r.worker.window.txEmpty = false := by
    rw [Bool.eq_false_iff]
    intro hempty
    have heq := (Window.txEmpty_iff _ hle hbound h.holds.toAck hsend).mp hempty
    omega
  have hstate := h.holds.state j p hj hp
  have hwalk : j % maxWinLen ∈ walk maxWinLen r.worker.window.toAck r.worker.window.toSend := by
    rw [h.holds.toAck, hsend, walk_mod _ _ _ hle (by simp only [maxWinLen] at *; omega)
      (by simp only [maxWinLen] at *; omega)]
    exact List.mem_map_of_mem (List.mem_range'_1.mpr ⟨hj, by omega⟩)
  rw [ht.resends hopen]
  refine List.mem_map.mpr ⟨j % maxWinLen, List.mem_filter.mpr ⟨hwalk, ?_⟩, ?_⟩
  · rw [Window.hasAcked, hstate]
    simp [hack]
  · rw [Window.transmit, hstate]

/-! ## 3. The window shifts -/

theorem completePkt_window (w : Worker) (p : PktState) : (w.completePkt p).1.window = w.window := by
  rw [Worker.completePkt]
  split
  · split <;> rfl
  · rfl

/-- The loop of `shift_ack` goes on to the first packet that is not acked, if it has the rounds. -/
theorem shiftFrom_stops (n : ℕ) : ∀ (w : Worker) (i j : ℕ), i ≤ j → j < i + maxWinLen →
    j - i ≤ n → w.window.toSend = j % maxWinLen →
    (w.shiftFrom n (i % maxWinLen)).2.1 = w.window.toSend ∨
      w.window.hasAcked (w.shiftFrom n (i % maxWinLen)).2.1 = false := by
  induction n with
  | zero =>
    intro w i j hij _ hn hsend
    obtain rfl : i = j := by omega
    exact Or.inl hsend.symm
  | succ n ih =>
    intro w i j hij hlap hn hsend
    rw [Worker.shiftFrom]
    split
    · rename_i hgo
      have hne : i ≠ j := by
        rintro rfl
        simp [hsend] at hgo
      have hwindow := completePkt_window w (w.window.state (i % maxWinLen))
      generalize w.completePkt (w.window.state (i % maxWinLen)) = out at *
      obtain ⟨w₁, events⟩ := out
      dsimp only at hwindow ⊢
      rw [nextPosition_mod, ← hwindow]
      exact ih w₁ (i + 1) j (by omega) (by omega) (by omega) (by rw [hwindow]; exact hsend)
    · rename_i hstop
      by_cases hend : i % maxWinLen = w.window.toSend
      · exact Or.inl hend
      · right
        simpa [hend] using hstop

theorem shiftFrom_window (n : ℕ) : ∀ (w : Worker) (toAck : ℕ),
    (w.shiftFrom n toAck).1.window = w.window := by
  induction n with
  | zero => exact fun _ _ => rfl
  | succ n ih =>
    intro w toAck
    rw [Worker.shiftFrom]
    split
    · exact (ih _ _).trans (completePkt_window w _)
    · rfl

/-- After `shift_ack` the window is empty, or begins with a packet that is not acked. -/
theorem InWindow.endRx_stops (h : InWindow r acc) (hstep : r.Step .endRx r') :
    r'.worker.pc = .tx ∧ (r'.worker.window.toAck = r'.worker.window.toSend ∨
      r'.worker.window.hasAcked r'.worker.window.toAck = false) := by
  obtain ⟨events, hw, -⟩ := hstep
  rw [Worker.step] at hw
  split at hw
  swap
  · cases hw
  rename_i hpc
  have hsend := h.sendPos
  rw [Worker.sendPos_outside (by rw [hpc]; simp [Pc.Outside])] at hsend
  have hbound := h.holds.bound
  have hlap : maxWinLen = 1024 := rfl
  have hstop := shiftFrom_stops maxWinLen r.worker (completed r.log) (built r.log).length h.holds.le
    (by omega) (by omega) hsend
  have hwindow := shiftFrom_window maxWinLen r.worker r.worker.window.toAck
  rw [← h.holds.toAck] at hstop
  have hworker : ({ r.worker.shiftAck.1 with pc := .tx } : Worker) = r'.worker :=
    congrArg Prod.fst (Option.some.inj hw)
  rw [← hworker]
  refine ⟨rfl, ?_⟩
  unfold Worker.shiftAck
  generalize r.worker.shiftFrom maxWinLen r.worker.window.toAck = out at *
  obtain ⟨w₁, toAck, events'⟩ := out
  dsimp only at hwindow hstop ⊢
  unfold Window.hasAcked at hstop ⊢
  dsimp only
  rw [hwindow]
  exact hstop

/-- **What is acked, without a gap, is shifted out.** -/
theorem Inv.shifts {k sent popped b : ℕ} (h : Inv ctx r k sent popped acc)
    (hstep : r.Step .endRx r') (hb : b ≤ (built r.log).length)
    (hack : ∀ j < b, r.Acked j) : b ≤ completed r'.log := by
  obtain ⟨hin, -, hbuilt, -⟩ := h.window.endRx h.cursor h.room hstep
  obtain ⟨hpc, hstop⟩ := h.window.endRx_stops hstep
  have hsend := hin.sendPos
  rw [Worker.sendPos_outside (by rw [hpc]; simp [Pc.Outside])] at hsend
  by_contra hlt
  have hnext : completed r'.log < b := Nat.lt_of_not_le hlt
  rcases hstop with hempty | hunacked
  · have hall := (Window.txEmpty_iff _ hin.holds.le hin.holds.bound hin.holds.toAck hsend).mp
      (by rw [Window.txEmpty, hempty]; exact beq_self_eq_true _)
    rw [hbuilt] at hall
    omega
  · have hlen : completed r'.log < (built r'.log).length := by
      rw [hbuilt]
      omega
    have hstate := hin.holds.state _ _ (Nat.le_refl _) (List.getElem?_eq_getElem hlen)
    have hacked := h.window.acked_iff.mp (hack _ hnext)
    rw [Window.hasAcked, hin.holds.toAck, hstate] at hunacked
    simp [hacked] at hunacked

/-! ## 4. In the numbers of a group -/

variable {g : BitVec 8} {q aggLen : ℕ} {p : PktState}

/-- A packet of a group that has no response is in the window. -/
theorem InWindow.waiting (h : InWindow r acc) (hq : (r.builtIn g)[q]? = some p)
    (hack : ¬ r.AckedIn g q) : ∃ j, completed r.log ≤ j ∧ (built r.log)[j]? = some p ∧ j ∉ acc ∧
      p.pkt.inc.groupId = g ∧ within (ofGroup g) (built r.log) j = q := by
  obtain ⟨j, hj, hg, hnum⟩ := exists_of_filter hq
  have hg := ofGroup_iff.mp hg
  have hun : ¬ r.Acked j := fun hacked => hack ⟨j, p, hj, hg, hnum, hacked⟩
  exact ⟨j, Nat.le_of_not_lt fun hlt => hun (Or.inl hlt), hj, fun hmem => hun (h.acked_iff.mpr hmem),
    hg, hnum⟩

/-- The timeout sends it again, under its number. -/
theorem InWindow.resentIn (h : InWindow r acc) (ht : r.worker.TimedOut)
    (hq : (r.builtIn g)[q]? = some p) (hack : ¬ r.AckedIn g q) :
    ∃ pos, .sent pos p.pkt ∈ r.worker.startTx.2 ∧ r.numberIn g pos = q := by
  obtain ⟨j, hj, hp, hun, -, hnum⟩ := h.waiting hq hack
  have hbound := h.holds.bound
  have hlap : maxWinLen = 1024 := rfl
  have hlt := (List.getElem?_eq_some_iff.mp hp).1
  refine ⟨j % maxWinLen, h.resent ht hj hp hun, ?_⟩
  rw [Run.numberIn, numberAt_mod hlt (by omega), hnum]

/-- Its response is accepted. -/
theorem InWindow.acceptsIn (h : InWindow r acc) (hpc : r.worker.pc = .rx)
    (hq : (r.builtIn g)[q]? = some p) (hack : ¬ r.AckedIn g q) (hinc : p.pkt.inc.psn = p.psn)
    {f : Frame} (hf : f.inc = p.pkt.inc) : ∃ pos events,
      (r.worker.rxProcessOne f).2 = .accepted pos { p with acked := true } f :: events := by
  obtain ⟨j, hj, hp, hun, hg, -⟩ := h.waiting hq hack
  have hout : r.worker.pc.Outside := by rw [hpc]; simp [Pc.Outside]
  have hlt := (List.getElem?_eq_some_iff.mp hp).1
  have hstate := h.holds.state j p hj hp
  rw [decide_eq_false hun] at hstate
  -- the frame is located at the packet
  have hslot : r.worker.window.slot (j - completed r.log) = j % maxWinLen := by
    rw [h.slot_eq, Nat.add_sub_cancel' hj]
  have hpos : r.worker.getPosition f = j % maxWinLen := by
    rw [← hslot]
    refine h.found hout (by rw [h.len_eq hout]; omega) ⟨?_, ?_⟩
    · rw [Window.pktAt, hslot, hstate, hf]
    · rw [Window.pktAt, hslot, hstate, hf]
      exact hinc.symm
  have hvalid : j % maxWinLen ≠ invalidPosition := by
    have hmod : j % maxWinLen < 1024 := Nat.mod_lt _ (by decide)
    have hinv : invalidPosition = 2 ^ 32 - 1 := rfl
    omega
  have hacked : r.worker.window.hasAcked (j % maxWinLen) = false := by
    rw [Window.hasAcked, hstate]
  obtain ⟨w, hwindow, hrx⟩ : ∃ w : Worker, w.window = r.worker.window ∧
      r.worker.rxProcessOne f = w.acceptAt (j % maxWinLen) f := by
    refine ⟨{ r.worker with tosMinitor := r.worker.tosMinitor ||| f.typeOfService }, rfl, ?_⟩
    rw [← hpos] at hvalid hacked ⊢
    exact if_neg (by rw [Bool.or_eq_true, decide_eq_true_eq, not_or]; exact ⟨hvalid, by
      change ¬ r.worker.window.hasAcked (r.worker.getPosition f) = true
      rw [hacked]
      simp⟩)
  rw [Window.hasAcked, ← hwindow] at hacked
  obtain ⟨-, -, -, resent, -, hevents⟩ := acceptAt_spec w hacked f
  rw [Window.ackedAt, hwindow, hstate] at hevents
  rw [hrx]
  exact ⟨_, _, hevents⟩

/-- **What a group has acked, without a gap, is shifted out.**  No packet of another group stands
in the way: the window has none. -/
theorem Serving.shiftsIn {n : ℕ} (h : Serving ctx aggLen r) (hstep : r.Step .endRx r')
    (hn : n ≤ (r.builtIn g).length) (hack : ∀ q < n, r.AckedIn g q) : n ≤ r'.completedIn g := by
  obtain ⟨k, sent, popped, acc, hinv⟩ := h.inv
  obtain ⟨-, hle, hbuilt, -⟩ := hinv.window.endRx hinv.cursor hinv.room hstep
  unfold Run.completedIn
  rw [hbuilt]
  cases n with
  | zero => exact Nat.zero_le _
  | succ n =>
    obtain ⟨j, hj, hg, hnum⟩ := exists_of_filter (List.getElem?_eq_getElem (Nat.lt_of_succ_le hn))
    have hnext := within_succ (p := ofGroup g) hj
    rw [if_pos hg, hnum] at hnext
    rw [← hnext]
    refine within_mono ?_
    rcases Nat.lt_or_ge j (completed r.log) with hlt | hge
    · exact Nat.le_trans hlt hle
    have hwindow := hinv.window.group j _ hge hj
    refine hinv.shifts hstep (List.getElem?_eq_some_iff.mp hj).1 fun x hx => ?_
    rcases Nat.lt_or_ge x (completed r.log) with hlt | hge'
    · exact Or.inl hlt
    have hxj : x ≤ j := Nat.le_of_lt_succ hx
    have hxlt : x < (built r.log).length :=
      Nat.lt_of_le_of_lt hxj (List.getElem?_eq_some_iff.mp hj).1
    have hget := List.getElem?_eq_getElem hxlt
    have hgx : ofGroup g (built r.log)[x] = true := ofGroup_iff.mpr
      ((hinv.window.group x _ hge' hget).trans (hwindow.symm.trans (ofGroup_iff.mp hg)))
    obtain ⟨y, py, hy, hgy, hnumy, hacked⟩ := hack (within (ofGroup g) (built r.log) x) (by
      rw [← hnum]
      exact Nat.lt_succ_of_le (within_mono hxj))
    obtain rfl := within_inj hy (ofGroup_iff.mpr hgy) hget hgx hnumy
    exact hacked

end NetCCL.Backend
