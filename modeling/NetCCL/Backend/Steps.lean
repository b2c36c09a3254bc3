/-
# The steps of a worker, and what holds throughout its runs

`step_cases` says once what a step can do.  `Inv` puts together the place in the stream
(`Cursor`), the window (`InWindow`) and the queue of answers (`Answered`), and `inv_reach` is
the run lemma: in every run that never turns to another group with packets out, `Inv` holds
in every state, with no assertion failed.

`Inv.sends` says what a step hands to the NIC, in the words of `Inv`.
-/
import NetCCL.Backend.Window

namespace NetCCL.Backend

open Lib

/-! ## 1. What a step can do -/

/-- **The cases of a step** of a run whose cursor is at sub-op `k`, with its events. -/
inductive StepCase (r r' : Run) (k : ℕ) : Label → List Event → Prop
  | quiet {l : Label} : SameWindow r.worker r'.worker → r'.worker.heap = r.worker.heap →
      r'.worker.qp = r.worker.qp → r'.worker.assertFailed = r.worker.assertFailed →
      ((∀ addr b, l ≠ .store addr b) → r'.worker.mem = r.worker.mem) → StepCase r r' k l []
  | pushReq {s : SubOp} : r.worker.qp.numInQueue ≠ queueSize → r'.worker = { r.worker with
      qp := { r.worker.qp with
        wq := r.worker.qp.wq ++ [r.worker.heap.length], numInQueue := r.worker.qp.numInQueue + 1 }
      heap := r.worker.heap ++ [s] } → StepCase r r' k (.pushReq s) []
  | popResp : r.worker.qp.cq ≠ [] → r'.worker = { r.worker with qp := r.worker.qp.popResp } →
      StepCase r r' k .popResp []
  | accept {f : Frame} {events : List Event} : r.worker.pc.Outside →
      r.worker.getPosition f ≠ invalidPosition →
      AcceptedAt r.worker r'.worker (r.worker.getPosition f) f events →
      StepCase r r' k (.receive f) events
  | endRx {events : List Event} : StepCase r r' k .endRx events
  | startTx {events : List Event} : r.worker.pc.Outside →
      r.worker.startTx = (r'.worker, events) →
      StepCase r r' k .startTx events
  | endTx {toSend winLen expectWinLen : ℕ} {events : List Event} :
      r.worker.pc = .send toSend winLen expectWinLen → r'.worker = r.worker.endTx toSend winLen →
      (∀ e ∈ events, e = .deref k ∧ k < r.worker.heap.length) → StepCase r r' k .sendOne events
  | sent {toSend winLen expectWinLen : ℕ} {p : PktState} {pre : List Event} :
      r.worker.pc = .send toSend winLen expectWinLen → winLen < expectWinLen →
      Sent r.worker r'.worker toSend winLen expectWinLen k p → Starting r.worker k pre →
      StepCase r r' k .sendOne (pre ++ [.deref k, .built toSend p, .sent toSend p.pkt])

/-- The rate control does not touch the window. -/
theorem congestionControl_quiet (w : Worker) : w.congestionControl.mem = w.mem ∧
    w.congestionControl.qp = w.qp ∧ w.congestionControl.assertFailed = w.assertFailed ∧
    w.congestionControl.window.toAck = w.window.toAck ∧
    w.congestionControl.window.toSend = w.window.toSend ∧
    w.congestionControl.window.state = w.window.state ∧
    w.congestionControl.window.leftPsn = w.window.leftPsn ∧
    w.congestionControl.window.rightPsn = w.window.rightPsn := by
  simp only [Worker.congestionControl, Worker.adjustRate]
  split
  · exact ⟨rfl, rfl, rfl, rfl, rfl, rfl, rfl, rfl⟩
  split
  · exact ⟨rfl, rfl, rfl, rfl, rfl, rfl, rfl, rfl⟩
  split
  · split <;> exact ⟨rfl, rfl, rfl, rfl, rfl, rfl, rfl, rfl⟩
  · exact ⟨rfl, rfl, rfl, rfl, rfl, rfl, rfl, rfl⟩

theorem step_cases {ctx : BitVec 8 → BitVec 32} {r r' : Run} {k sent : ℕ} {l : Label}
    (hc : Cursor ctx r k sent) (hstep : r.Step l r') :
    ∃ events, r'.log = r.log ++ events ∧ StepCase r r' k l events := by
  have hstep' := hstep
  obtain ⟨events, hw, hlog⟩ := hstep
  cases l with
  | loopTop ts =>
    by_cases hpc : r.worker.pc = .top
    · simp only [Worker.step, if_pos hpc] at hw
      obtain ⟨hr, rfl⟩ := Prod.mk.inj (Option.some.inj hw)
      refine ⟨[], hlog, .quiet ?_ ?_ ?_ ?_ fun _ => ?_⟩ <;> rw [← hr]
      exact ⟨rfl, by rw [Worker.sendPos, Worker.sendPos, hpc], rfl, rfl, rfl, rfl, rfl,
        Or.inr ⟨fun _ _ _ he => by simp at he, fun _ _ _ he => by simp [hpc] at he⟩⟩
    · exact absurd hw (by simp [Worker.step, hpc])
  | receive f =>
    by_cases hpc : r.worker.pc = .rx
    · simp only [Worker.step, if_pos hpc] at hw
      have hout : r.worker.pc.Outside := by
        intro _ _ _ he
        simp [hpc] at he
      rcases rxProcessOne_cases r.worker f with ⟨tos, hr⟩ | ⟨hpos, hat⟩
      · rw [hr] at hw
        obtain ⟨hr, rfl⟩ := Prod.mk.inj (Option.some.inj hw)
        refine ⟨[], hlog, .quiet ?_ ?_ ?_ ?_ fun _ => ?_⟩ <;> rw [← hr]
        exact ⟨rfl, rfl, rfl, rfl, rfl, rfl, rfl, Or.inl rfl⟩
      · rw [Option.some.inj hw] at hat
        exact ⟨events, hlog, .accept hout hpos hat⟩
    · exact absurd hw (by simp [Worker.step, hpc])
  | endRx => exact ⟨events, hlog, .endRx⟩
  | startTx =>
    by_cases hpc : r.worker.pc = .tx
    · simp only [Worker.step, if_pos hpc] at hw
      have hout : r.worker.pc.Outside := by
        intro _ _ _ he
        simp [hpc] at he
      exact ⟨events, hlog, .startTx hout (Option.some.inj hw)⟩
    · exact absurd hw (by simp [Worker.step, hpc])
  | sendOne =>
    cases hpc : r.worker.pc with
    | send toSend winLen expectWinLen =>
      rcases hc.sendOne hpc hstep' with ⟨ev, hlog', hr, hev, -⟩ |
        ⟨p, pre, _, _, hlt, hpre, hs, hlog', -⟩
      · exact ⟨ev, hlog', .endTx hpc hr hev⟩
      · exact ⟨_, hlog', .sent hpc hlt hs hpre⟩
    | _ => exact absurd hw (by simp [Worker.step, hpc])
  | congestion =>
    by_cases hpc : r.worker.pc = .cc
    · simp only [Worker.step, if_pos hpc] at hw
      obtain ⟨hr, rfl⟩ := Prod.mk.inj (Option.some.inj hw)
      obtain ⟨hmem, hqp, hok, hack, hsend, hstate, hleft, hright⟩ :=
        congestionControl_quiet r.worker
      have hq := congestionControl_sameQueue r.worker
      refine ⟨[], hlog, .quiet ?_ ?_ ?_ ?_ fun _ => ?_⟩ <;> rw [← hr]
      · refine ⟨hack, ?_, hstate, hleft, hright, hq.group, ?_,
          Or.inr ⟨fun _ _ _ he => by simp at he, fun _ _ _ he => by simp [hpc] at he⟩⟩
        · rw [Worker.sendPos, Worker.sendPos, hpc]
          exact hsend
        · simp only [Worker.nextPsn, hq.gen, hq.groupCtx, hq.group]
      · exact hq.heap
      · exact hqp
      · exact hok
      · exact hmem
    · exact absurd hw (by simp [Worker.step, hpc])
  | pushReq s =>
    obtain ⟨rfl, hroom, hr⟩ := step_pushReq hw
    exact ⟨[], hlog, .pushReq hroom hr⟩
  | popResp =>
    simp only [Worker.step] at hw
    cases hfront : r.worker.qp.frontResp with
    | none => exact absurd hw (by simp [hfront])
    | some ptr =>
      simp only [hfront] at hw
      obtain ⟨hr, rfl⟩ := Prod.mk.inj (Option.some.inj hw)
      refine ⟨[], hlog, .popResp (fun hnil => ?_) hr.symm⟩
      rw [QueuePair.frontResp, hnil] at hfront
      exact absurd hfront (by simp)
  | store addr b =>
    obtain ⟨hr, rfl⟩ := Prod.mk.inj (Option.some.inj hw)
    refine ⟨[], hlog, .quiet ?_ ?_ ?_ ?_ fun hne => absurd rfl (hne addr b)⟩ <;> rw [← hr]
    exact ⟨rfl, rfl, rfl, rfl, rfl, rfl, rfl, Or.inl rfl⟩

/-! ## 2. The invariant of a run -/

/-- The answers pushed are the sub-ops whose last packet is shifted out, and the load balancer
has popped the first `popped` of them. -/
structure Answered (r : Run) (popped : ℕ) : Prop where
  answers : pushed r.log = ((built r.log).take (completed r.log)).filterMap PktState.lastOf
  cq : r.worker.qp.cq = (pushed r.log).drop popped
  le : popped ≤ (pushed r.log).length
  numInQueue : r.worker.qp.numInQueue + popped = r.worker.heap.length
  room : r.worker.qp.numInQueue ≤ queueSize
  ok : r.worker.assertFailed = false

/-- **The invariant**: `k` sub-ops and `sent` packets more are built, `acc` are acked, and
`popped` answers are taken. -/
structure Inv (ctx : BitVec 8 → BitVec 32) (r : Run) (k sent popped : ℕ) (acc : List ℕ) : Prop where
  cursor : Cursor ctx r k sent
  window : InWindow r acc
  answered : Answered r popped

variable {ctx : BitVec 8 → BitVec 32} {r r' : Run} {k sent popped : ℕ} {acc : List ℕ}

theorem Inv.init (h : r.Init ctx) : Inv ctx r 0 0 0 [] := by
  refine ⟨.init h, .init h, ?_⟩
  obtain ⟨⟨mem, pkt, hw⟩, hlog⟩ := h
  constructor <;> simp [hw, hlog, Worker.init, QueuePair.empty, built, completed, pushed]

/-- A step that pushes no answer and shifts nothing out. -/
theorem Answered.same (h : Answered r popped) (hpush : pushed r'.log = pushed r.log)
    (htake : (built r'.log).take (completed r'.log) = (built r.log).take (completed r.log))
    (hheap : r'.worker.heap = r.worker.heap) (hcq : r'.worker.qp.cq = r.worker.qp.cq)
    (hnum : r'.worker.qp.numInQueue = r.worker.qp.numInQueue)
    (hok : r'.worker.assertFailed = r.worker.assertFailed) : Answered r' popped := by
  refine ⟨?_, ?_, ?_, ?_, ?_, ?_⟩
  · rw [hpush, htake]; exact h.answers
  · rw [hcq, hpush]; exact h.cq
  · rw [hpush]; exact h.le
  · rw [hnum, hheap]; exact h.numInQueue
  · rw [hnum]; exact h.room
  · rw [hok]; exact h.ok

theorem Still.answered {events : List Event} (hq : Still events) (h : Answered r popped)
    (hlog : r'.log = r.log ++ events) (hheap : r'.worker.heap = r.worker.heap)
    (hcq : r'.worker.qp.cq = r.worker.qp.cq)
    (hnum : r'.worker.qp.numInQueue = r.worker.qp.numInQueue)
    (hok : r'.worker.assertFailed = r.worker.assertFailed) : Answered r' popped := by
  refine h.same ?_ ?_ hheap hcq hnum hok
  · rw [hlog, pushed_append, hq.pushed, List.append_nil]
  · rw [hlog, completed_append, hq.completed, built_append, hq.built, Nat.add_zero,
      List.append_nil]

/-- The last packets in the window still fit into the completion queue. -/
theorem Inv.room (h : Inv ctx r k sent popped acc) : r.worker.qp.cq.length +
    (((built r.log).drop (completed r.log)).filterMap PktState.lastOf).length ≤ queueSize := by
  have hlast := h.cursor.built_lastOf
  rw [← List.take_append_drop (completed r.log) (built r.log), List.filterMap_append,
    ← h.answered.answers] at hlast
  have hlen := congrArg List.length hlast
  rw [List.length_append, List.length_range] at hlen
  have hk := h.cursor.le
  have hnum := h.answered.numInQueue
  have hroom := h.answered.room
  have hpop := h.answered.le
  rw [h.answered.cq, List.length_drop]
  omega

theorem Inv.inc (h : Inv ctx r k sent popped acc) {p : PktState} (hp : p ∈ built r.log) :
    p.pkt.inc.psn = p.psn :=
  congrArg Switch.Netccl.psn (h.cursor.header p hp).2.2

/-- A step either turns to a sub-op of the group the window holds, or with an empty window. -/
theorem Inv.group_of_sent (h : Inv ctx r k sent popped acc) (hmix : ¬ Mixes r .sendOne)
    {toSend winLen expectWinLen : ℕ} (hpc : r.worker.pc = .send toSend winLen expectWinLen)
    (hlt : winLen < expectWinLen) {pre : List Event} (hpre : Starting r.worker k pre) :
    (r.worker.subOp k).op.group.groupId = r.worker.currentGroupId ∨ winLen = 0 := by
  cases hpre with
  | going hgen =>
    rcases h.cursor.statics with ⟨hnone, -⟩ | ⟨-, hst⟩
    · exact absurd (hnone.symm.trans hgen) (by simp)
    · exact Or.inl hst.group.symm
  | turned hgen hfront hgroup =>
    by_cases h0 : winLen = 0
    · exact Or.inr h0
    rcases hgroup with hgroup | hempty
    · exact Or.inl hgroup.symm
    · by_cases hg : (r.worker.subOp k).op.group.groupId = r.worker.currentGroupId
      · exact Or.inl hg
      · exact absurd ⟨rfl, toSend, winLen, expectWinLen, k, hpc, hlt, h0, hgen, hfront, hg, hempty⟩
          hmix

/-- **Every step but the slip keeps the invariant**, and a received frame acks at most one
packet. -/
theorem Inv.step {l : Label} (h : Inv ctx r k sent popped acc) (hmix : ¬ Mixes r l)
    (hstep : r.Step l r') : ∃ k' sent' popped' acc', Inv ctx r' k' sent' popped' acc' ∧
      (acc' = acc ∨ ∃ j, completed r.log ≤ j ∧ j ∉ acc ∧ acc' = acc ++ [j]) := by
  obtain ⟨k', sent', hcur⟩ := h.cursor.step hstep
  obtain ⟨events, hlog, hcase⟩ := step_cases h.cursor hstep
  have hle := h.window.holds.le
  cases hcase with
  | quiet hs hheap hqp hok =>
    refine ⟨k', sent', popped, acc, ⟨hcur, h.window.same hs .nil hlog, ?_⟩, Or.inl rfl⟩
    exact Still.nil.answered h.answered hlog hheap (by rw [hqp]) (by rw [hqp]) hok
  | pushReq hroom hr =>
    refine ⟨k', sent', popped, acc, ⟨hcur, h.window.same ?_ .nil hlog, ?_⟩, Or.inl rfl⟩
    · rw [hr]
      exact ⟨rfl, rfl, rfl, rfl, rfl, rfl, rfl, Or.inl rfl⟩
    · rw [List.append_nil] at hlog
      have hnum := h.answered.numInQueue
      have hroom' := h.answered.room
      refine ⟨?_, ?_, ?_, ?_, ?_, ?_⟩
      · rw [hlog]; exact h.answered.answers
      · rw [hlog, hr]; exact h.answered.cq
      · rw [hlog]; exact h.answered.le
      · rw [hr]
        simp only [List.length_append, List.length_singleton]
        omega
      · rw [hr]
        simp only
        omega
      · rw [hr]; exact h.answered.ok
  | popResp hne hr =>
    refine ⟨k', sent', popped + 1, acc, ⟨hcur, h.window.same ?_ .nil hlog, ?_⟩, Or.inl rfl⟩
    · rw [hr]
      exact ⟨rfl, rfl, rfl, rfl, rfl, rfl, rfl, Or.inl rfl⟩
    · rw [List.append_nil] at hlog
      have hcq := h.answered.cq
      have hlen : popped < (pushed r.log).length := by
        rcases Nat.lt_or_ge popped (pushed r.log).length with hlt | hge
        · exact hlt
        · exact absurd (hcq.trans (List.drop_eq_nil_of_le hge)) hne
      have hpushed : (pushed r.log).length ≤ k := by
        have hlast := congrArg List.length h.cursor.built_lastOf
        rw [List.length_range] at hlast
        rw [h.answered.answers, ← hlast]
        exact ((List.take_prefix _ _).filterMap _).length_le
      have hk := h.cursor.le
      have hnum := h.answered.numInQueue
      have hroom := h.answered.room
      refine ⟨?_, ?_, ?_, ?_, ?_, ?_⟩
      · rw [hlog]; exact h.answered.answers
      · rw [hlog, hr]
        simp only [QueuePair.popResp, hcq, List.tail_drop]
      · rw [hlog]; exact hlen
      · rw [hr]
        simp only [QueuePair.popResp]
        omega
      · rw [hr]
        simp only [QueuePair.popResp]
        omega
      · rw [hr]; exact h.answered.ok
  | @accept f _ hpc hpos hat =>
    obtain ⟨j, hj, hnew, hwin⟩ := h.window.acceptedAt hpc hpos hat hlog
    refine ⟨k', sent', popped, acc ++ [j], ⟨hcur, hwin, ?_⟩, Or.inr ⟨j, hj, hnew, rfl⟩⟩
    obtain ⟨-, ⟨_, _, _, _, hr⟩, -, resent, hresent, hev⟩ := hat
    have hstill := (copyPayload_still r.worker
      (r.worker.window.ackedAt (r.worker.getPosition f)) f).append (still_sent fun e he => by
        obtain ⟨i, -, rfl⟩ := hresent e he
        exact ⟨i, _, rfl⟩)
    refine h.answered.same ?_ ?_ ?_ ?_ ?_ ?_
    · rw [hlog, pushed_append, hev]
      exact (congrArg _ hstill.pushed).trans (List.append_nil _)
    · have hb : built r'.log = built r.log := by
        rw [hlog, built_append, hev]
        exact (congrArg _ hstill.built).trans (List.append_nil _)
      have hc : completed r'.log = completed r.log := by
        rw [hlog, completed_append, hev]
        exact congrArg _ hstill.completed
      rw [hb, hc]
    all_goals rw [hr]
  | endRx =>
    obtain ⟨hwin, hcomp, hb, hqp, hheap, -, hok, _, hlog', -, hpush⟩ :=
      h.window.endRx h.cursor h.room hstep
    refine ⟨k', sent', popped, acc, ⟨hcur, hwin, ?_⟩, Or.inl rfl⟩
    have hsplit : (built r.log).take (completed r.log) ++
        ((built r.log).take (completed r'.log)).drop (completed r.log) =
        (built r.log).take (completed r'.log) := by
      have := List.take_append_drop (completed r.log) ((built r.log).take (completed r'.log))
      rwa [List.take_take, Nat.min_eq_left hcomp] at this
    have hp : pushed r'.log =
        ((built r.log).take (completed r'.log)).filterMap PktState.lastOf := by
      rw [← hsplit, List.filterMap_append, ← h.answered.answers, ← hpush, ← pushed_append, ← hlog']
    have hpr : pushed r.log <+: pushed r'.log := by
      rw [hp, h.answered.answers]
      exact (List.take_prefix_take_left hcomp).filterMap _
    refine ⟨by rw [hp, hb], ?_, Nat.le_trans h.answered.le hpr.length_le, ?_, ?_, ?_⟩
    · rw [hqp]
      dsimp only
      rw [h.answered.cq, ← List.drop_append_of_le_length h.answered.le, hp, h.answered.answers,
        ← List.filterMap_append, hsplit]
    · rw [hqp, hheap]; exact h.answered.numInQueue
    · rw [hqp]; exact h.answered.room
    · rw [hok]; exact h.answered.ok
  | startTx _ hr =>
    refine ⟨k', sent', popped, acc, ⟨hcur, h.window.startTx hstep, ?_⟩, Or.inl rfl⟩
    obtain ⟨_, _, _, _, hst, -, -, hev⟩ := startTx_spec r.worker
    rw [hr] at hst hev
    dsimp only at hst hev
    have hstill : Still events := still_sent fun e he => by
      obtain ⟨pos, -, rfl⟩ := hev e he
      exact ⟨pos, _, rfl⟩
    refine hstill.answered h.answered hlog ?_ ?_ ?_ ?_ <;> rw [hst]
  | endTx hpc hr hev =>
    have hstill : Still events := still_deref fun e he => ⟨k, (hev e he).1⟩
    refine ⟨k', sent', popped, acc,
      ⟨hcur, h.window.endTx hpc (fun p hp => h.inc hp) hr hstill hlog, ?_⟩, Or.inl rfl⟩
    refine hstill.answered h.answered hlog ?_ ?_ ?_ ?_ <;> rw [hr] <;> rfl
  | @sent _ _ _ _ pre hpc hlt hs hpre =>
    have hgroup := h.group_of_sent hmix hpc hlt hpre
    rw [← hs.group] at hgroup
    obtain ⟨hwin, hb, hcomp⟩ := h.window.sent hpc hlt hs hpre hgroup hlog
    refine ⟨k', sent', popped, acc, ⟨hcur, hwin, ?_⟩, Or.inl rfl⟩
    have hpre' : pushed pre = [] := by cases hpre <;> rfl
    refine h.answered.same ?_ ?_ hs.heap hs.cq hs.numInQueue hs.assertFailed
    · rw [hlog, pushed_append, pushed_append, hpre']
      exact List.append_nil _
    · rw [hb, hcomp, List.take_append_of_le_length h.window.holds.le]

/-- **The run lemma.** -/
theorem inv_reach (h : Reach (Run.Init ctx) Run.Step (fun r l => ¬ Mixes r l) r) :
    ∃ k sent popped acc, Inv ctx r k sent popped acc :=
  h.invariant (P := fun r => ∃ k sent popped acc, Inv ctx r k sent popped acc)
    (fun _ hi => ⟨0, 0, 0, [], .init hi⟩) fun _ _ _ ⟨_, _, _, _, hinv⟩ hmix hs => by
      obtain ⟨k', sent', popped', acc', hinv', -⟩ := hinv.step hmix hs
      exact ⟨k', sent', popped', acc', hinv'⟩

/-! ## 3. What a step sends -/

/-- A position the window holds a packet at shows that packet. -/
theorem InWindow.transmit (h : InWindow r acc) {j : ℕ} (hj : completed r.log ≤ j)
    (hlt : j < (built r.log).length) : ∃ p, (built r.log)[j]? = some p ∧
      r.worker.window.transmit (j % maxWinLen) = .sent (j % maxWinLen) p.pkt := by
  refine ⟨_, List.getElem?_eq_getElem hlt, ?_⟩
  rw [Window.transmit, h.holds.state j _ hj (List.getElem?_eq_getElem hlt)]

/-- **Only packets still in the window are sent**, the first time and again, from where they
stand. -/
theorem Inv.sends {l : Label} {events : List Event} (h : Inv ctx r k sent popped acc)
    (hstep : r.Step l r') (hlog : r'.log = r.log ++ events) {pos : ℕ} {f : Frame}
    (hf : .sent pos f ∈ events) :
    ∃ j p, completed r'.log ≤ j ∧ pos = j % maxWinLen ∧ (built r'.log)[j]? = some p ∧
      f = p.pkt := by
  obtain ⟨events', hlog', hcase⟩ := step_cases h.cursor hstep
  obtain rfl : events = events' := List.append_cancel_left (hlog.symm.trans hlog')
  have hbound := h.window.holds.bound
  cases hcase with
  | quiet => exact absurd hf List.not_mem_nil
  | pushReq => exact absurd hf List.not_mem_nil
  | popResp => exact absurd hf List.not_mem_nil
  | @accept g _ hpc hpos hat =>
    obtain ⟨j, p, hj, hget, hpj, -, -⟩ := h.window.getPosition hpc hpos
    have hlt := (List.getElem?_eq_some_iff.mp hget).1
    obtain ⟨_, -, -, hwin⟩ := h.window.acceptedAt hpc hpos hat hlog
    obtain ⟨-, ⟨_, _, _, _, hr⟩, -, resent, hresent, rfl⟩ := hat
    have hmem : Event.sent pos f ∈ resent := by
      rcases List.mem_append.mp ((List.mem_cons.mp hf).resolve_left (by simp)) with hf | hf
      · obtain ⟨_, -, ⟨hev, -⟩ | ⟨_, -, hev⟩⟩ := copyPayload_cases r.worker
          (r.worker.window.ackedAt (r.worker.getPosition g)) g <;> rw [hev] at hf <;> simp at hf
      · exact hf
    have hstill := (copyPayload_still r.worker
      (r.worker.window.ackedAt (r.worker.getPosition g)) g).append (still_sent fun e he => by
        obtain ⟨i, -, rfl⟩ := hresent e he
        exact ⟨i, _, rfl⟩)
    have hb : built r'.log = built r.log := by
      rw [hlog, built_append]
      exact (congrArg _ hstill.built).trans (List.append_nil _)
    have hc : completed r'.log = completed r.log := by
      rw [hlog, completed_append]
      exact congrArg _ hstill.completed
    obtain ⟨i, hi, he⟩ := hresent _ hmem
    have hack : r'.worker.window.toAck = completed r.log % maxWinLen := by
      rw [hr]; exact h.window.holds.toAck
    obtain ⟨m, rfl⟩ := Nat.exists_eq_add_of_le hj
    have hm : m < maxWinLen := by
      simp only [maxWinLen] at *
      omega
    obtain ⟨i₀, hi₀, hi₀', -, -, hcol⟩ := r'.worker.window.collectFrom_mod hack m hm
    rw [hpj, hcol _ (Nat.le_of_lt hm), walk_mod _ _ _ hi₀' (by simp only [maxWinLen] at *; omega)
      (by simp only [maxWinLen] at *; omega)] at hi
    obtain ⟨i', hi', rfl⟩ := List.mem_map.mp hi
    rw [List.mem_range'_1] at hi'
    obtain ⟨q, hq, htr⟩ := hwin.transmit (j := i') (by omega) (by rw [hb]; omega)
    rw [htr] at he
    obtain ⟨hpos', hf'⟩ := Event.sent.inj he
    exact ⟨i', q, by rw [hc]; omega, hpos', hq, hf'⟩
  | endRx =>
    obtain ⟨-, -, -, -, -, -, -, events', hlog', hdone, -⟩ := h.window.endRx h.cursor h.room hstep
    obtain rfl : events = events' := List.append_cancel_left (hlog.symm.trans hlog')
    obtain ⟨_, he⟩ | ⟨_, he⟩ := hdone _ hf <;> simp at he
  | startTx hpc hr =>
    obtain ⟨_, _, _, _, hst, -, -, hev⟩ := startTx_spec r.worker
    rw [hr] at hst hev
    obtain ⟨i, hi, he⟩ := hev _ hf
    have hsend := h.window.sendPos
    rw [Worker.sendPos_outside hpc] at hsend
    rw [h.window.holds.toAck, hsend, walk_mod _ _ _ h.window.holds.le
      (by simp only [maxWinLen] at *; omega) (by simp only [maxWinLen] at *; omega)] at hi
    obtain ⟨j, hj, rfl⟩ := List.mem_map.mp hi
    rw [List.mem_range'_1] at hj
    obtain ⟨p, hp, htr⟩ := h.window.transmit hj.1 (by omega)
    rw [htr] at he
    obtain ⟨hpos', hf'⟩ := Event.sent.inj he
    have hstill : Still events := still_sent fun e he => by
      obtain ⟨i, -, rfl⟩ := hev e he
      exact ⟨i, _, rfl⟩
    refine ⟨j, p, ?_, hpos', ?_, hf'⟩
    · rw [hlog, completed_append, hstill.completed]
      exact hj.1
    rw [hlog, built_append, List.getElem?_append_left (List.getElem?_eq_some_iff.mp hp).1]
    exact hp
  | endTx hpc hr hev => exact absurd (hev _ hf).1 (by simp)
  | @sent toSend _ _ p pre hpc hlt hs hpre =>
    have hpre0 : built pre = [] := by cases hpre <;> rfl
    have hb : built r'.log = built r.log ++ [p] := by
      rw [hlog, built_append, built_append, hpre0]; rfl
    have hc : completed r'.log = completed r.log := by
      cases hpre <;> rw [hlog, completed_append] <;> rfl
    have hsend := h.window.sendPos
    rw [Worker.sendPos, hpc] at hsend
    have hmem : pos = toSend ∧ f = p.pkt := by
      cases hpre <;> simp at hf <;> exact hf
    obtain ⟨rfl, rfl⟩ := hmem
    exact ⟨_, p, by rw [hc]; exact h.window.holds.le, hsend,
      by rw [hb, List.getElem?_concat_length], rfl⟩

end NetCCL.Backend
