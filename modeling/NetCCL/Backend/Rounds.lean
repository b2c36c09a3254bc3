/-
# Arbitrarily long runs

A PSN has 32 bits, so what becomes of it after 2^32 packets shows only in a run of that
length.  This module builds such runs, one sub-op of one packet at a time: the sub-op is
queued, its packet sent, the response received and the answer taken, and the worker is where
it was (`Idle`), but for the counter of the group, which is one further.

`Worker.Idle.send` says what one round sends; `rounds_reach` repeats the round any number of times.
-/
import NetCCL.Backend.Location

namespace NetCCL.Backend

open Lib

/-! ## 1. A window of one packet -/

theorem nextPosition_ne (pos : ℕ) : nextPosition pos ≠ pos := by
  simp only [nextPosition, maxWinLen]
  omega

theorem prevPosition_next {pos : ℕ} (h : pos < maxWinLen) :
    prevPosition (nextPosition pos) = pos := by
  rw [nextPosition, prevPosition_mod, Nat.mod_eq_of_lt h]

/-- The window holds the packet `p` and no other. -/
structure Window.Single (win : Window) (p : PktState) : Prop where
  toAck : win.toAck < maxWinLen
  toSend : win.toSend = nextPosition win.toAck
  state : win.state win.toAck = p
  leftPsn : win.leftPsn = p.pkt.inc.psn
  rightPsn : win.rightPsn = p.pkt.inc.psn

theorem Window.Single.txEmpty {win : Window} {p : PktState} (h : win.Single p) :
    win.txEmpty = false := by
  simp [Window.txEmpty, h.toSend, (nextPosition_ne _).symm]

/-- A response with the PSN of the packet finds it. -/
theorem Window.Single.getPosition {w : Worker} {p : PktState} (h : w.window.Single p) {f : Frame}
    (hgroup : f.inc.groupId = w.currentGroupId) (hpsn : f.inc.psn = p.pkt.inc.psn) :
    w.getPosition f = w.window.toAck := by
  have hlt := h.toAck
  have hzero : (BitVec.ofNat 32 w.window.toAck).toNat = w.window.toAck := by
    rw [BitVec.toNat_ofNat, Nat.mod_eq_of_lt]
    simp only [maxWinLen] at *
    omega
  rw [Worker.getPosition, h.txEmpty, hgroup, hpsn, h.leftPsn, h.rightPsn, bne_self_eq_false,
    Bool.or_false, if_neg Bool.false_ne_true]
  dsimp only
  rw [if_pos (BitVec.le_refl _), BitVec.sub_self, BitVec.zero_add, hzero,
    if_neg (Nat.not_le.mpr hlt)]

/-- A packet without data leaves the memory alone. -/
theorem copyPayload_empty (w : Worker) {p : PktState} (hp : p.size = 0) (f : Frame) :
    (w.copyPayload p f).1.mem = w.mem := by
  funext addr
  by_contra hne
  obtain ⟨hle, hlt⟩ := copyPayload_mem hne
  omega

/-- ... and is accepted. -/
theorem Window.Single.accepts {w : Worker} {p : PktState} (h : w.window.Single p)
    (hp : p.acked = false) {f : Frame} (hgroup : f.inc.groupId = w.currentGroupId)
    (hpsn : f.inc.psn = p.pkt.inc.psn) :
    ∃ tosMinitor ackCnt pktLossFlag mem events, w.rxProcessOne f = ({ w with
        tosMinitor, ackCnt, pktLossFlag, mem
        window := { w.window with
          state := Function.update w.window.state w.window.toAck { p with acked := true } } },
        .accepted w.window.toAck { p with acked := true } f :: events) ∧
      (events = [.deref p.subOp] ∨ ∃ len, events = [.deref p.subOp, .wrote p.subOp p.data len]) ∧
      (p.size = 0 → mem = w.mem) := by
  have hpos := h.getPosition hgroup hpsn
  have hlt := h.toAck
  have hvalid : w.window.toAck ≠ invalidPosition := by
    simp only [maxWinLen, invalidPosition] at *
    omega
  have hunacked : w.window.hasAcked w.window.toAck = false := by rw [Window.hasAcked, h.state, hp]
  obtain ⟨w₁, hw₁⟩ : ∃ w₁ : Worker, w₁ = Worker.markAcked
    { w with tosMinitor := w.tosMinitor ||| f.typeOfService } w.window.toAck := ⟨_, rfl⟩
  have hrx : w.rxProcessOne f = Worker.acceptAt
      { w with tosMinitor := w.tosMinitor ||| f.typeOfService } w.window.toAck f := by
    have hpos' : Worker.getPosition { w with tosMinitor := w.tosMinitor ||| f.typeOfService } f =
      w.window.toAck := hpos
    rw [Worker.rxProcessOne]
    dsimp only
    rw [hpos', if_neg (by simp [hvalid, hunacked])]
  have hstate : w₁.window.state w.window.toAck = { p with acked := true } := by
    simp [hw₁, Worker.markAcked, h.state]
  obtain ⟨mem, hw, hev⟩ := copyPayload_cases w₁ { p with acked := true } f
  obtain ⟨events, hevents⟩ : ∃ events, (w₁.copyPayload { p with acked := true } f).2 = events :=
    ⟨_, rfl⟩
  rw [hevents] at hev
  refine ⟨w.tosMinitor ||| f.typeOfService, w.ackCnt + 1, w.pktLossFlag, mem, events, ?_, ?_,
    fun h0 => ?_⟩
  · -- the packet is the first of the window, so nothing is sent again
    rw [hrx, Worker.acceptAt]
    dsimp only
    rw [← hw₁, hstate, hw, hevents, if_pos (by simp [hw₁, Worker.markAcked])]
    simp only [hw₁, Worker.markAcked, h.state]
  · rcases hev with ⟨hev, -⟩ | ⟨len, -, hev⟩
    · exact Or.inl hev
    · exact Or.inr ⟨len, hev⟩
  · have hempty := copyPayload_empty w₁ (p := { p with acked := true }) h0 f
    rw [hw] at hempty
    exact hempty.trans (by rw [hw₁]; rfl)

/-- Acked, it is shifted out, and answered if it is the last of its sub-op. -/
theorem Window.Single.shiftAck {w : Worker} {p : PktState} (h : w.window.Single p)
    (hp : p.acked = true) (hlast : p.isLast = true) (hqp : w.qp = ⟨[], [], 1⟩) :
    w.shiftAck = ({ w with
      qp := ⟨[], [p.subOp], 1⟩
      window := { w.window with toAck := w.window.toSend, leftPsn := 0 } },
      [.completed w.window.toAck, .pushed p.subOp]) := by
  have hne : w.window.toAck ≠ w.window.toSend := by
    rw [h.toSend]
    exact (nextPosition_ne _).symm
  have hshift : w.shiftFrom maxWinLen w.window.toAck = ({ w with qp := ⟨[], [p.subOp], 1⟩ },
      w.window.toSend, [.completed w.window.toAck, .pushed p.subOp]) := by
    have hlen : maxWinLen = 1022 + 1 + 1 := rfl
    rw [hlen, Worker.shiftFrom,
      if_pos (by simp [Window.hasAcked, h.state, hp, hne]), Worker.completePkt, h.state,
      if_pos hlast, QueuePair.pushResp, hqp, if_neg (by decide)]
    dsimp only
    rw [Worker.shiftFrom, ← h.toSend, if_neg (by simp)]
    rfl
  rw [Worker.shiftAck, hshift]
  simp only [Window.txEmpty, beq_self_eq_true, if_true]

/-! ## 2. Sending one packet -/

theorem winSize_init : CC.init.winSize = 10 := by
  simp [CC.winSize, CC.init, ccCwndMin]

/-- Within the first time unit nothing times out and no rate is adjusted. -/
structure Worker.Fresh (w : Worker) : Prop where
  globalTs : w.globalTs = 0
  lastAck : w.window.lastAckTimeStamp = 0
  cc : w.window.cc = .init
  limit : 0 < w.currentSwitchWindowLimit

/-- With an empty window the loop of `shift_send` starts with room for a packet. -/
theorem Worker.Fresh.startTx {w : Worker} (h : w.Fresh)
    (hempty : w.window.toSend = w.window.toAck) :
    ∃ prevAckCnt expectWinLen, 0 < expectWinLen ∧ w.startTx =
      ({ w with prevAckCnt, pc := .send w.window.toAck 0 expectWinLen }, []) := by
  have hnoted : ∃ prevAckCnt, (if w.ackCnt ≠ w.prevAckCnt then
        { w with prevAckCnt := w.ackCnt
                 window := { w.window with lastAckTimeStamp := w.globalTs } }
      else w) = { w with prevAckCnt } := by
    split
    · exact ⟨_, by rw [h.globalTs, ← h.lastAck]⟩
    · exact ⟨_, rfl⟩
  obtain ⟨cnt, hnoted⟩ := hnoted
  have hlen : w.window.len = 0 := by
    rw [Window.len, hempty, if_pos (Nat.le_refl _), Nat.sub_self]
  have hlimit := h.limit
  rw [Worker.startTx]
  dsimp only
  rw [hnoted]
  dsimp only
  rw [h.globalTs, h.lastAck, if_neg (by decide)]
  dsimp only
  rw [hlen, h.cc, winSize_init, hempty]
  refine ⟨cnt, _, ?_, rfl⟩
  simp only [maxWinLen, maxPktBurst]
  omega

theorem Worker.Fresh.congestionControl {w : Worker} (h : w.Fresh) : w.congestionControl = w := by
  rw [Worker.congestionControl, h.globalTs, h.cc]
  exact if_pos (by decide)

theorem nextPkt_isLast (w : Worker) (position ptr : ℕ) :
    (w.nextPkt position ptr).isLast = decide (w.gen.pktSent + 1 = w.gen.pktCnt) :=
  congrArg Cut.isLast (fillPkt_cut _ _ _).1

theorem nextPkt_inc (w : Worker) (position ptr : ℕ) : (w.nextPkt position ptr).pkt.inc =
    incHdr (w.subOp ptr) (w.gen.startPsn + BitVec.ofNat 32 w.gen.pktSent) :=
  (fillPkt_cut _ _ _).2.2

/-- The first packet of sub-op `ptr`, as `gen_pkt` fills it in at `to_ack`. -/
def Worker.firstPkt (w : Worker) (ptr : ℕ) : PktState := (w.turnTo ptr).nextPkt w.window.toAck ptr

/-- The group of a sub-op. -/
def Worker.groupOf (w : Worker) (ptr : ℕ) : BitVec 8 := (w.subOp ptr).op.group.groupId

/-- The worker after it has sent the only packet of the only sub-op in its queue. -/
def Worker.afterOnly (w : Worker) (ptr expectWinLen : ℕ) : Worker :=
  { w with
    qp := ⟨[], [], 1⟩
    currentGroupId := w.groupOf ptr
    currentSwitchWindowLimit := (w.subOp ptr).aggLen / 2
    gen := ⟨none, 1, w.groupCtx (w.groupOf ptr), 1⟩
    groupCtx := Function.update w.groupCtx (w.groupOf ptr) (w.groupCtx (w.groupOf ptr) + 1)
    window := { w.window with
      leftPsn := w.groupCtx (w.groupOf ptr)
      state := Function.update w.window.state w.window.toAck (w.firstPkt ptr) }
    pc := .send (nextPosition w.window.toAck) 1 expectWinLen }

/-- What is known of that packet. -/
theorem firstPkt_only {w : Worker} {ptr : ℕ} (hcnt : pktCount (w.subOp ptr) = 1) :
    (w.firstPkt ptr).isLast = true ∧ (w.firstPkt ptr).acked = false ∧
      (w.firstPkt ptr).subOp = ptr ∧
      (w.firstPkt ptr).pkt.inc = incHdr (w.subOp ptr) (w.groupCtx (w.groupOf ptr)) := by
  have hturned : (w.turnTo ptr).gen = ⟨some ptr, 0, w.groupCtx (w.groupOf ptr), 1⟩ := by
    rw [Worker.turnTo, ← hcnt]
    rfl
  refine ⟨?_, (fillPkt_cut _ _ _).2.1, congrArg Cut.subOp (fillPkt_cut _ _ _).1, ?_⟩
  · rw [Worker.firstPkt, nextPkt_isLast, hturned]
    rfl
  · rw [Worker.firstPkt, nextPkt_inc, hturned]
    exact congrArg (incHdr _) (BitVec.add_zero _)

/-- What it is filled with. -/
theorem firstPkt_fill (w : Worker) (ptr : ℕ) : ∃ p₀,
    w.firstPkt ptr = fillPkt w.mem (w.subOp ptr) p₀ ∧
    p₀.data = (w.subOp ptr).data ∧ p₀.size = min payloadSize (w.subOp ptr).size :=
  ⟨_, rfl, by simp [Worker.turnTo, Worker.subOp], by simp [Worker.turnTo, Worker.subOp]⟩

theorem sendOne_only {w : Worker} {ptr expectWinLen : ℕ} (hgen : w.gen.subOp = none)
    (hqp : w.qp = ⟨[ptr], [], 1⟩) (hempty : w.window.toSend = w.window.toAck)
    (hlt : 0 < expectWinLen) (hcnt : pktCount (w.subOp ptr) = 1) :
    w.sendOne w.window.toAck 0 expectWinLen = (w.afterOnly ptr expectWinLen,
      [.deref ptr, .took ptr, .deref ptr, .built w.window.toAck (w.firstPkt ptr),
        .sent w.window.toAck (w.firstPkt ptr).pkt]) := by
  have htx : w.window.txEmpty = true := by rw [Window.txEmpty, hempty, beq_self_eq_true]
  have hfront : w.qp.frontReq = some ptr := by rw [hqp]; rfl
  have hturned : (w.turnTo ptr).gen = ⟨some ptr, 0, w.groupCtx (w.groupOf ptr), 1⟩ := by
    rw [Worker.turnTo, ← hcnt]
    rfl
  obtain ⟨hlast, -, -, hinc⟩ := firstPkt_only hcnt
  have hpsn : (w.firstPkt ptr).pkt.inc.psn = w.groupCtx (w.groupOf ptr) := by rw [hinc]; rfl
  have hturn : w.nextSubOp = (some (w.turnTo ptr), [.deref ptr, .took ptr]) := by
    rw [Worker.nextSubOp, hfront]
    dsimp only
    rw [if_neg (by simp [htx])]
  have hbuild : w.genPkt w.window.toAck =
      ((w.turnTo ptr).putPkt w.window.toAck ptr (w.firstPkt ptr), true,
        [.deref ptr, .took ptr, .deref ptr, .built w.window.toAck (w.firstPkt ptr)]) := by
    rw [Worker.genPkt, hgen, hturn]
    rfl
  rw [Worker.sendOne, if_pos hlt, hbuild]
  simp only [Worker.putPkt, hlast, if_true, hturned]
  simp only [Worker.turnTo, hqp, hcnt, Window.transmit, Function.update_self, hpsn]
  rfl

/-- With nothing in the queue the loop of `shift_send` ends. -/
theorem sendOne_end {w : Worker} (hgen : w.gen.subOp = none) (hqp : w.qp.wq = [])
    (toSend winLen expectWinLen : ℕ) :
    w.sendOne toSend winLen expectWinLen = (w.endTx toSend winLen, []) := by
  have hrefused : w.genPkt toSend = (w, false, []) := by
    rw [Worker.genPkt, hgen]
    dsimp only
    rw [Worker.nextSubOp, QueuePair.frontReq, hqp]
    rfl
  rw [Worker.sendOne, hrefused]
  split <;> rfl

/-- One packet was sent: the caches are its PSN. -/
theorem endTx_single {w : Worker} (hack : w.window.toAck < maxWinLen)
    (hleft : w.window.leftPsn = (w.window.state w.window.toAck).pkt.inc.psn) (winLen : ℕ) :
    ∃ cwndAchieved, w.endTx (nextPosition w.window.toAck) winLen = { w with
      cwndAchieved, pc := .cc
      window := { w.window with
        toSend := nextPosition w.window.toAck, rightPsn := w.window.leftPsn } } := by
  have hfull : Window.txEmpty { w.window with toSend := nextPosition w.window.toAck } = false := by
    simp [Window.txEmpty, (nextPosition_ne _).symm]
  rw [Worker.endTx]
  dsimp only
  rw [hfull]
  simp only [Bool.false_eq_true, if_false, prevPosition_next hack, ← hleft]
  exact ⟨_, rfl⟩

/-! ## 3. Rounds -/

variable {ctx : BitVec 8 → BitVec 32} {r : Run}

/-- Nothing to do: `rx_process` is over, queue and window are empty, all sub-ops so far were
of group 1, and its next PSN is `n`. -/
structure Worker.Idle (w : Worker) (n : ℕ) : Prop extends w.Fresh where
  pc : w.pc = .tx
  qp : w.qp = .empty
  heap : ∀ s ∈ w.heap, s.op.group.groupId = 1
  toAck : w.window.toAck < maxWinLen
  toSend : w.window.toSend = w.window.toAck
  gen : w.gen.subOp = none
  groupCtx : w.groupCtx 1 = BitVec.ofNat 32 n

/-- A sub-op of group 1 that needs one packet. -/
structure OnePacket (s : SubOp) : Prop where
  group : s.op.group.groupId = 1
  cnt : pktCount s = 1
  aggLen : 2 ≤ s.aggLen

/-- Its packet `p` is out, and the frames received are looked at next. -/
structure Worker.Waiting (w : Worker) (n : ℕ) (p : PktState) : Prop extends w.Fresh where
  pc : w.pc = .rx
  qp : w.qp = ⟨[], [], 1⟩
  heap : ∀ s ∈ w.heap, s.op.group.groupId = 1
  window : w.window.Single p
  group : w.currentGroupId = 1
  gen : w.gen.subOp = none
  groupCtx : w.groupCtx 1 = BitVec.ofNat 32 (n + 1)
  acked : p.acked = false
  isLast : p.isLast = true

/-- The response has been accepted. -/
structure Worker.Answered (w : Worker) (n : ℕ) (p : PktState) : Prop extends w.Fresh where
  pc : w.pc = .rx
  qp : w.qp = ⟨[], [], 1⟩
  heap : ∀ s ∈ w.heap, s.op.group.groupId = 1
  window : w.window.Single p
  gen : w.gen.subOp = none
  groupCtx : w.groupCtx 1 = BitVec.ofNat 32 (n + 1)
  acked : p.acked = true
  isLast : p.isLast = true

/-- A step of the thread itself, which needs nothing from others. -/
def Label.Own : Label → Prop
  | .receive _ | .pushReq _ => False
  | _ => True

theorem reach_more {init : Run → Prop} {ok : Run → Label → Prop} (hr : Reach init Run.Step ok r)
    (l : Label) {w : Worker} {events : List Event} (hok : ok r l)
    (hw : r.worker.step l = some (w, events)) :
    Reach init Run.Step ok ⟨w, r.log ++ events⟩ :=
  .step hr hok ⟨events, hw, rfl⟩

/-- The events of a packet sent alone. -/
def sentAlone (ptr pos : ℕ) (p : PktState) : List Event :=
  [.deref ptr, .took ptr, .deref ptr, .built pos p, .sent pos p.pkt]

/-- **A round sends** the packet `p` of its sub-op, with the next PSN of the group.  It asks of
the restriction on the run that it admits the sub-op, and the thread's own steps. -/
theorem Worker.Idle.goes_send {n : ℕ} (h : r.worker.Idle n) {s : SubOp} (hs : OnePacket s) :
    ∃ r' p p₀, r'.worker.Waiting n p ∧
      r'.log = r.log ++ sentAlone r.worker.heap.length r.worker.window.toAck p ∧
      r'.worker.heap = r.worker.heap ++ [s] ∧ r'.worker.mem = r.worker.mem ∧
      r'.worker.window.toAck = r.worker.window.toAck ∧
      (p = fillPkt r.worker.mem s p₀ ∧ p₀.data = s.data ∧ p₀.size = min payloadSize s.size) ∧
      p.subOp = r.worker.heap.length ∧ p.pkt.inc = incHdr s (BitVec.ofNat 32 n) ∧
      ∀ ok : Run → Label → Prop, ok r (.pushReq s) →
        (∀ r₁ l, l.Own → (∀ x ∈ built r₁.log, x ∈ built r.log ∨ x = p) → ok r₁ l) →
        Reach (· = r) Run.Step ok r' := by
  obtain ⟨w, log⟩ := r
  dsimp only at h ⊢
  have hpush : w.step (.pushReq s) = some ({ w with
      qp := ⟨[w.heap.length], [], 1⟩, heap := w.heap ++ [s] }, []) := by
    rw [Worker.step, h.qp]
    rfl
  have hfresh : Worker.Fresh { w with
      qp := ⟨[w.heap.length], [], 1⟩, heap := w.heap ++ [s] } :=
    ⟨h.globalTs, h.lastAck, h.cc, h.limit⟩
  obtain ⟨cnt, ew, hlt, hstart⟩ := hfresh.startTx h.toSend
  obtain ⟨w₂, hw₂⟩ : ∃ w₂ : Worker, w₂ = { w with
      qp := ⟨[w.heap.length], [], 1⟩, heap := w.heap ++ [s], prevAckCnt := cnt
      pc := .send w.window.toAck 0 ew } := ⟨_, rfl⟩
  have hsub : w₂.subOp w.heap.length = s := by simp [hw₂, Worker.subOp]
  have hgroup : w₂.groupOf w.heap.length = 1 := by rw [Worker.groupOf, hsub, hs.group]
  have hctx : w₂.groupCtx 1 = BitVec.ofNat 32 n := by rw [hw₂]; exact h.groupCtx
  have honly := sendOne_only (w := w₂) (by rw [hw₂]; exact h.gen) (by rw [hw₂])
    (by rw [hw₂]; exact h.toSend) hlt (by rw [hsub]; exact hs.cnt)
  obtain ⟨hlast, hacked, hptr, hinc⟩ := firstPkt_only (w := w₂) (by rw [hsub]; exact hs.cnt)
  rw [hsub, hgroup, hctx] at hinc
  have hend := sendOne_end (w := w₂.afterOnly w.heap.length ew) rfl rfl
    (nextPosition w₂.window.toAck) 1 ew
  have htoAck : w₂.window.toAck < maxWinLen := by rw [hw₂]; exact h.toAck
  obtain ⟨a, hone⟩ := endTx_single (w := w₂.afterOnly w.heap.length ew) htoAck
    (by dsimp only [Worker.afterOnly]; rw [Function.update_self, hinc, hgroup, hctx]; rfl) 1
  have hnext : nextPosition (w₂.afterOnly w.heap.length ew).window.toAck =
    nextPosition w₂.window.toAck := rfl
  rw [hnext] at hone
  rw [hone] at hend
  obtain ⟨w₄, hw₄⟩ : ∃ w₄ : Worker, w₄ = { w₂.afterOnly w.heap.length ew with
      cwndAchieved := a, pc := .cc
      window := { (w₂.afterOnly w.heap.length ew).window with
        toSend := nextPosition w₂.window.toAck
        rightPsn := (w₂.afterOnly w.heap.length ew).window.leftPsn } } := ⟨_, rfl⟩
  rw [← hw₄] at hend
  have hfresh₄ : w₄.Fresh := by
    rw [hw₄]
    refine ⟨by rw [hw₂]; exact h.globalTs, by rw [hw₂]; exact h.lastAck,
      by rw [hw₂]; exact h.cc, ?_⟩
    have haggLen := hs.aggLen
    dsimp only [Worker.afterOnly]
    rw [hsub]
    omega
  have hheap : ∀ t ∈ w.heap ++ [s], t.op.group.groupId = 1 := by
    intro t ht
    rcases List.mem_append.mp ht with ht | ht
    · exact h.heap t ht
    · rw [List.mem_singleton.mp ht, hs.group]
  have hpsn : (w₂.firstPkt w.heap.length).pkt.inc.psn = BitVec.ofNat 32 n := by rw [hinc]; rfl
  have hsame : w₂.window.toAck = w.window.toAck := by rw [hw₂]
  obtain ⟨p₀, hfill, hdata, hsize⟩ := firstPkt_fill w₂ w.heap.length
  rw [hsub] at hfill hdata hsize
  refine ⟨⟨{ w₄ with globalTs := 0, pc := .rx },
      log ++ sentAlone w.heap.length w.window.toAck (w₂.firstPkt w.heap.length)⟩,
    w₂.firstPkt w.heap.length, p₀, ⟨⟨rfl, hfresh₄.lastAck, hfresh₄.cc, hfresh₄.limit⟩, rfl, ?_, ?_,
      ⟨?_, ?_, ?_, ?_, ?_⟩, ?_, ?_, ?_, hacked, hlast⟩, rfl, ?_, ?_, ?_, ⟨?_, hdata, hsize⟩, hptr,
    hinc, ?_⟩
  · rw [hw₄]
    rfl
  · rw [hw₄, hw₂]
    exact hheap
  · rw [hw₄]
    exact htoAck
  · rw [hw₄]
    rfl
  · rw [hw₄]
    exact Function.update_self _ _ _
  · rw [hw₄]
    dsimp only [Worker.afterOnly]
    rw [hgroup, hctx, hpsn]
  · rw [hw₄]
    dsimp only [Worker.afterOnly]
    rw [hgroup, hctx, hpsn]
  · rw [hw₄]
    exact hgroup
  · rw [hw₄]
    rfl
  · rw [hw₄]
    dsimp only [Worker.afterOnly]
    rw [hgroup, Function.update_self, hctx, BitVec.ofNat_add]
    rfl
  · rw [hw₄, hw₂]
    rfl
  · rw [hw₄, hw₂]
    rfl
  · rw [hw₄]
    exact hsame
  · rw [hfill, hw₂]
  · intro ok hokPush hok
    have hold : ∀ x ∈ built log, x ∈ built log ∨ x = w₂.firstPkt w.heap.length := by
      intro x hx
      exact Or.inl hx
    have hnew : ∀ x ∈ built (log ++ sentAlone w.heap.length w.window.toAck
        (w₂.firstPkt w.heap.length)), x ∈ built log ∨ x = w₂.firstPkt w.heap.length := by
      intro x hx
      rw [built_append] at hx
      exact (List.mem_append.mp hx).imp_right List.mem_singleton.mp
    have hr₁ : Reach (· = ⟨w, log⟩) Run.Step ok
        ⟨{ w with qp := ⟨[w.heap.length], [], 1⟩, heap := w.heap ++ [s] }, log⟩ := by
      have hr₀ : Reach (· = (⟨w, log⟩ : Run)) Run.Step ok ⟨w, log⟩ := .init rfl
      have hstep := reach_more hr₀ (.pushReq s) hokPush hpush
      rwa [List.append_nil] at hstep
    have hr₂ : Reach (· = ⟨w, log⟩) Run.Step ok ⟨w₂, log⟩ := by
      have hstep := reach_more hr₁ .startTx (hok _ _ trivial hold)
        (by rw [Worker.step, if_pos (by exact h.pc), hstart])
      simpa only [List.append_nil, hw₂] using hstep
    have hr₃ : Reach (· = ⟨w, log⟩) Run.Step ok ⟨w₂.afterOnly w.heap.length ew,
        log ++ sentAlone w.heap.length w.window.toAck (w₂.firstPkt w.heap.length)⟩ := by
      refine reach_more hr₂ .sendOne (hok _ _ trivial hold) ?_
      have hpc : w₂.pc = .send w₂.window.toAck 0 ew := by rw [hw₂]
      rw [Worker.step, hpc]
      dsimp only
      rw [honly, hsame]
      rfl
    have hr₄ := reach_more hr₃ .sendOne (hok _ _ trivial hnew) (congrArg some hend)
    rw [List.append_nil] at hr₄
    have hr₅ := reach_more hr₄ .congestion (hok _ _ trivial hnew)
      (by rw [Worker.step, if_pos (by rw [hw₄]), hfresh₄.congestionControl])
    rw [List.append_nil] at hr₅
    have hr₆ := reach_more hr₅ (.loopTop 0) (hok _ _ trivial hnew)
      (by rw [Worker.step, if_pos (by rfl)])
    rwa [List.append_nil] at hr₆

/-- **The response is accepted.**  What it brings is written to memory, if the packet has room
for data. -/
theorem Worker.Waiting.receive {w : Worker} {n : ℕ} {p : PktState} (h : w.Waiting n p) {f : Frame}
    (hgroup : f.inc.groupId = 1) (hpsn : f.inc.psn = p.pkt.inc.psn) :
    ∃ w' events, w.step (.receive f) =
        some (w', .accepted w.window.toAck { p with acked := true } f :: events) ∧
      (events = [.deref p.subOp] ∨ ∃ len, events = [.deref p.subOp, .wrote p.subOp p.data len]) ∧
      w'.Answered n { p with acked := true } ∧ w'.heap = w.heap ∧
      w'.window.toAck = w.window.toAck ∧ (p.size = 0 → w'.mem = w.mem) := by
  obtain ⟨tos, cnt, loss, mem, events, hw, hev, hmem⟩ :=
    h.window.accepts h.acked (hgroup.trans h.group.symm) hpsn
  have hstep : w.step (.receive f) = some (w.rxProcessOne f) := by rw [Worker.step, if_pos h.pc]
  rw [hw] at hstep
  refine ⟨_, events, hstep, hev, ⟨⟨h.globalTs, h.lastAck, h.cc, h.limit⟩, h.pc, h.qp, h.heap, ?_,
    h.gen, h.groupCtx, rfl, h.isLast⟩, rfl, rfl, hmem⟩
  exact ⟨h.window.toAck, h.window.toSend, Function.update_self _ _ _, h.window.leftPsn,
    h.window.rightPsn⟩

/-- **The sub-op is answered**, and the worker is idle again. -/
theorem Worker.Answered.goes_on {n : ℕ} {p : PktState} (h : r.worker.Answered n p) :
    ∃ r', r'.worker.Idle (n + 1) ∧
      r'.log = r.log ++ [.completed r.worker.window.toAck, .pushed p.subOp] ∧
      r'.worker.heap = r.worker.heap ∧ r'.worker.mem = r.worker.mem ∧
      r'.worker.window.toAck = nextPosition r.worker.window.toAck ∧
      ∀ ok : Run → Label → Prop,
        (∀ r₁ l, l.Own → built r₁.log = built r.log → ok r₁ l) →
        Reach (· = r) Run.Step ok r' := by
  obtain ⟨w, log⟩ := r
  dsimp only at h ⊢
  have hshift := h.window.shiftAck h.acked h.isLast h.qp
  refine ⟨⟨{ w with
      qp := ⟨[], [], 0⟩, pc := .tx
      window := { w.window with toAck := w.window.toSend, leftPsn := 0 } }, _⟩,
    ⟨⟨h.globalTs, h.lastAck, h.cc, h.limit⟩, rfl, rfl, h.heap, ?_, rfl, h.gen, h.groupCtx⟩, rfl,
    rfl, rfl, h.window.toSend, fun ok hok => ?_⟩
  · dsimp only
    rw [h.window.toSend]
    exact Nat.mod_lt _ (by decide)
  · have hr₁ : Reach (· = ⟨w, log⟩) Run.Step ok ⟨{ w with
        qp := ⟨[], [p.subOp], 1⟩, pc := .tx
        window := { w.window with toAck := w.window.toSend, leftPsn := 0 } },
        log ++ [.completed w.window.toAck, .pushed p.subOp]⟩ := by
      have hr₀ : Reach (· = (⟨w, log⟩ : Run)) Run.Step ok ⟨w, log⟩ := .init rfl
      refine reach_more hr₀ .endRx (hok _ _ trivial rfl) ?_
      rw [Worker.step, if_pos h.pc]
      dsimp only
      rw [hshift]
    have hbuilt : built (log ++ [.completed w.window.toAck, .pushed p.subOp]) = built log := by
      rw [built_append]
      exact List.append_nil _
    have hr₂ := reach_more hr₁ .popResp (hok _ _ trivial hbuilt) rfl
    rwa [List.append_nil] at hr₂

/-- The round in a run of a single worker. -/
theorem Worker.Idle.send {n : ℕ} (hr : Reach (Run.Init ctx) Run.Step Barrier r)
    (h : r.worker.Idle n) {s : SubOp} (hs : OnePacket s) :
    ∃ r' p, Reach (Run.Init ctx) Run.Step Barrier r' ∧ r'.worker.Waiting n p ∧
      r.log <+: r'.log ∧ .sent r.worker.window.toAck p.pkt ∈ r'.log ∧
      p.pkt.inc = incHdr s (BitVec.ofNat 32 n) := by
  obtain ⟨r', p, -, hwait, hlog, -, -, -, -, -, hinc, hgoes⟩ := h.goes_send hs
  have hbarrier : Barrier r (.pushReq s) := by
    intro ptr hptr _
    rw [Worker.subOp_eq hptr, h.heap _ (List.getElem_mem hptr), hs.group]
  refine ⟨r', p, hr.trans (hgoes Barrier hbarrier fun r₁ l hl _ => ?_), hwait, ?_, ?_, hinc⟩
  · cases l with
    | pushReq s => exact absurd hl id
    | _ => trivial
  · rw [hlog]
    exact List.prefix_append _ _
  · rw [hlog]
    simp [sentAlone]

/-- **... and is answered**, and over. -/
theorem Worker.Waiting.answer {n : ℕ} {p : PktState}
    (hr : Reach (Run.Init ctx) Run.Step Barrier r) (h : r.worker.Waiting n p) :
    ∃ r', Reach (Run.Init ctx) Run.Step Barrier r' ∧ r'.worker.Idle (n + 1) ∧ r.log <+: r'.log := by
  obtain ⟨w, events, hw, -, hanswered, -⟩ := h.receive
    (f := { p.pkt with inc := { p.pkt.inc with groupId := 1 } }) rfl rfl
  have hr₁ := reach_more hr (.receive _) trivial hw
  obtain ⟨r', hidle, hlog, -, -, -, hgoes⟩ := Worker.Answered.goes_on
    (r := ⟨w, r.log ++ (.accepted r.worker.window.toAck { p with acked := true }
      { p.pkt with inc := { p.pkt.inc with groupId := 1 } } :: events)⟩) hanswered
  refine ⟨r', hr₁.trans (hgoes Barrier fun r₁ l hl _ => ?_), hidle, ?_⟩
  · cases l with
    | pushReq s => exact absurd hl id
    | _ => trivial
  · rw [hlog, List.append_assoc]
    exact List.prefix_append _ _

/-- **Any number of rounds** can be run, one after the other. -/
theorem rounds_reach {s : SubOp} (hs : OnePacket s) {m : ℕ}
    (hr : Reach (Run.Init ctx) Run.Step Barrier r) (h : r.worker.Idle m) (n : ℕ) :
    ∃ r', Reach (Run.Init ctx) Run.Step Barrier r' ∧ r'.worker.Idle (m + n) ∧
      r.log <+: r'.log := by
  induction n with
  | zero => exact ⟨r, hr, h, List.prefix_refl _⟩
  | succ n ih =>
    obtain ⟨r₁, hr₁, hidle, hpre⟩ := ih
    obtain ⟨r₂, p, hr₂, hwait, hpre₁, -, -⟩ := hidle.send hr₁ hs
    obtain ⟨r₃, hr₃, hidle₃, hpre₂⟩ := hwait.answer hr₂
    exact ⟨r₃, hr₃, hidle₃, hpre.trans (hpre₁.trans hpre₂)⟩

/-- A worker that has looked for frames once is idle. -/
theorem start_idle : ∃ r, Reach (Run.Init fun _ => 0) Run.Step Barrier r ∧ r.worker.Idle 0 := by
  have hr₁ : Reach (Run.Init fun _ => 0) Run.Step Barrier _ :=
    reach_more (.init Run.start_init) (.loopTop 0) trivial (by rw [Worker.step, if_pos (by rfl)])
  have hr₂ := reach_more hr₁ .endRx trivial (by rw [Worker.step, if_pos (by rfl)])
  refine ⟨_, hr₂, ⟨⟨rfl, rfl, rfl, ?_⟩, rfl, rfl, ?_, ?_, rfl, rfl, rfl⟩⟩
  · exact Nat.succ_pos _
  · intro s hs
    exact absurd hs List.not_mem_nil
  · exact Nat.succ_pos _

end NetCCL.Backend
