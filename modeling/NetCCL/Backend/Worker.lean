/-
# The worker: a sliding window over a stream of sub-ops

`server/backend/worker.cpp`.  A worker takes sub-ops from its queue pair, cuts each into
packets of consecutive PSNs (`gen_pkt`), keeps up to `MAX_WIN_LEN - 1` of them in a circular
array while they wait for their responses, and answers a sub-op when the window has shifted
past its last packet.

The thread runs `worker_loop`, and other threads act between any two of its steps: the load
balancer pushes sub-ops and pops answers, the network delivers frames, the frontend writes
shared memory.  `Worker.step` therefore cuts the loop at the points where that can matter --
one received frame, one generated packet -- and keeps the local variables of `shift_send` in
the program counter `Pc.send`.  The stored `window->to_send` stays behind the local one until
the loop ends, as it does in the code.

A step also returns what it did that others can see (`Event`): frames handed to the NIC,
frames accepted, memory written, answers pushed, and every access to a sub-op or its op.
Pointers to sub-ops are positions in `heap`, the list of all sub-ops the load balancer has
created for this worker; a pointer is never reused.

Doubles are read as rationals.  Time stamps wrap at 32 bits.  Counters that only feed the log
are left out.
-/
import NetCCL.Common
import NetCCL.Switch.Ingress
import Mathlib.Data.Rat.Floor

namespace NetCCL.Backend

/-! ## 1. Constants and data -/

/-- `MAX_WIN_LEN`. -/
def maxWinLen : ℕ := 1024
def maxPktBurst : ℕ := 32
/-- `INVALID_POSITION`, which is `(win_size_t)-1`. -/
def invalidPosition : ℕ := 2 ^ 32 - 1

def ccReactionTime : BitVec 32 := 10
def ccFastRecoveryCnt : ℤ := 5
def ccAi : ℚ := maxWinLen / 1000
def ccG : ℚ := 1 / 256
def ccCwndMin : ℕ := 10
def timeoutTime : BitVec 32 := 1000

/-- `sizeof(netccl_pkt)`: Ethernet, IP and INC headers, and the payload. -/
def sizeofNetcclPkt : ℕ := 14 + 20 + 10 + payloadSize
def sizeofHeaders : ℕ := 14 + 20 + 10

abbrev Byte := BitVec 8

/-- A frame in an `rte_mbuf`, as far as the worker reads or writes it.  The payload is a
sequence of bytes of which the first `PAYLOAD_SIZE` are on the wire. -/
structure Frame where
  inc : Switch.Netccl
  typeOfService : BitVec 8
  pktLen : ℕ
  payload : ℕ → Byte

/-- `pkt_state_t`. -/
structure PktState where
  acked : Bool
  subOp : ℕ
  data : ℕ
  size : ℕ
  psn : BitVec 32
  isLast : Bool
  pkt : Frame

/-- `cc_t`. -/
structure CC where
  cwnd : ℚ
  targetCwnd : ℚ
  lossRatio : ℚ
  prevDecreaseTs : BitVec 32
  prevAdjustTs : BitVec 32
  adjustCnt : ℤ
  deriving DecidableEq

/-- The constructor of `cc_t`. -/
def CC.init : CC := ⟨ccCwndMin, maxWinLen - 1, 0, 0, 0, -ccFastRecoveryCnt⟩

/-- `cc_t::reinit`. -/
def CC.reinit (cc : CC) (now : BitVec 32) : CC :=
  { cc with targetCwnd := cc.cwnd, cwnd := ccCwndMin, prevDecreaseTs := now, prevAdjustTs := now
            adjustCnt := -ccFastRecoveryCnt }

/-- `(win_size_t)cc.cwnd`. -/
def CC.winSize (cc : CC) : ℕ := ⌊cc.cwnd⌋.toNat

/-- `window_t`. -/
structure Window where
  lastAckTimeStamp : BitVec 32
  toSend : ℕ
  toAck : ℕ
  leftPsn : BitVec 32
  rightPsn : BitVec 32
  cc : CC
  state : ℕ → PktState

/-- The static variables of `gen_pkt`. -/
structure GenPkt where
  subOp : Option ℕ
  pktSent : ℕ
  startPsn : BitVec 32
  pktCnt : ℕ

/-- Where `worker_loop` stands.  `send` carries the locals of `shift_send`. -/
inductive Pc
  | top
  | rx
  | tx
  | send (toSend winLen expectWinLen : ℕ)
  | cc
  deriving DecidableEq

/-- The thread: its context, its thread-local variables, and the memory it shares. -/
structure Worker where
  qp : QueuePair ℕ
  heap : List SubOp
  window : Window
  groupCtx : BitVec 8 → BitVec 32
  mem : ℕ → Byte
  globalTs : BitVec 32
  currentSwitchWindowLimit : ℕ
  currentGroupId : BitVec 8
  tosMinitor : BitVec 8
  pktLossFlag : Bool
  cwndAchieved : Bool
  ackCnt : ℕ
  prevAckCnt : ℕ
  prevAckCntCc : ℕ
  gen : GenPkt
  pc : Pc
  assertFailed : Bool

/-- What a step does that another thread, or the network, can see. -/
inductive Event
  | deref (subOp : ℕ)
  | took (subOp : ℕ)
  | built (position : ℕ) (p : PktState)
  | sent (position : ℕ) (f : Frame)
  | accepted (position : ℕ) (p : PktState) (f : Frame)
  | wrote (subOp addr len : ℕ)
  | completed (position : ℕ)
  | pushed (subOp : ℕ)

/-! ## 2. The window -/

/-- `window_tx_empty`. -/
def Window.txEmpty (w : Window) : Bool := w.toAck == w.toSend

/-- `window_len`. -/
def Window.len (w : Window) : ℕ :=
  if w.toAck ≤ w.toSend then w.toSend - w.toAck else maxWinLen + w.toSend - w.toAck

/-- `get_prev_position`. -/
def prevPosition (pos : ℕ) : ℕ := (pos + (maxWinLen - 1)) % maxWinLen

/-- `get_next_position`. -/
def nextPosition (pos : ℕ) : ℕ := (pos + 1) % maxWinLen

/-- The positions from `i` up to `e`, at most `n` of them: the loops over the window run
`MAX_WIN_LEN` rounds at most. -/
def walk : (n i e : ℕ) → List ℕ
  | 0, _, _ => []
  | n + 1, i, e => if i = e then [] else i :: walk n (nextPosition i) e

/-- `has_acked`. -/
def Window.hasAcked (w : Window) (pos : ℕ) : Bool := (w.state pos).acked

/-- `get_position`. -/
def Worker.getPosition (w : Worker) (f : Frame) : ℕ :=
  if w.window.txEmpty || w.currentGroupId != f.inc.groupId then invalidPosition
  else
    let psn := f.inc.psn
    let leftPsn := w.window.leftPsn
    if psn - leftPsn ≤ w.window.rightPsn - leftPsn then
      let position := (psn - leftPsn + BitVec.ofNat 32 w.window.toAck).toNat
      if maxWinLen ≤ position then position - maxWinLen else position
    else invalidPosition

/-- The frame `transmit` hands to the NIC. -/
def Window.transmit (w : Window) (pos : ℕ) : Event := .sent pos (w.state pos).pkt

/-- `transmit_unacked`. -/
def Window.transmitUnacked (w : Window) (i e : ℕ) : List Event :=
  ((walk maxWinLen i e).filter fun pos => !w.hasAcked pos).map w.transmit

/-! ## 3. Receiving -/

/-- `memcpy_htobe32` and `memcpy_be32toh`: every whole word of `src` with its bytes reversed. -/
def memcpyBe32 (dst src : ℕ → Byte) (size : ℕ) : ℕ → Byte :=
  fun i => if i < size / 4 * 4 then src (i / 4 * 4 + (3 - i % 4)) else dst i

/-- `memcpy`. -/
def memcpy (dst src : ℕ → Byte) (size : ℕ) : ℕ → Byte := fun i => if i < size then src i else dst i

/-- Writing through a pointer into memory. -/
def storeAt (mem : ℕ → Byte) (addr : ℕ) (copy : (ℕ → Byte) → ℕ → Byte) : ℕ → Byte :=
  fun a => if addr ≤ a then copy (fun i => mem (addr + i)) (a - addr) else mem a

/-- The sub-op behind a pointer. -/
def Worker.subOp (w : Worker) (ptr : ℕ) : SubOp :=
  w.heap.getD ptr ⟨⟨.allReduce, 0, 0, 0, ⟨0, 0, 0, 0, 0⟩⟩, 0, 0, 0, 0⟩

/-- The loop of `collect_retrans`: how far to the left the packets are unacked. -/
def Window.collectFrom (w : Window) : (n prev : ℕ) → ℕ
  | 0, prev => prev
  | n + 1, prev =>
    if prev = w.toAck then prev
    else if w.hasAcked (prevPosition prev) then prev
    else w.collectFrom n (prevPosition prev)

/-- `collect_retrans`. -/
def Worker.collectRetrans (w : Worker) (position : ℕ) : Worker × List Event :=
  let prev := w.window.collectFrom maxWinLen position
  ({ w with pktLossFlag := true }, (walk maxWinLen prev position).map w.window.transmit)

/-- `mark_acked`. -/
def Worker.markAcked (w : Worker) (position : ℕ) : Worker :=
  { w with
    ackCnt := w.ackCnt + 1
    window := { w.window with
      state := Function.update w.window.state position
        { w.window.state position with acked := true } } }

/-- The part of `rx_process_one` that copies the payload to shared memory.  A frame of the
wrong length is logged and copied all the same. -/
def Worker.copyPayload (w : Worker) (p : PktState) (f : Frame) : Worker × List Event :=
  let op := (w.subOp p.subOp).op
  if needRx op then
    if op.reduces then
      ({ w with mem := storeAt w.mem p.data fun dst => memcpyBe32 dst f.payload p.size },
        [.deref p.subOp, .wrote p.subOp p.data (p.size / 4 * 4)])
    else
      ({ w with mem := storeAt w.mem p.data fun dst => memcpy dst f.payload p.size },
        [.deref p.subOp, .wrote p.subOp p.data p.size])
  else (w, [.deref p.subOp])

/-- `rx_process_one`, once the frame has found an unacked packet. -/
def Worker.acceptAt (w : Worker) (position : ℕ) (f : Frame) : Worker × List Event :=
  let w := w.markAcked position
  let p := w.window.state position
  let (w, copied) := w.copyPayload p f
  let events := .accepted position p f :: copied
  if position = w.window.toAck || w.window.hasAcked (prevPosition position) then (w, events)
  else
    let (w, resent) := w.collectRetrans position
    (w, events ++ resent)

/-- `rx_process_one`. -/
def Worker.rxProcessOne (w : Worker) (f : Frame) : Worker × List Event :=
  let w := { w with tosMinitor := w.tosMinitor ||| f.typeOfService }
  let position := w.getPosition f
  if position = invalidPosition || w.window.hasAcked position then (w, [])
  else w.acceptAt position f

/-- `complete_pkt`. -/
def Worker.completePkt (w : Worker) (p : PktState) : Worker × List Event :=
  if p.isLast then
    match w.qp.pushResp p.subOp with
    | none => ({ w with assertFailed := true }, [])
    | some qp => ({ w with qp }, [.pushed p.subOp])
  else (w, [])

/-- The loop of `shift_ack`, with the local `to_ack`. -/
def Worker.shiftFrom (w : Worker) : (n toAck : ℕ) → Worker × ℕ × List Event
  | 0, toAck => (w, toAck, [])
  | n + 1, toAck =>
    if toAck ≠ w.window.toSend && w.window.hasAcked toAck then
      let (w, completed) := w.completePkt (w.window.state toAck)
      let (w, toAck', rest) := Worker.shiftFrom w n (nextPosition toAck)
      (w, toAck', .completed toAck :: completed ++ rest)
    else (w, toAck, [])

/-- `shift_ack`. -/
def Worker.shiftAck (w : Worker) : Worker × List Event :=
  let (w, toAck, events) := w.shiftFrom maxWinLen w.window.toAck
  let window := { w.window with toAck }
  let leftPsn := if window.txEmpty then 0 else (window.state toAck).pkt.inc.psn
  ({ w with window := { window with leftPsn } }, events)

/-! ## 4. Sending -/

/-- The INC header `fill_pkt` writes.  A sub-op without a slot makes the source divide by zero, and
`%` return the PSN; there is none as long as a group has a slot for each worker
(`PostedTo.aggLen_pos`). -/
def incHdr (s : SubOp) (psn : BitVec 32) : Switch.Netccl where
  collType := s.op.opCode.toByte
  groupId := s.op.group.groupId
  rank := s.op.group.rank
  root := s.op.root
  aggAddr := BitVec.ofNat 16 (s.aggAddr + psn.toNat % s.aggLen)
  psn := psn

/-- `fill_pkt`, which reads the data of the packet from shared memory. -/
def fillPkt (mem : ℕ → Byte) (s : SubOp) (p : PktState) : PktState :=
  let op := s.op
  let inc := incHdr s p.psn
  if needTx op then
    let src := fun i => mem (p.data + i)
    let payload := if op.reduces then memcpyBe32 p.pkt.payload src p.size
      else memcpy p.pkt.payload src p.size
    let payload := fun i => if p.size ≤ i ∧ i < payloadSize then 0 else payload i
    { p with pkt := { p.pkt with inc, payload, pktLen := sizeofNetcclPkt } }
  else { p with pkt := { p.pkt with inc, pktLen := sizeofHeaders } }

/-- The number of packets of a sub-op: one even when it is empty. -/
def pktCount (s : SubOp) : ℕ :=
  let pktCnt := (s.size + payloadSize - 1) / payloadSize
  if pktCnt = 0 then 1 else pktCnt

/-- `gen_pkt` turning to a sub-op: its group becomes the current one and gives it PSNs. -/
def Worker.turnTo (w : Worker) (ptr : ℕ) : Worker :=
  let s := w.subOp ptr
  let groupId := s.op.group.groupId
  let startPsn := w.groupCtx groupId
  let pktCnt := pktCount s
  { w with
    currentGroupId := groupId
    currentSwitchWindowLimit := s.aggLen / 2
    gen := ⟨some ptr, 0, startPsn, pktCnt⟩
    groupCtx := Function.update w.groupCtx groupId (startPsn + BitVec.ofNat 32 pktCnt) }

/-- The first part of `gen_pkt`: looking for the next sub-op in the queue. -/
def Worker.nextSubOp (w : Worker) : Option Worker × List Event :=
  match w.qp.frontReq with
  | none => (none, [])
  | some ptr =>
    let s := w.subOp ptr
    let groupId := s.op.group.groupId
    if w.currentGroupId ≠ groupId ∧ w.window.txEmpty = false then (none, [.deref ptr])
    else (some (w.turnTo ptr), [.deref ptr, .took ptr])

/-- The next packet of the current sub-op, as `gen_pkt` fills it in at a position. -/
def Worker.nextPkt (w : Worker) (position ptr : ℕ) : PktState :=
  let s := w.subOp ptr
  let sizeSent := w.gen.pktSent * payloadSize
  fillPkt w.mem s
    { acked := false, subOp := ptr, data := s.data + sizeSent
      size := min payloadSize (s.size - sizeSent)
      psn := w.gen.startPsn + BitVec.ofNat 32 w.gen.pktSent
      isLast := decide (w.gen.pktSent + 1 = w.gen.pktCnt)
      pkt := (w.window.state position).pkt }

/-- Putting a packet into the window, and stepping the static variables past it. -/
def Worker.putPkt (w : Worker) (position ptr : ℕ) (p : PktState) : Worker :=
  { w with
    window := { w.window with state := Function.update w.window.state position p }
    gen := { w.gen with
      pktSent := w.gen.pktSent + 1
      subOp := if p.isLast then none else some ptr }
    qp := if p.isLast then w.qp.popReq else w.qp }

/-- The rest of `gen_pkt`. -/
def Worker.buildPkt (w : Worker) (position ptr : ℕ) : Worker × List Event :=
  let p := w.nextPkt position ptr
  (w.putPkt position ptr p, [.deref ptr, .built position p])

/-- `gen_pkt`: the worker after it, and whether it returned `true`. -/
def Worker.genPkt (w : Worker) (position : ℕ) : Worker × Bool × List Event :=
  match w.gen.subOp with
  | some ptr =>
    let (w, events) := w.buildPkt position ptr
    (w, true, events)
  | none =>
    match w.nextSubOp with
    | (none, events) => (w, false, events)
    | (some w, events) =>
      let (w, built) := w.buildPkt position (w.gen.subOp.getD 0)
      (w, true, events ++ built)

/-- `full_retrans`. -/
def Worker.fullRetrans (w : Worker) : Worker × List Event :=
  if w.window.txEmpty then (w, [])
  else
    ({ w with window := { w.window with
        lastAckTimeStamp := w.globalTs, cc := w.window.cc.reinit w.globalTs } },
      w.window.transmitUnacked w.window.toAck w.window.toSend)

/-- `tx_process` up to the loop of `shift_send`. -/
def Worker.startTx (w : Worker) : Worker × List Event :=
  let w := if w.ackCnt ≠ w.prevAckCnt then
      { w with prevAckCnt := w.ackCnt
               window := { w.window with lastAckTimeStamp := w.globalTs } }
    else w
  let (w, resent) :=
    if timeoutTime ≤ w.globalTs - w.window.lastAckTimeStamp then w.fullRetrans else (w, [])
  let winLen := w.window.len
  let expectWinLen := min (maxWinLen - 1) (min w.currentSwitchWindowLimit
    (min w.window.cc.winSize (winLen + maxPktBurst)))
  ({ w with pc := .send w.window.toSend winLen expectWinLen }, resent)

/-- What follows the loop of `shift_send`, to the end of `tx_process`. -/
def Worker.endTx (w : Worker) (toSend winLen : ℕ) : Worker :=
  let cwndAchieved := if w.window.cc.winSize ≤ winLen then true else w.cwndAchieved
  let window := { w.window with toSend }
  let rightPsn := if window.txEmpty then 0 else (window.state (prevPosition toSend)).pkt.inc.psn
  let lastAckTimeStamp := if window.txEmpty then w.globalTs else window.lastAckTimeStamp
  { w with cwndAchieved, window := { window with rightPsn, lastAckTimeStamp }, pc := .cc }

/-- One round of the loop of `shift_send`, or its end. -/
def Worker.sendOne (w : Worker) (toSend winLen expectWinLen : ℕ) : Worker × List Event :=
  if winLen < expectWinLen then
    match w.genPkt toSend with
    | (w, false, events) => (w.endTx toSend winLen, events)
    | (w, true, events) =>
      let leftPsn := if winLen = 0 then (w.window.state w.window.toAck).pkt.inc.psn
        else w.window.leftPsn
      ({ w with
          window := { w.window with leftPsn }
          pc := .send (nextPosition toSend) (winLen + 1) expectWinLen },
        events ++ [w.window.transmit toSend])
  else (w.endTx toSend winLen, [])

/-! ## 5. Congestion control -/

/-- `adjust_rate`. -/
def Worker.adjustRate (w : Worker) (congestion : Bool) : Worker :=
  let cc := w.window.cc
  let cc :=
    if congestion then
      let lossRatio := (1 - ccG) * cc.lossRatio + ccG
      { cc with lossRatio, targetCwnd := cc.cwnd, cwnd := cc.cwnd * (1 - lossRatio / 2)
                adjustCnt := -ccFastRecoveryCnt }
    else
      let cc := { cc with lossRatio := (1 - ccG) * cc.lossRatio }
      if w.cwndAchieved then
        let targetCwnd := if 0 ≤ cc.adjustCnt then cc.targetCwnd + ccAi else cc.targetCwnd
        { cc with targetCwnd, adjustCnt := cc.adjustCnt + 1, cwnd := (targetCwnd + cc.cwnd) / 2 }
      else cc
  let cc := if cc.cwnd < (ccCwndMin : ℚ) then { cc with cwnd := ccCwndMin } else cc
  { w with cwndAchieved := false, window := { w.window with cc } }

/-- `congestion_control`. -/
def Worker.congestionControl (w : Worker) : Worker :=
  let setCC (w : Worker) (f : CC → CC) := { w with window := { w.window with cc := f w.window.cc } }
  if w.globalTs - w.window.cc.prevDecreaseTs < ccReactionTime then w
  else if w.ackCnt = w.prevAckCntCc then w
  else if w.tosMinitor &&& 0x3 ≠ 0x3 ∧ w.pktLossFlag = false then
    if w.globalTs - w.window.cc.prevAdjustTs < ccReactionTime then w
    else
      let w := setCC (w.adjustRate false) fun cc => { cc with prevAdjustTs := w.globalTs }
      { w with prevAckCntCc := w.ackCnt }
  else
    let w := setCC (w.adjustRate true) fun cc =>
      { cc with prevDecreaseTs := w.globalTs, prevAdjustTs := w.globalTs }
    { w with tosMinitor := 0, pktLossFlag := false, prevAckCntCc := w.ackCnt }

/-! ## 6. Steps -/

/-- The steps of the thread, and those of the others on what they share with it. -/
inductive Label
  | loopTop (ts : BitVec 32)
  | receive (f : Frame)
  | endRx
  | startTx
  | sendOne
  | congestion
  | pushReq (s : SubOp)
  | popResp
  | store (addr : ℕ) (b : Byte)

/-- One step; `none` when the label is not enabled.  The load balancer's `pushReq` and
`popResp` are enabled when `push_req` accepts and `front_resp` finds an answer. -/
def Worker.step (w : Worker) : Label → Option (Worker × List Event)
  | .loopTop ts => if w.pc = .top then some ({ w with globalTs := ts, pc := .rx }, []) else none
  | .receive f => if w.pc = .rx then some (w.rxProcessOne f) else none
  | .endRx =>
    if w.pc = .rx then
      let (w, events) := w.shiftAck
      some ({ w with pc := .tx }, events)
    else none
  | .startTx => if w.pc = .tx then some w.startTx else none
  | .sendOne =>
    match w.pc with
    | .send toSend winLen expectWinLen => some (w.sendOne toSend winLen expectWinLen)
    | _ => none
  | .congestion => if w.pc = .cc then some ({ w.congestionControl with pc := .top }, []) else none
  | .pushReq s =>
    match w.qp.pushReq w.heap.length with
    | some (true, qp) => some ({ w with qp, heap := w.heap ++ [s] }, [])
    | _ => none
  | .popResp =>
    match w.qp.frontResp with
    | some _ => some ({ w with qp := w.qp.popResp }, [])
    | none => none
  | .store addr b => some ({ w with mem := Function.update w.mem addr b }, [])

/-- A worker thread as it starts: shared memory, the frames its window was prefilled with,
and the PSN counters of the groups, all zero when the process starts. -/
def Worker.init (mem : ℕ → Byte) (pkt : ℕ → Frame) (groupCtx : BitVec 8 → BitVec 32) :
    Worker where
  qp := .empty
  heap := []
  window :=
    { lastAckTimeStamp := 0, toSend := 0, toAck := 0, leftPsn := 0, rightPsn := 0, cc := .init
      state := fun i => ⟨false, 0, 0, 0, 0, false, pkt i⟩ }
  groupCtx
  mem
  globalTs := 0
  currentSwitchWindowLimit := ccCwndMin
  currentGroupId := 0
  tosMinitor := 0
  pktLossFlag := false
  cwndAchieved := false
  ackCnt := 0
  prevAckCnt := 0
  prevAckCntCc := 0
  gen := ⟨none, 0, 0, 0⟩
  pc := .top
  assertFailed := false

/-! ## 7. Runs -/

/-- A worker and everything it has done. -/
structure Run where
  worker : Worker
  log : List Event

/-- A run that has not begun. -/
def Run.Init (ctx : BitVec 8 → BitVec 32) (r : Run) : Prop :=
  (∃ mem pkt, r.worker = .init mem pkt ctx) ∧ r.log = []

/-- One more step of a run. -/
def Run.Step (r : Run) (l : Label) (r' : Run) : Prop :=
  ∃ events, r.worker.step l = some (r'.worker, events) ∧ r'.log = r.log ++ events

/-- The packets built. -/
def built (log : List Event) : List PktState :=
  log.filterMap fun | .built _ p => some p | _ => none

/-- The sub-ops taken from the queue. -/
def took (log : List Event) : List ℕ :=
  log.filterMap fun | .took ptr => some ptr | _ => none

/-- The answers pushed. -/
def pushed (log : List Event) : List ℕ :=
  log.filterMap fun | .pushed ptr => some ptr | _ => none

/-- The packets whose response was accepted, with the response. -/
def accepted (log : List Event) : List (PktState × Frame) :=
  log.filterMap fun | .accepted _ p f => some (p, f) | _ => none

/-- The writes into shared memory: for which sub-op, from which address, how many bytes. -/
def wrote (log : List Event) : List (ℕ × ℕ × ℕ) :=
  log.filterMap fun | .wrote ptr addr len => some (ptr, addr, len) | _ => none

/-- The number of packets shifted out of the window. -/
def completed (log : List Event) : ℕ :=
  log.countP fun | .completed _ => true | _ => false

end NetCCL.Backend
