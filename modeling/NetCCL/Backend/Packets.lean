/-
# The packets a worker builds

`gen_pkt` keeps its place in the stream of sub-ops in static variables, and counts PSNs per
group.  `cuts` says what it is supposed to produce, as a function of the stream alone: every
sub-op gives its packets in order, with the PSNs that follow those of the sub-ops of the same
group before it.

`Cursor` ties the static variables to a place in `cuts`, and `cursor_reach` is the result:
in EVERY run, whatever the window, the network and the other threads do, what the worker has
built is the beginning of `cuts`.  Only two steps touch the cursor; `step_sameQueue` disposes
of the others.
-/
import NetCCL.Backend.Worker
import NetCCL.Lib.Reach
import Mathlib.Algebra.BigOperators.Group.List.Basic

namespace NetCCL.Backend

open Lib

/-! ## 1. The cut of a stream of sub-ops -/

/-- A packet without the bytes it was filled with. -/
structure Cut where
  subOp : ℕ
  data : ℕ
  size : ℕ
  psn : BitVec 32
  isLast : Bool
  deriving DecidableEq

def PktState.cut (p : PktState) : Cut := ⟨p.subOp, p.data, p.size, p.psn, p.isLast⟩

/-- Packet `j` of a sub-op whose first PSN is `start`. -/
def cutAt (ptr : ℕ) (s : SubOp) (start : BitVec 32) (j : ℕ) : Cut where
  subOp := ptr
  data := s.data + j * payloadSize
  size := min payloadSize (s.size - j * payloadSize)
  psn := start + BitVec.ofNat 32 j
  isLast := decide (j + 1 = pktCount s)

/-- The packets of a sub-op. -/
def cutSubOp (ptr : ℕ) (s : SubOp) (start : BitVec 32) : List Cut :=
  (List.range (pktCount s)).map (cutAt ptr s start)

/-- How many packets a group has had after these sub-ops. -/
def pktsOf (l : List SubOp) (g : BitVec 8) : ℕ :=
  ((l.filter fun s => s.op.group.groupId = g).map pktCount).sum

variable (ctx : BitVec 8 → BitVec 32)

/-- The next PSN of a group after these sub-ops, from the counters `ctx` on. -/
def psnAfter (l : List SubOp) (g : BitVec 8) : BitVec 32 := ctx g + BitVec.ofNat 32 (pktsOf l g)

/-- The packets of a stream of sub-ops that follows `prior`. -/
def cutsFrom (prior : List SubOp) : List SubOp → List Cut
  | [] => []
  | s :: rest =>
    cutSubOp prior.length s (psnAfter ctx prior s.op.group.groupId) ++
      cutsFrom (prior ++ [s]) rest

/-- The packets of a stream of sub-ops. -/
def cuts (heap : List SubOp) : List Cut := cutsFrom ctx [] heap

theorem pktCount_pos (s : SubOp) : 0 < pktCount s := by
  simp only [pktCount]
  split
  · exact Nat.one_pos
  · exact Nat.pos_of_ne_zero ‹_›

@[simp] theorem cutSubOp_length (ptr : ℕ) (s : SubOp) (start : BitVec 32) :
    (cutSubOp ptr s start).length = pktCount s := by
  simp [cutSubOp]

/-- Taking one packet more. -/
theorem cutSubOp_take_succ (ptr : ℕ) (s : SubOp) (start : BitVec 32) {j : ℕ}
    (hj : j < pktCount s) :
    (cutSubOp ptr s start).take (j + 1) = (cutSubOp ptr s start).take j ++ [cutAt ptr s start j] := by
  rw [List.take_succ_eq_append_getElem (by simpa using hj)]
  simp [cutSubOp]

theorem cutsFrom_append (prior l₁ l₂ : List SubOp) :
    cutsFrom ctx prior (l₁ ++ l₂) = cutsFrom ctx prior l₁ ++ cutsFrom ctx (prior ++ l₁) l₂ := by
  induction l₁ generalizing prior with
  | nil => simp [cutsFrom]
  | cons s l₁ ih => simp [cutsFrom, ih]

theorem cuts_concat (l : List SubOp) (s : SubOp) :
    cuts ctx (l ++ [s]) =
      cuts ctx l ++ cutSubOp l.length s (psnAfter ctx l s.op.group.groupId) := by
  simp [cuts, cutsFrom_append, cutsFrom]

/-- A longer stream begins with the packets of a shorter one. -/
theorem cuts_mono (l₁ l₂ : List SubOp) : cuts ctx l₁ <+: cuts ctx (l₁ ++ l₂) := by
  rw [cuts, cuts, cutsFrom_append]
  exact List.prefix_append _ _

theorem psnAfter_concat (l : List SubOp) (s : SubOp) (g : BitVec 8) :
    psnAfter ctx (l ++ [s]) g =
      psnAfter ctx l g + if s.op.group.groupId = g then BitVec.ofNat 32 (pktCount s) else 0 := by
  simp only [psnAfter, pktsOf, List.filter_append, List.map_append, List.sum_append,
    List.filter_cons, List.filter_nil, decide_eq_true_eq]
  split
  · simp [BitVec.ofNat_add, BitVec.add_assoc]
  · simp

theorem mem_cutSubOp {ptr : ℕ} {s : SubOp} {start : BitVec 32} {c : Cut}
    (h : c ∈ cutSubOp ptr s start) : ∃ j < pktCount s, c = cutAt ptr s start j := by
  obtain ⟨j, hj, rfl⟩ := List.mem_map.mp h
  exact ⟨j, List.mem_range.mp hj, rfl⟩

variable {ctx} in
theorem cuts_subOp_lt {l : List SubOp} {c : Cut} (h : c ∈ cuts ctx l) : c.subOp < l.length := by
  induction l using List.reverseRecOn with
  | nil => exact absurd h List.not_mem_nil
  | append_singleton l s ih =>
    rw [cuts_concat] at h
    rw [List.length_append, List.length_singleton]
    rcases List.mem_append.mp h with h | h
    · exact Nat.lt_succ_of_lt (ih h)
    · obtain ⟨j, -, rfl⟩ := mem_cutSubOp h
      exact Nat.lt_succ_self _

/-- The sub-op a packet is the last of. -/
def Cut.lastOf (c : Cut) : Option ℕ := if c.isLast then some c.subOp else none

/-- A beginning of a sub-op's packets. -/
theorem cutSubOp_take (ptr : ℕ) (s : SubOp) (start : BitVec 32) {j : ℕ} (hj : j ≤ pktCount s) :
    (cutSubOp ptr s start).take j = (List.range j).map (cutAt ptr s start) := by
  rw [cutSubOp, ← List.map_take, List.take_range, Nat.min_eq_left hj]

/-- Before the end of a sub-op, none of its packets is the last. -/
theorem cutSubOp_take_lastOf (ptr : ℕ) (s : SubOp) (start : BitVec 32) {j : ℕ}
    (hj : j < pktCount s) : ((cutSubOp ptr s start).take j).filterMap Cut.lastOf = [] := by
  rw [cutSubOp_take _ _ _ (Nat.le_of_lt hj)]
  refine List.filterMap_eq_nil_iff.mpr fun c hc => ?_
  obtain ⟨i, hi, rfl⟩ := List.mem_map.mp hc
  have hne : i + 1 ≠ pktCount s := Nat.ne_of_lt (Nat.lt_of_le_of_lt (List.mem_range.mp hi) hj)
  exact if_neg (by simpa [cutAt] using hne)

/-- A sub-op has one last packet. -/
theorem cutSubOp_lastOf (ptr : ℕ) (s : SubOp) (start : BitVec 32) :
    (cutSubOp ptr s start).filterMap Cut.lastOf = [ptr] := by
  obtain ⟨m, hm⟩ := Nat.exists_eq_succ_of_ne_zero (Nat.ne_of_gt (pktCount_pos s))
  have hlt : m < pktCount s := hm ▸ Nat.lt_succ_self m
  have hfull : (cutSubOp ptr s start).take (m + 1) = cutSubOp ptr s start :=
    List.take_of_length_le (by rw [cutSubOp_length]; exact Nat.le_of_eq hm)
  rw [← hfull, cutSubOp_take_succ _ _ _ hlt, List.filterMap_append, cutSubOp_take_lastOf _ _ _ hlt]
  simp [Cut.lastOf, cutAt, hm]

/-- The last packets of a stream name its sub-ops in order. -/
theorem cuts_lastOf (l : List SubOp) : (cuts ctx l).filterMap Cut.lastOf = List.range l.length := by
  induction l using List.reverseRecOn with
  | nil => rfl
  | append_singleton l s ih =>
    rw [cuts_concat, List.filterMap_append, ih, cutSubOp_lastOf, List.length_append,
      List.length_singleton, List.range_succ]

/-! ## 2. Steps that leave the cursor alone -/

/-- Same stream, same place in it. -/
structure SameQueue (w w' : Worker) : Prop where
  heap : w'.heap = w.heap
  wq : w'.qp.wq = w.qp.wq
  gen : w'.gen = w.gen
  groupCtx : w'.groupCtx = w.groupCtx
  group : w'.currentGroupId = w.currentGroupId
  limit : w'.currentSwitchWindowLimit = w.currentSwitchWindowLimit

theorem SameQueue.refl (w : Worker) : SameQueue w w := ⟨rfl, rfl, rfl, rfl, rfl, rfl⟩

theorem SameQueue.trans {w₁ w₂ w₃ : Worker} (h : SameQueue w₁ w₂) (h' : SameQueue w₂ w₃) :
    SameQueue w₁ w₃ :=
  ⟨h'.heap.trans h.heap, h'.wq.trans h.wq, h'.gen.trans h.gen, h'.groupCtx.trans h.groupCtx,
    h'.group.trans h.group, h'.limit.trans h.limit⟩

@[simp] theorem built_append (l₁ l₂ : List Event) : built (l₁ ++ l₂) = built l₁ ++ built l₂ :=
  List.filterMap_append

@[simp] theorem took_append (l₁ l₂ : List Event) : took (l₁ ++ l₂) = took l₁ ++ took l₂ :=
  List.filterMap_append

/-- Neither built nor taken. -/
def Quiet (events : List Event) : Prop := built events = [] ∧ took events = []

theorem Quiet.append {l₁ l₂ : List Event} (h₁ : Quiet l₁) (h₂ : Quiet l₂) : Quiet (l₁ ++ l₂) := by
  simp [Quiet, h₁.1, h₁.2, h₂.1, h₂.2]

theorem quiet_transmit (win : Window) (l : List ℕ) : Quiet (l.map win.transmit) := by
  constructor <;> simp [built, took, Window.transmit, List.filterMap_map, Function.comp_def]

theorem copyPayload_sameQueue (w : Worker) (p : PktState) (f : Frame) :
    SameQueue w (w.copyPayload p f).1 ∧ Quiet (w.copyPayload p f).2 := by
  simp only [Worker.copyPayload]
  split
  · split <;> exact ⟨⟨rfl, rfl, rfl, rfl, rfl, rfl⟩, rfl, rfl⟩
  · exact ⟨.refl w, rfl, rfl⟩

theorem acceptAt_sameQueue (w : Worker) (pos : ℕ) (f : Frame) :
    SameQueue w (w.acceptAt pos f).1 ∧ Quiet (w.acceptAt pos f).2 := by
  have h₁ : SameQueue w (w.markAcked pos) := ⟨rfl, rfl, rfl, rfl, rfl, rfl⟩
  obtain ⟨h₂, hq⟩ := copyPayload_sameQueue (w.markAcked pos) ((w.markAcked pos).window.state pos) f
  have haccept : Quiet [Event.accepted pos ((w.markAcked pos).window.state pos) f] := ⟨rfl, rfl⟩
  simp only [Worker.acceptAt]
  split
  · exact ⟨h₁.trans h₂, haccept.append hq⟩
  · exact ⟨(h₁.trans h₂).trans ⟨rfl, rfl, rfl, rfl, rfl, rfl⟩,
      (haccept.append hq).append (quiet_transmit _ _)⟩

theorem rxProcessOne_sameQueue (w : Worker) (f : Frame) :
    SameQueue w (w.rxProcessOne f).1 ∧ Quiet (w.rxProcessOne f).2 := by
  have h₁ : SameQueue w { w with tosMinitor := w.tosMinitor ||| f.typeOfService } :=
    ⟨rfl, rfl, rfl, rfl, rfl, rfl⟩
  simp only [Worker.rxProcessOne]
  split
  · exact ⟨h₁, rfl, rfl⟩
  · obtain ⟨h₂, hq⟩ := acceptAt_sameQueue _ _ f
    exact ⟨h₁.trans h₂, hq⟩

theorem completePkt_sameQueue (w : Worker) (p : PktState) :
    SameQueue w (w.completePkt p).1 ∧ Quiet (w.completePkt p).2 := by
  simp only [Worker.completePkt]
  split
  · simp only [QueuePair.pushResp]
    split
    · exact ⟨⟨rfl, rfl, rfl, rfl, rfl, rfl⟩, rfl, rfl⟩
    · rename_i hresp
      split at hresp
      · exact absurd hresp (by simp)
      · obtain rfl := Option.some.inj hresp
        exact ⟨⟨rfl, rfl, rfl, rfl, rfl, rfl⟩, rfl, rfl⟩
  · exact ⟨.refl w, rfl, rfl⟩

theorem shiftFrom_sameQueue (n : ℕ) : ∀ (w : Worker) (toAck : ℕ),
    SameQueue w (w.shiftFrom n toAck).1 ∧ Quiet (w.shiftFrom n toAck).2.2 := by
  induction n with
  | zero => exact fun w _ => ⟨.refl w, rfl, rfl⟩
  | succ n ih =>
    intro w toAck
    simp only [Worker.shiftFrom]
    split
    · obtain ⟨h₁, hq₁⟩ := completePkt_sameQueue w (w.window.state toAck)
      obtain ⟨h₂, hq₂⟩ := ih (w.completePkt (w.window.state toAck)).1 (nextPosition toAck)
      have hdone : Quiet [Event.completed toAck] := ⟨rfl, rfl⟩
      exact ⟨h₁.trans h₂, hdone.append (hq₁.append hq₂)⟩
    · exact ⟨.refl w, rfl, rfl⟩

theorem startTx_sameQueue (w : Worker) :
    SameQueue w w.startTx.1 ∧ Quiet w.startTx.2 := by
  simp only [Worker.startTx, Worker.fullRetrans, Window.transmitUnacked]
  split <;> split <;> (try split) <;>
    first
    | exact ⟨⟨rfl, rfl, rfl, rfl, rfl, rfl⟩, rfl, rfl⟩
    | exact ⟨⟨rfl, rfl, rfl, rfl, rfl, rfl⟩, quiet_transmit _ _⟩

theorem congestionControl_sameQueue (w : Worker) : SameQueue w w.congestionControl := by
  simp only [Worker.congestionControl, Worker.adjustRate]
  split
  · exact .refl w
  split
  · exact .refl w
  split
  · split
    · exact .refl w
    · exact ⟨rfl, rfl, rfl, rfl, rfl, rfl⟩
  · exact ⟨rfl, rfl, rfl, rfl, rfl, rfl⟩

/-- **All steps but two leave the cursor alone.** -/
theorem step_sameQueue {w w' : Worker} {l : Label} {events : List Event}
    (h : w.step l = some (w', events)) (hsend : l ≠ .sendOne) (hpush : ∀ s, l ≠ .pushReq s) :
    SameQueue w w' ∧ Quiet events := by
  cases l with
  | loopTop ts =>
    simp only [Worker.step] at h
    split at h
    · obtain ⟨rfl, rfl⟩ := Prod.mk.inj (Option.some.inj h)
      exact ⟨⟨rfl, rfl, rfl, rfl, rfl, rfl⟩, rfl, rfl⟩
    · exact absurd h (by simp)
  | receive f =>
    simp only [Worker.step] at h
    split at h
    · have h := Option.some.inj h
      have := rxProcessOne_sameQueue w f
      rwa [h] at this
    · exact absurd h (by simp)
  | endRx =>
    simp only [Worker.step, Worker.shiftAck] at h
    split at h
    · obtain ⟨rfl, rfl⟩ := Prod.mk.inj (Option.some.inj h)
      obtain ⟨hs, hq⟩ := shiftFrom_sameQueue maxWinLen w w.window.toAck
      exact ⟨hs.trans ⟨rfl, rfl, rfl, rfl, rfl, rfl⟩, hq⟩
    · exact absurd h (by simp)
  | startTx =>
    simp only [Worker.step] at h
    split at h
    · have h := Option.some.inj h
      have := startTx_sameQueue w
      rwa [h] at this
    · exact absurd h (by simp)
  | sendOne => exact absurd rfl hsend
  | congestion =>
    simp only [Worker.step] at h
    split at h
    · obtain ⟨rfl, rfl⟩ := Prod.mk.inj (Option.some.inj h)
      exact ⟨(congestionControl_sameQueue w).trans ⟨rfl, rfl, rfl, rfl, rfl, rfl⟩, rfl, rfl⟩
    · exact absurd h (by simp)
  | pushReq s => exact absurd rfl (hpush s)
  | popResp =>
    simp only [Worker.step] at h
    split at h
    · obtain ⟨rfl, rfl⟩ := Prod.mk.inj (Option.some.inj h)
      exact ⟨⟨rfl, rfl, rfl, rfl, rfl, rfl⟩, rfl, rfl⟩
    · exact absurd h (by simp)
  | store addr b =>
    obtain ⟨rfl, rfl⟩ := Prod.mk.inj (Option.some.inj h)
    exact ⟨⟨rfl, rfl, rfl, rfl, rfl, rfl⟩, rfl, rfl⟩

/-! ## 3. The cursor -/

/-- The packets of sub-op `k` of the stream. -/
def Worker.cutsOf (w : Worker) (k : ℕ) : List Cut :=
  cutSubOp k (w.subOp k) (psnAfter ctx (w.heap.take k) (w.subOp k).op.group.groupId)

/-- The static variables stand inside sub-op `k`, of which `sent` packets are built. -/
structure Started (w : Worker) (k sent : ℕ) : Prop where
  lt : k < w.heap.length
  sent_lt : sent < pktCount (w.subOp k)
  gen : w.gen = ⟨some k, sent, psnAfter ctx (w.heap.take k) (w.subOp k).op.group.groupId,
    pktCount (w.subOp k)⟩
  groupCtx : ∀ g, w.groupCtx g = psnAfter ctx (w.heap.take (k + 1)) g
  group : w.currentGroupId = (w.subOp k).op.group.groupId
  limit : w.currentSwitchWindowLimit = (w.subOp k).aggLen / 2

/-- What the queue and the log say when `k` sub-ops are built, and `sent` packets of the next. -/
structure Behind (r : Run) (k sent : ℕ) : Prop where
  le : k ≤ r.worker.heap.length
  wq : r.worker.qp.wq = List.range' k (r.worker.heap.length - k)
  built : (built r.log).map PktState.cut =
    cuts ctx (r.worker.heap.take k) ++ (r.worker.cutsOf ctx k).take sent
  header : ∀ p ∈ Backend.built r.log, p.acked = false ∧ p.subOp < r.worker.heap.length ∧
    p.pkt.inc = incHdr (r.worker.subOp p.subOp) p.psn

/-- `k` sub-ops are built completely, and `sent` packets of the next. -/
structure Cursor (r : Run) (k sent : ℕ) : Prop extends Behind ctx r k sent where
  took : took r.log = List.range (if r.worker.gen.subOp = none then k else k + 1)
  statics : (r.worker.gen.subOp = none ∧ sent = 0 ∧
      ∀ g, r.worker.groupCtx g = psnAfter ctx (r.worker.heap.take k) g) ∨
    (0 < sent ∧ Started ctx r.worker k sent)

variable {ctx}

theorem Worker.subOp_eq {w : Worker} {k : ℕ} (h : k < w.heap.length) : w.subOp k = w.heap[k] := by
  simp [Worker.subOp, h]

theorem Worker.subOp_congr {w w' : Worker} (h : w'.heap = w.heap) (ptr : ℕ) :
    w'.subOp ptr = w.subOp ptr := by
  rw [Worker.subOp, Worker.subOp, h]

theorem Worker.cutsOf_congr {w w' : Worker} (h : w'.heap = w.heap) (k : ℕ) :
    w'.cutsOf ctx k = w.cutsOf ctx k := by
  rw [Worker.cutsOf, Worker.cutsOf, Worker.subOp_congr h, h]

/-- The packets of the first `k + 1` sub-ops. -/
theorem cuts_take_succ {w : Worker} {k : ℕ} (hk : k < w.heap.length) :
    cuts ctx (w.heap.take (k + 1)) = cuts ctx (w.heap.take k) ++ w.cutsOf ctx k := by
  rw [List.take_succ_eq_append_getElem hk, cuts_concat, List.length_take_of_le (Nat.le_of_lt hk),
    Worker.cutsOf, Worker.subOp_eq hk]

theorem psnAfter_take_succ {w : Worker} {k : ℕ} (hk : k < w.heap.length) (g : BitVec 8) :
    psnAfter ctx (w.heap.take (k + 1)) g = psnAfter ctx (w.heap.take k) g +
      if (w.subOp k).op.group.groupId = g then BitVec.ofNat 32 (pktCount (w.subOp k)) else 0 := by
  rw [List.take_succ_eq_append_getElem hk, psnAfter_concat, Worker.subOp_eq hk]

/-- What was built is the beginning of what the stream cuts into. -/
theorem Cursor.built_cuts {r : Run} {k sent : ℕ} (h : Cursor ctx r k sent) :
    (Backend.built r.log).map PktState.cut <+: cuts ctx r.worker.heap := by
  rw [h.built]
  rcases Nat.lt_or_ge k r.worker.heap.length with hk | hk
  · have h1 : cuts ctx (r.worker.heap.take k) ++ (r.worker.cutsOf ctx k).take sent <+:
        cuts ctx (r.worker.heap.take (k + 1)) := by
      rw [cuts_take_succ hk]
      exact (List.prefix_append_right_inj _).mpr (List.take_prefix _ _)
    have h2 := cuts_mono ctx (r.worker.heap.take (k + 1)) (r.worker.heap.drop (k + 1))
    rw [List.take_append_drop] at h2
    exact h1.trans h2
  · obtain ⟨-, rfl, -⟩ | ⟨-, hst⟩ := h.statics
    · rw [List.take_zero, List.append_nil, List.take_of_length_le hk]
    · exact absurd hst.lt (Nat.not_lt.mpr hk)

/-- The sub-op a packet is the last of. -/
def PktState.lastOf (p : PktState) : Option ℕ := if p.isLast then some p.subOp else none

theorem filterMap_lastOf (l : List PktState) :
    l.filterMap PktState.lastOf = (l.map PktState.cut).filterMap Cut.lastOf := by
  rw [List.filterMap_map]; rfl

/-- The sub-ops built completely. -/
theorem Cursor.built_lastOf {r : Run} {k sent : ℕ} (h : Cursor ctx r k sent) :
    (Backend.built r.log).filterMap PktState.lastOf = List.range k := by
  rw [filterMap_lastOf, h.built, List.filterMap_append, cuts_lastOf, List.length_take_of_le h.le]
  obtain ⟨-, rfl, -⟩ | ⟨-, hst⟩ := h.statics
  · simp
  · rw [Worker.cutsOf, cutSubOp_take_lastOf _ _ _ hst.sent_lt, List.append_nil]

/-- A run that has not begun. -/
theorem Cursor.init {r : Run} (h : r.Init ctx) : Cursor ctx r 0 0 := by
  obtain ⟨⟨mem, pkt, hw⟩, hlog⟩ := h
  refine ⟨⟨Nat.zero_le _, ?_, ?_, ?_⟩, ?_, Or.inl ⟨?_, rfl, fun g => ?_⟩⟩ <;>
    simp [hw, hlog, Worker.init, QueuePair.empty, Backend.built, Backend.took, cuts, cutsFrom,
      psnAfter, pktsOf]

/-- A step that leaves the queue and the statics alone leaves the cursor where it is. -/
theorem Cursor.same {r r' : Run} {k sent : ℕ} (h : Cursor ctx r k sent) {events : List Event}
    (hs : SameQueue r.worker r'.worker) (hq : Quiet events) (hlog : r'.log = r.log ++ events) :
    Cursor ctx r' k sent := by
  have hsub := Worker.subOp_congr hs.heap
  refine ⟨⟨by rw [hs.heap]; exact h.le, by rw [hs.wq, hs.heap]; exact h.wq, ?_, ?_⟩, ?_, ?_⟩
  · rw [hlog, built_append, hq.1, List.append_nil, hs.heap, Worker.cutsOf_congr hs.heap]
    exact h.built
  · rw [hlog, built_append, hq.1, List.append_nil, hs.heap]
    simpa only [hsub] using h.header
  · rw [hlog, took_append, hq.2, List.append_nil, hs.gen]
    exact h.took
  · rw [hs.gen, hs.groupCtx, hs.heap]
    refine h.statics.imp_right fun ⟨hpos, hst⟩ => ⟨hpos, ?_⟩
    exact ⟨by rw [hs.heap]; exact hst.lt, by rw [hsub]; exact hst.sent_lt,
      by rw [hs.gen, hs.heap, hsub]; exact hst.gen, by rw [hs.groupCtx, hs.heap]; exact hst.groupCtx,
      by rw [hs.group, hsub]; exact hst.group, by rw [hs.limit, hsub]; exact hst.limit⟩

/-- What the load balancer's `push_req` does when it is enabled. -/
theorem step_pushReq {w w' : Worker} {s : SubOp} {events : List Event}
    (h : w.step (.pushReq s) = some (w', events)) :
    events = [] ∧ w.qp.numInQueue ≠ queueSize ∧ w' = { w with
      qp := { w.qp with wq := w.qp.wq ++ [w.heap.length], numInQueue := w.qp.numInQueue + 1 }
      heap := w.heap ++ [s] } := by
  simp only [Worker.step, QueuePair.pushReq] at h
  split at h
  · rename_i qp hq
    split at hq
    · exact absurd hq (by simp)
    split at hq
    · exact absurd hq (by simp)
    obtain rfl := (Prod.mk.inj (Option.some.inj hq)).2
    obtain ⟨rfl, rfl⟩ := Prod.mk.inj (Option.some.inj h)
    exact ⟨rfl, ‹_›, rfl⟩
  · exact absurd h (by simp)

/-- The sub-ops that were there are still there. -/
theorem Worker.subOp_of_append {w w' : Worker} {s : SubOp} (h : w'.heap = w.heap ++ [s]) {i : ℕ}
    (hi : i < w.heap.length) : w'.subOp i = w.subOp i := by
  simp [Worker.subOp, h, List.getElem?_append_left hi]

/-- A sub-op more at the end of the queue. -/
theorem Cursor.pushReq {r r' : Run} {k sent : ℕ} (h : Cursor ctx r k sent) {s : SubOp}
    (hstep : r.Step (.pushReq s) r') : Cursor ctx r' k sent := by
  obtain ⟨events, hw, hlog⟩ := hstep
  obtain ⟨rfl, -, hw⟩ := step_pushReq hw
  rw [List.append_nil] at hlog
  have hheap : r'.worker.heap = r.worker.heap ++ [s] := by rw [hw]
  have hgen : r'.worker.gen = r.worker.gen := by rw [hw]
  have hctx : r'.worker.groupCtx = r.worker.groupCtx := by rw [hw]
  have hwq : r'.worker.qp.wq = r.worker.qp.wq ++ [r.worker.heap.length] := by rw [hw]
  have htake : ∀ i ≤ r.worker.heap.length, r'.worker.heap.take i = r.worker.heap.take i :=
    fun i hi => by rw [hheap, List.take_append_of_le_length hi]
  have hsub : ∀ i < r.worker.heap.length, r'.worker.subOp i = r.worker.subOp i :=
    fun i hi => Worker.subOp_of_append hheap hi
  have hk := h.le
  refine ⟨⟨by rw [hheap, List.length_append]; exact Nat.le_add_right_of_le hk, ?_, ?_, ?_⟩, ?_, ?_⟩
  · have hlen : r.worker.heap.length + 1 - k = (r.worker.heap.length - k) + 1 := by omega
    rw [hwq, h.wq, hheap, List.length_append, List.length_singleton, hlen, List.range'_1_concat]
    congr 2
    omega
  · rw [hlog, htake k hk, h.built]
    obtain ⟨-, rfl, -⟩ | ⟨-, hst⟩ := h.statics
    · rfl
    · rw [Worker.cutsOf, Worker.cutsOf, hsub k hst.lt, htake k hk]
  · intro p hp
    rw [hlog] at hp
    obtain ⟨h1, h2, h3⟩ := h.header p hp
    refine ⟨h1, ?_, by rw [hsub _ h2]; exact h3⟩
    rw [hheap, List.length_append]
    exact Nat.lt_add_right _ h2
  · rw [hlog, hgen]
    exact h.took
  · rw [hgen, hctx, htake k hk]
    refine h.statics.imp_right fun ⟨hpos, hst⟩ => ⟨hpos, ?_⟩
    have hgroup : r'.worker.currentGroupId = r.worker.currentGroupId := by rw [hw]
    have hlimit : r'.worker.currentSwitchWindowLimit = r.worker.currentSwitchWindowLimit := by
      rw [hw]
    refine ⟨?_, by rw [hsub k hst.lt]; exact hst.sent_lt,
      by rw [hgen, htake k hk, hsub k hst.lt]; exact hst.gen,
      by rw [hctx, htake _ hst.lt]; exact hst.groupCtx,
      by rw [hgroup, hsub k hst.lt]; exact hst.group, by rw [hlimit, hsub k hst.lt]; exact hst.limit⟩
    rw [hheap, List.length_append]
    exact Nat.lt_add_right _ hst.lt

/-! ## 4. One packet more -/

theorem fillPkt_cut (mem : ℕ → Byte) (s : SubOp) (p : PktState) :
    (fillPkt mem s p).cut = p.cut ∧ (fillPkt mem s p).acked = p.acked ∧
      (fillPkt mem s p).pkt.inc = incHdr s p.psn := by
  simp only [fillPkt]
  split <;> exact ⟨rfl, rfl, rfl⟩

/-- The PSN the next packet of the current group will get. -/
def Worker.nextPsn (w : Worker) : BitVec 32 :=
  if w.gen.subOp = none then w.groupCtx w.currentGroupId
  else w.gen.startPsn + BitVec.ofNat 32 w.gen.pktSent

theorem Started.nextPsn {w : Worker} {k sent : ℕ} (h : Started ctx w k sent) :
    w.nextPsn = psnAfter ctx (w.heap.take k) (w.subOp k).op.group.groupId +
      BitVec.ofNat 32 sent := by
  rw [Worker.nextPsn, h.gen, if_neg (by simp)]

/-- What building a packet leaves as it was. -/
structure SameRest (w w' : Worker) : Prop where
  heap : w'.heap = w.heap
  mem : w'.mem = w.mem
  cq : w'.qp.cq = w.qp.cq
  numInQueue : w'.qp.numInQueue = w.qp.numInQueue
  pc : w'.pc = w.pc
  assertFailed : w'.assertFailed = w.assertFailed

/-- `w'` is `w` with packet `p` of sub-op `ptr` built at a position of the window. -/
structure BuiltAt (w w' : Worker) (position ptr : ℕ) (p : PktState) : Prop
    extends SameRest w w' where
  window : w'.window = { w.window with state := Function.update w.window.state position p }
  group : w'.currentGroupId = (w.subOp ptr).op.group.groupId
  limit : w'.currentSwitchWindowLimit = (w.subOp ptr).aggLen / 2
  acked : p.acked = false
  subOp : p.subOp = ptr
  inc : p.pkt.inc = incHdr (w.subOp ptr) p.psn
  psn : w.currentGroupId = w'.currentGroupId → p.psn = w.nextPsn
  nextPsn : w'.nextPsn = p.psn + 1

/-- What the second half of `gen_pkt` builds, in the middle of sub-op `k`. -/
theorem Started.nextPkt {w : Worker} {k sent : ℕ} (h : Started ctx w k sent) (position : ℕ) :
    (w.nextPkt position k).cut = cutAt k (w.subOp k)
        (psnAfter ctx (w.heap.take k) (w.subOp k).op.group.groupId) sent ∧
      (w.nextPkt position k).acked = false ∧
      (w.nextPkt position k).pkt.inc = incHdr (w.subOp k) (w.nextPkt position k).psn := by
  obtain ⟨hcut, hacked, hinc⟩ := fillPkt_cut w.mem (w.subOp k)
    ⟨false, k, (w.subOp k).data + w.gen.pktSent * payloadSize,
      min payloadSize ((w.subOp k).size - w.gen.pktSent * payloadSize),
      w.gen.startPsn + BitVec.ofNat 32 w.gen.pktSent,
      decide (w.gen.pktSent + 1 = w.gen.pktCnt), (w.window.state position).pkt⟩
  have hpsn := congrArg Cut.psn hcut
  refine ⟨?_, hacked, ?_⟩
  · rw [show (w.nextPkt position k).cut = _ from hcut, h.gen]
    rfl
  · rw [show (w.nextPkt position k).psn = _ from hpsn]
    exact hinc

/-- **The second half of `gen_pkt`** moves the cursor by one packet. -/
theorem Started.buildPkt {r : Run} {k sent : ℕ} (h : Started ctx r.worker k sent)
    (hb : Behind ctx r k sent) (htook : took r.log = List.range (k + 1)) (position : ℕ) :
    ∃ w' p k' sent', r.worker.buildPkt position k = (w', [.deref k, .built position p]) ∧
      BuiltAt r.worker w' position k p ∧
      Cursor ctx ⟨w', r.log ++ [.deref k, .built position p]⟩ k' sent' := by
  obtain ⟨w, log⟩ := r
  dsimp only at *
  obtain ⟨hcut, hacked, hinc⟩ := h.nextPkt position
  rw [Worker.buildPkt]
  generalize w.nextPkt position k = p at *
  have hlt := h.lt
  have hlog : built (log ++ [.deref k, .built position p]) = built log ++ [p] := by
    rw [built_append]; rfl
  have hlog' : took (log ++ [.deref k, .built position p]) = took log := by
    rw [took_append]; exact List.append_nil _
  have hcuts : (built log ++ [p]).map PktState.cut =
      cuts ctx (w.heap.take k) ++ (w.cutsOf ctx k).take (sent + 1) := by
    rw [List.map_append, hb.built, Worker.cutsOf, cutSubOp_take_succ _ _ _ h.sent_lt,
      List.map_singleton, hcut, List.append_assoc]
  have hhead : ∀ q ∈ built log ++ [p], q.acked = false ∧ q.subOp < w.heap.length ∧
      q.pkt.inc = incHdr (w.subOp q.subOp) q.psn := by
    intro q hq
    rcases List.mem_append.mp hq with hq | hq
    · exact hb.header q hq
    · have hsub : p.subOp = k := congrArg Cut.subOp hcut
      rw [List.mem_singleton.mp hq, hsub]
      exact ⟨hacked, hlt, hinc⟩
  have hpsn : p.psn = psnAfter ctx (w.heap.take k) (w.subOp k).op.group.groupId +
      BitVec.ofNat 32 sent := congrArg Cut.psn hcut
  have hisLast : p.isLast = decide (sent + 1 = pktCount (w.subOp k)) := congrArg Cut.isLast hcut
  have hbuilt : (w.putPkt position k p).nextPsn = p.psn + 1 →
      BuiltAt w (w.putPkt position k p) position k p := fun hnext =>
    ⟨⟨rfl, rfl, by dsimp only [Worker.putPkt]; split <;> rfl,
      by dsimp only [Worker.putPkt]; split <;> rfl, rfl, rfl⟩,
      rfl, h.group, h.limit, hacked, congrArg Cut.subOp hcut, hinc,
      fun _ => by rw [hpsn, h.nextPsn], hnext⟩
  rcases Nat.eq_or_lt_of_le (Nat.succ_le_of_lt h.sent_lt) with hlast | hmore
  · -- the last packet of the sub-op: its element leaves the queue
    replace hisLast : p.isLast = true := hisLast.trans (decide_eq_true hlast)
    have hgen : (w.putPkt position k p).gen.subOp = none := by simp [Worker.putPkt, hisLast]
    have hfull : (w.cutsOf ctx k).take (sent + 1) = w.cutsOf ctx k :=
      List.take_of_length_le (by rw [Worker.cutsOf, cutSubOp_length]; exact Nat.le_of_eq hlast.symm)
    refine ⟨_, p, k + 1, 0, rfl, hbuilt ?_, ⟨hlt, ?_, ?_, ?_⟩, ?_, Or.inl ⟨hgen, rfl, h.groupCtx⟩⟩
    · rw [Worker.nextPsn, if_pos hgen]
      simp only [Worker.putPkt]
      rw [h.group, h.groupCtx, psnAfter_take_succ hlt, if_pos rfl, hpsn, ← hlast]
      simp [BitVec.ofNat_add, BitVec.add_assoc]
    · simp only [Worker.putPkt, hisLast, if_true, QueuePair.popReq]
      have hlen : w.heap.length - k = (w.heap.length - (k + 1)) + 1 := by omega
      rw [hb.wq, hlen, List.range'_succ]
      rfl
    · dsimp only
      rw [hlog, hcuts, hfull, List.take_zero, List.append_nil]
      exact (cuts_take_succ hlt).symm
    · dsimp only
      rw [hlog]
      exact hhead
    · dsimp only
      rw [hlog', htook, if_pos hgen]
  · replace hisLast : p.isLast = false := hisLast.trans (decide_eq_false (Nat.ne_of_lt hmore))
    have hgen : (w.putPkt position k p).gen = { w.gen with pktSent := sent + 1 } := by
      simp [Worker.putPkt, hisLast, h.gen]
    have hsome : (w.putPkt position k p).gen.subOp ≠ none := by simp [hgen, h.gen]
    refine ⟨_, p, k, sent + 1, rfl, hbuilt ?_, ⟨Nat.le_of_lt hlt, ?_, ?_, ?_⟩, ?_,
      Or.inr ⟨Nat.succ_pos _, hlt, hmore, by rw [hgen, h.gen]; rfl, h.groupCtx, h.group, h.limit⟩⟩
    · rw [Worker.nextPsn, if_neg hsome, hgen, h.gen]
      dsimp only
      rw [hpsn, BitVec.ofNat_add, ← BitVec.add_assoc]
      rfl
    · simpa [Worker.putPkt, hisLast] using hb.wq
    · dsimp only
      rw [hlog]
      exact hcuts
    · dsimp only
      rw [hlog]
      exact hhead
    · dsimp only
      rw [hlog', htook, if_neg hsome]

/-- Turning to a sub-op starts it. -/
theorem Run.turnTo_started {r : Run} {k : ℕ}
    (hctx : ∀ g, r.worker.groupCtx g = psnAfter ctx (r.worker.heap.take k) g)
    (hk : k < r.worker.heap.length) : Started ctx (r.worker.turnTo k) k 0 := by
  refine ⟨hk, pktCount_pos _, ?_, fun g => ?_, rfl, rfl⟩
  · simp only [Worker.turnTo, hctx]
    rfl
  · have hsub : (r.worker.turnTo k).subOp k = r.worker.subOp k := rfl
    rw [psnAfter_take_succ (w := r.worker.turnTo k) hk, hsub]
    simp only [Worker.turnTo, Function.update_apply, hctx]
    split
    · subst g; rw [if_pos rfl]
    · rw [if_neg (Ne.symm ‹_›)]
      exact (BitVec.add_zero _).symm

/-! ## 5. One round of `shift_send` -/

/-- `w'` is `w` with packet `p` of sub-op `ptr` built and sent. -/
structure Sent (w w' : Worker) (toSend winLen expectWinLen ptr : ℕ) (p : PktState) : Prop where
  heap : w'.heap = w.heap
  mem : w'.mem = w.mem
  cq : w'.qp.cq = w.qp.cq
  numInQueue : w'.qp.numInQueue = w.qp.numInQueue
  assertFailed : w'.assertFailed = w.assertFailed
  toAck : w'.window.toAck = w.window.toAck
  state : w'.window.state = Function.update w.window.state toSend p
  leftPsn : w'.window.leftPsn = if winLen = 0 then (w'.window.state w.window.toAck).pkt.inc.psn
    else w.window.leftPsn
  pc : w'.pc = .send (nextPosition toSend) (winLen + 1) expectWinLen
  group : w'.currentGroupId = (w.subOp ptr).op.group.groupId
  limit : w'.currentSwitchWindowLimit = (w.subOp ptr).aggLen / 2
  acked : p.acked = false
  subOp : p.subOp = ptr
  inc : p.pkt.inc = incHdr (w.subOp ptr) p.psn
  psn : w.currentGroupId = w'.currentGroupId → p.psn = w.nextPsn
  nextPsn : w'.nextPsn = p.psn + 1

/-- What `gen_pkt` looks at before it starts a sub-op. -/
inductive Starting (w : Worker) (k : ℕ) : List Event → Prop
  | going : w.gen.subOp = some k → Starting w k []
  | turned : w.gen.subOp = none → w.qp.frontReq = some k →
      w.currentGroupId = (w.subOp k).op.group.groupId ∨ w.window.txEmpty = true →
      Starting w k [.deref k, .took k]

theorem Cursor.frontReq {r : Run} {k sent ptr : ℕ} (h : Cursor ctx r k sent)
    (hfront : r.worker.qp.frontReq = some ptr) : ptr = k ∧ k < r.worker.heap.length := by
  rw [QueuePair.frontReq, h.wq] at hfront
  rcases Nat.lt_or_ge k r.worker.heap.length with hk | hk
  · have hlen : r.worker.heap.length - k = (r.worker.heap.length - (k + 1)) + 1 := by omega
    rw [hlen, List.range'_succ, List.head?_cons] at hfront
    exact ⟨(Option.some.inj hfront).symm, hk⟩
  · rw [Nat.sub_eq_zero_of_le hk] at hfront
    exact absurd hfront (by simp)

/-- **`gen_pkt`**: it refuses, or it builds a packet of sub-op `k`. -/
theorem Cursor.genPkt {r : Run} {k sent : ℕ} (h : Cursor ctx r k sent) (position : ℕ) :
    (∃ events, r.worker.genPkt position = (r.worker, false, events) ∧
      ∀ e ∈ events, e = .deref k ∧ k < r.worker.heap.length) ∨
    ∃ w' p pre k' sent', Starting r.worker k pre ∧
      r.worker.genPkt position = (w', true, pre ++ [.deref k, .built position p]) ∧
      BuiltAt r.worker w' position k p ∧
      Cursor ctx ⟨w', r.log ++ (pre ++ [.deref k, .built position p])⟩ k' sent' := by
  rcases h.statics with ⟨hnone, rfl, hctx⟩ | ⟨-, hst⟩
  · rw [Worker.genPkt, hnone]
    dsimp only
    rw [Worker.nextSubOp]
    cases hfront : r.worker.qp.frontReq with
    | none => exact Or.inl ⟨[], rfl, by simp⟩
    | some ptr =>
      obtain ⟨rfl, hk⟩ := h.frontReq hfront
      dsimp only
      by_cases hrefused : r.worker.currentGroupId ≠ (r.worker.subOp ptr).op.group.groupId ∧
          r.worker.window.txEmpty = false
      · rw [if_pos hrefused]
        exact Or.inl ⟨[.deref ptr], rfl, fun e he => ⟨List.mem_singleton.mp he, hk⟩⟩
      · rw [if_neg hrefused]
        right
        have hst := Run.turnTo_started hctx hk
        have htook : Backend.took (r.log ++ [.deref ptr, .took ptr]) = List.range (ptr + 1) := by
          rw [took_append, h.took, if_pos hnone, List.range_succ]; rfl
        have hb : Behind ctx ⟨r.worker.turnTo ptr, r.log ++ [.deref ptr, .took ptr]⟩ ptr 0 := by
          have hbuilt : built (r.log ++ [.deref ptr, .took ptr]) = built r.log := by
            rw [built_append]; exact List.append_nil _
          exact ⟨h.le, h.wq, by rw [hbuilt]; exact h.built, by rw [hbuilt]; exact h.header⟩
        obtain ⟨w', p, k', sent', hbuild, hat, hcur⟩ := hst.buildPkt hb htook position
        refine ⟨w', p, [.deref ptr, .took ptr], k', sent', .turned hnone hfront ?_, ?_, ?_, ?_⟩
        · by_cases hgroup : r.worker.currentGroupId = (r.worker.subOp ptr).op.group.groupId
          · exact Or.inl hgroup
          · exact Or.inr (by simpa [hgroup] using hrefused)
        · have hget : (r.worker.turnTo ptr).gen.subOp.getD 0 = ptr := rfl
          dsimp only
          rw [hget, hbuild]
        · refine ⟨⟨hat.heap, hat.mem, hat.cq, hat.numInQueue, hat.pc, hat.assertFailed⟩,
            hat.window, hat.group, hat.limit, hat.acked, hat.subOp, hat.inc, fun hg => ?_,
            hat.nextPsn⟩
          rw [hat.psn hat.group.symm, hst.nextPsn, Worker.nextPsn, if_pos hnone, hg, hat.group,
            hctx]
          exact BitVec.add_zero _
        · rwa [← List.append_assoc]
  · have hsome : r.worker.gen.subOp = some k := by rw [hst.gen]
    have htook : Backend.took r.log = List.range (k + 1) := by rw [h.took, if_neg (by simp [hsome])]
    obtain ⟨w', p, k', sent', hbuild, hat, hcur⟩ := hst.buildPkt h.toBehind htook position
    refine Or.inr ⟨w', p, [], k', sent', .going hsome, ?_, hat, hcur⟩
    rw [Worker.genPkt, hsome]
    dsimp only
    rw [hbuild]
    rfl

/-- **One round of `shift_send`**: the loop ends, or one packet of sub-op `k` is sent. -/
theorem Cursor.sendOne {r r' : Run} {k sent toSend winLen expectWinLen : ℕ}
    (h : Cursor ctx r k sent) (hpc : r.worker.pc = .send toSend winLen expectWinLen)
    (hstep : r.Step .sendOne r') :
    (∃ events, r'.log = r.log ++ events ∧ r'.worker = r.worker.endTx toSend winLen ∧
      (∀ e ∈ events, e = .deref k ∧ k < r.worker.heap.length) ∧ Cursor ctx r' k sent) ∨
    ∃ p pre k' sent', winLen < expectWinLen ∧ Starting r.worker k pre ∧
      Sent r.worker r'.worker toSend winLen expectWinLen k p ∧
      r'.log = r.log ++ (pre ++ [.deref k, .built toSend p, .sent toSend p.pkt]) ∧
      Cursor ctx r' k' sent' := by
  obtain ⟨events, hw, hlog⟩ := hstep
  simp only [Worker.step, hpc, Worker.sendOne] at hw
  have hend : ∀ events', r'.worker = r.worker.endTx toSend winLen → r'.log = r.log ++ events' →
      (∀ e ∈ events', e = .deref k ∧ k < r.worker.heap.length) →
      Cursor ctx r' k sent := by
    intro events' hw' hlog' hev
    have hq : Quiet events' :=
      ⟨List.filterMap_eq_nil_iff.mpr fun e he => by rw [(hev e he).1],
        List.filterMap_eq_nil_iff.mpr fun e he => by rw [(hev e he).1]⟩
    exact h.same (hw' ▸ ⟨rfl, rfl, rfl, rfl, rfl, rfl⟩) hq hlog'
  by_cases hlt : winLen < expectWinLen
  · rw [if_pos hlt] at hw
    rcases h.genPkt toSend with ⟨ev, hgen, hev⟩ | ⟨w', p, pre, k', sent', hpre, hgen, hat, hcur⟩
    · simp only [hgen] at hw
      obtain ⟨hw', rfl⟩ := Prod.mk.inj (Option.some.inj hw)
      exact Or.inl ⟨ev, hlog, hw'.symm, hev, hend ev hw'.symm hlog hev⟩
    · simp only [hgen] at hw
      obtain ⟨hw', rfl⟩ := Prod.mk.inj (Option.some.inj hw)
      have hp : w'.window.transmit toSend = .sent toSend p.pkt := by
        rw [hat.window, Window.transmit]
        simp
      refine Or.inr ⟨p, pre, k', sent', hlt, hpre, ?_, ?_, ?_⟩
      · rw [← hw']
        refine ⟨hat.heap, hat.mem, hat.cq, hat.numInQueue, hat.assertFailed, ?_, ?_, ?_, rfl,
          hat.group, hat.limit, hat.acked, hat.subOp, hat.inc, hat.psn, hat.nextPsn⟩ <;>
          simp only [hat.window]
      · rw [hlog, hp]
        simp
      · rw [hp, ← List.append_assoc] at hlog
        have hquiet : Quiet [.sent toSend p.pkt] := ⟨rfl, rfl⟩
        refine hcur.same ?_ hquiet hlog
        rw [← hw']
        exact ⟨rfl, rfl, rfl, rfl, rfl, rfl⟩
  · rw [if_neg hlt] at hw
    obtain ⟨hw', rfl⟩ := Prod.mk.inj (Option.some.inj hw)
    exact Or.inl ⟨[], hlog, hw'.symm, by simp, hend [] hw'.symm hlog (by simp)⟩

/-! ## 6. Runs -/

/-- Every step keeps the cursor. -/
theorem Cursor.step {r r' : Run} {k sent : ℕ} {l : Label} (h : Cursor ctx r k sent)
    (hstep : r.Step l r') : ∃ k' sent', Cursor ctx r' k' sent' := by
  by_cases hsend : l = .sendOne
  · subst hsend
    obtain ⟨events, hw, hlog⟩ := hstep
    cases hpc : r.worker.pc with
    | send toSend winLen expectWinLen =>
      obtain ⟨_, -, -, -, hcur⟩ | ⟨_, _, k', sent', -, -, -, -, hcur⟩ :=
        h.sendOne hpc ⟨events, hw, hlog⟩
      · exact ⟨k, sent, hcur⟩
      · exact ⟨k', sent', hcur⟩
    | _ => exact absurd hw (by simp [Worker.step, hpc])
  · by_cases hpush : ∃ s, l = .pushReq s
    · obtain ⟨s, rfl⟩ := hpush
      exact ⟨k, sent, h.pushReq hstep⟩
    · obtain ⟨events, hw, hlog⟩ := hstep
      obtain ⟨hs, hq⟩ := step_sameQueue hw hsend (not_exists.mp hpush)
      exact ⟨k, sent, h.same hs hq hlog⟩

/-- **Every run keeps a cursor.**  What a worker has built is always the beginning of what its
stream of sub-ops cuts into. -/
theorem cursor_reach {ok : Run → Label → Prop} {r : Run}
    (h : Reach (Run.Init ctx) Run.Step ok r) : ∃ k sent, Cursor ctx r k sent :=
  h.invariant (P := fun r => ∃ k sent, Cursor ctx r k sent)
    (fun _ hi => ⟨0, 0, .init hi⟩) fun _ _ _ ⟨_, _, hc⟩ _ hs => hc.step hs

end NetCCL.Backend
