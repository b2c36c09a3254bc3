/-
# What is transmitted, and again

The switch adds a packet once and takes every further copy of it for the same packet, so the
copies have to be the same bytes.  `transmit` hands out the frame of a window position and
never fills it in again; results are written into the buffer the packet was read from, not
into the frame.

The module follows a frame from `fill_pkt` to its last retransmission:

* `Transmits`: a step hands out the packet it has just built, or unacked packets of the window;
* `FastRetrans`: what `collect_retrans` resends is the maximal run of unacked packets directly
  before the accepted one;
* `psn_numbered`: PSNs count the packets of a group, so that only after 2^32 packets another
  packet has the same PSN.

`retransmission_sound` puts them together.  A PSN alone does not name a packet for ever:
`retransmission_wraps` runs a group through all its PSNs.
-/
import NetCCL.Backend.Rounds

namespace NetCCL.Backend

open Lib

/-! ## 1. PSNs count packets -/

variable {ctx : BitVec 8 → BitVec 32} {r r' : Run} {k sent popped : ℕ} {acc : List ℕ}

/-- How many packets of a group are among these. -/
def packetsOf (l : List PktState) (g : BitVec 8) : ℕ := l.countP fun p => p.pkt.inc.groupId = g

/-- The packets a sub-op is cut into are all of its group. -/
theorem cutsOf_count (w : Worker) (n j : ℕ) (hj : j ≤ pktCount (w.subOp n)) (g : BitVec 8) :
    ((w.cutsOf ctx n).take j).countP (fun c => w.groupOf c.subOp = g) =
      if w.groupOf n = g then j else 0 := by
  rw [Worker.cutsOf, cutSubOp_take _ _ _ hj, List.countP_map]
  split
  · rw [List.countP_eq_length.mpr fun i _ => by simp [cutAt, *], List.length_range]
  · rw [List.countP_eq_zero.mpr fun i _ => by simp [cutAt, *]]

/-- Packet `j` of a sub-op. -/
theorem cutsOf_get {w : Worker} {n j : ℕ} {c : Cut} (hc : (w.cutsOf ctx n)[j]? = some c) :
    j < pktCount (w.subOp n) ∧ w.groupOf c.subOp = w.groupOf n ∧
      c.psn = psnAfter ctx (w.heap.take n) (w.groupOf n) + BitVec.ofNat 32 j := by
  rw [Worker.cutsOf, cutSubOp, List.getElem?_map] at hc
  obtain ⟨j', hj', rfl⟩ := Option.map_eq_some_iff.mp hc
  obtain ⟨hj, rfl⟩ := List.getElem?_eq_some_iff.mp hj'
  rw [List.length_range] at hj
  rw [List.getElem_range]
  exact ⟨hj, rfl, rfl⟩

theorem cuts_count (ctx : BitVec 8 → BitVec 32) (w : Worker) (g : BitVec 8) (n : ℕ)
    (hn : n ≤ w.heap.length) : (cuts ctx (w.heap.take n)).countP (fun c => w.groupOf c.subOp = g) =
      pktsOf (w.heap.take n) g := by
  induction n with
  | zero => rfl
  | succ n ih =>
    have hfull : w.cutsOf ctx n = (w.cutsOf ctx n).take (pktCount (w.subOp n)) := by
      rw [List.take_of_length_le]
      rw [Worker.cutsOf, cutSubOp_length]
    rw [cuts_take_succ hn, List.countP_append, ih (Nat.le_of_succ_le hn), hfull,
      cutsOf_count w n _ (Nat.le_refl _), List.take_succ_eq_append_getElem hn,
      ← Worker.subOp_eq hn]
    simp only [pktsOf, List.filter_append, List.map_append, List.sum_append, List.filter_cons,
      List.filter_nil, decide_eq_true_eq, Worker.groupOf]
    split <;> simp [*]

/-- **The PSN of a packet** is the number of packets its group had before it. -/
theorem cuts_numbered (ctx : BitVec 8 → BitVec 32) (w : Worker) (n : ℕ) (hn : n ≤ w.heap.length)
    {i : ℕ} {c : Cut} (hc : (cuts ctx (w.heap.take n))[i]? = some c) :
    c.psn = ctx (w.groupOf c.subOp) + BitVec.ofNat 32
      (((cuts ctx (w.heap.take n)).take i).countP fun c' =>
        w.groupOf c'.subOp = w.groupOf c.subOp) := by
  induction n with
  | zero => exact absurd hc (by simp [cuts, cutsFrom])
  | succ n ih =>
    have hcount := cuts_count ctx w (w.groupOf n) n (Nat.le_of_succ_le hn)
    rw [cuts_take_succ hn] at hc ⊢
    generalize cuts ctx (w.heap.take n) = prior at *
    rcases Nat.lt_or_ge i prior.length with hi | hi
    · rw [List.getElem?_append_left hi] at hc
      rw [List.take_append_of_le_length (Nat.le_of_lt hi)]
      exact ih (Nat.le_of_succ_le hn) hc
    · obtain ⟨j, rfl⟩ := Nat.exists_eq_add_of_le hi
      rw [List.getElem?_append_right hi, Nat.add_sub_cancel_left] at hc
      obtain ⟨hj, hgroup, hpsn⟩ := cutsOf_get hc
      rw [List.take_length_add_append, List.countP_append, hpsn, hgroup, hcount,
        cutsOf_count w n j (Nat.le_of_lt hj), if_pos rfl, psnAfter, BitVec.ofNat_add,
        BitVec.add_assoc]

/-- The same for the packets a run has built. -/
theorem Cursor.psn_numbered (h : Cursor ctx r k sent) {j : ℕ} {p : PktState}
    (hp : (built r.log)[j]? = some p) :
    p.psn = ctx p.pkt.inc.groupId +
      BitVec.ofNat 32 (packetsOf ((built r.log).take j) p.pkt.inc.groupId) := by
  obtain ⟨rest, hrest⟩ := h.built_cuts
  have hlt := (List.getElem?_eq_some_iff.mp hp).1
  have hgroup : ∀ q ∈ built r.log, r.worker.groupOf q.subOp = q.pkt.inc.groupId := by
    intro q hq
    rw [(h.header q hq).2.2]
    rfl
  have hcut : (cuts ctx r.worker.heap)[j]? = some p.cut := by
    rw [← hrest, List.getElem?_append_left (by simpa using hlt), List.getElem?_map, hp]
    rfl
  have hnum := cuts_numbered ctx r.worker _ (Nat.le_refl _) (i := j) (c := p.cut)
  rw [List.take_length] at hnum
  have hpg : r.worker.groupOf p.cut.subOp = p.pkt.inc.groupId :=
    hgroup p (List.mem_of_getElem? hp)
  have hpsn : p.psn = p.cut.psn := rfl
  rw [hpsn, hnum hcut, hpg, ← hrest,
    List.take_append_of_le_length (by simpa using Nat.le_of_lt hlt), ← List.map_take,
    List.countP_map, packetsOf]
  congr 2
  refine List.countP_congr fun q hq => ?_
  simp [hgroup q (List.mem_of_mem_take hq), PktState.cut, Function.comp_apply]

/-- **Equal PSNs are 2^32 packets apart.** -/
theorem Cursor.psn_apart (h : Cursor ctx r k sent) {i j : ℕ} {p q : PktState} (hij : i < j)
    (hp : (built r.log)[i]? = some p) (hq : (built r.log)[j]? = some q)
    (hgroup : p.pkt.inc.groupId = q.pkt.inc.groupId) (hpsn : p.psn = q.psn) :
    2 ^ 32 ≤ packetsOf (((built r.log).take j).drop i) p.pkt.inc.groupId := by
  rw [h.psn_numbered hp, h.psn_numbered hq, ← hgroup] at hpsn
  have hsplit : (built r.log).take j =
      (built r.log).take i ++ ((built r.log).take j).drop i := by
    conv_lhs => rw [← List.take_append_drop i ((built r.log).take j)]
    rw [List.take_take, Nat.min_eq_left (Nat.le_of_lt hij)]
  have hfirst : ((built r.log).take j).drop i = p :: ((built r.log).take j).drop (i + 1) := by
    have hlt := (List.getElem?_eq_some_iff.mp hq).1
    have hi : i < ((built r.log).take j).length := by
      rw [List.length_take]
      omega
    rw [List.drop_eq_getElem_cons hi, List.getElem_take, (List.getElem?_eq_some_iff.mp hp).2]
  have hpos : 0 < packetsOf (((built r.log).take j).drop i) p.pkt.inc.groupId := by
    rw [packetsOf, hfirst, List.countP_cons_of_pos (by simp)]
    exact Nat.succ_pos _
  rw [hsplit, packetsOf, packetsOf, List.countP_append] at hpsn
  rw [← packetsOf, ← packetsOf] at hpsn
  generalize packetsOf ((built r.log).take i) p.pkt.inc.groupId = m at *
  generalize packetsOf (((built r.log).take j).drop i) p.pkt.inc.groupId = d at *
  have hmod := congrArg BitVec.toNat ((BitVec.add_right_inj _).mp hpsn)
  rw [BitVec.toNat_ofNat, BitVec.toNat_ofNat] at hmod
  omega

/-! ## 2. What a step hands out -/

/-- The frames handed to `process_buffer->send`, each with its window position. -/
def transmitted (log : List Event) : List (ℕ × Frame) :=
  log.filterMap fun | .sent pos f => some (pos, f) | _ => none

@[simp] theorem transmitted_append (l₁ l₂ : List Event) :
    transmitted (l₁ ++ l₂) = transmitted l₁ ++ transmitted l₂ :=
  List.filterMap_append

theorem mem_transmitted {log : List Event} {pos : ℕ} {f : Frame} :
    (pos, f) ∈ transmitted log ↔ .sent pos f ∈ log := by
  rw [transmitted, List.mem_filterMap]
  constructor
  · rintro ⟨e, he, hsome⟩
    cases e with
    | sent pos' f' =>
      obtain ⟨rfl, rfl⟩ := Prod.mk.inj (Option.some.inj hsome)
      exact he
    | _ => exact absurd hsome (by simp)
  · intro h
    exact ⟨_, h, rfl⟩

/-- The packet at a position of the window is not acked. -/
def Window.Unacked (win : Window) (pos : ℕ) : Prop :=
  ∃ i < win.len, pos = win.slot i ∧ win.hasAcked pos = false

/-- `p` is what `fill_pkt` makes of the memory at that moment, in the mbuf of the position. -/
def Worker.Fills (w : Worker) (pos : ℕ) (p : PktState) : Prop :=
  p = fillPkt w.mem (w.subOp p.subOp) { p with pkt := (w.window.state pos).pkt }

/-- **What a step may transmit**: the packet it has just built, which it transmits once, or
unacked packets of the window. -/
structure Transmits (w w' : Worker) (events : List Event) : Prop where
  frames : ∀ pos f, (pos, f) ∈ transmitted events →
    (∃ p, .built pos p ∈ events ∧ f = p.pkt) ∨
      (w'.window.Unacked pos ∧ f = (w'.window.state pos).pkt)
  built : ∀ pos p, .built pos p ∈ events → w.Fills pos p ∧ transmitted events = [(pos, p.pkt)]

/-- A step that transmits nothing. -/
theorem Transmits.none {w w' : Worker} {events : List Event}
    (h : ∀ e ∈ events, ∀ pos f p, e ≠ .sent pos f ∧ e ≠ .built pos p) : Transmits w w' events := by
  refine ⟨fun pos f hf => ?_, fun pos p hp => ?_⟩
  · exact absurd rfl (h _ (mem_transmitted.mp hf) pos f (w.window.state pos)).1
  · exact absurd rfl (h _ hp pos p.pkt p).2

theorem nextPkt_fills (w : Worker) (position ptr : ℕ) :
    w.Fills position (w.nextPkt position ptr) := by
  have hsub : (w.nextPkt position ptr).subOp = ptr := congrArg Cut.subOp (fillPkt_cut _ _ _).1
  rw [Worker.Fills, hsub]
  simp only [Worker.nextPkt, fillPkt]
  split <;> rfl

/-- `gen_pkt` fills in the packet it builds. -/
theorem genPkt_fills (w : Worker) (position : ℕ) {pos : ℕ} {p : PktState}
    (h : .built pos p ∈ (w.genPkt position).2.2) : w.Fills pos p := by
  rw [Worker.genPkt] at h
  cases hgen : w.gen.subOp with
  | some ptr =>
    simp only [hgen, Worker.buildPkt] at h
    obtain ⟨rfl, rfl⟩ : pos = position ∧ p = w.nextPkt position ptr := by simpa using h
    exact nextPkt_fills w _ _
  | none =>
    simp only [hgen] at h
    rw [Worker.nextSubOp] at h
    cases hfront : w.qp.frontReq with
    | none =>
      simp only [hfront] at h
      exact absurd h List.not_mem_nil
    | some ptr =>
      simp only [hfront] at h
      split at h
      · rename_i hturn
        split at hturn <;> obtain ⟨-, rfl⟩ := Prod.mk.inj hturn <;> simp at h
      · rename_i w₁ ev hturn
        split at hturn
        · exact absurd (Prod.mk.inj hturn).1 (by simp)
        · obtain ⟨hw, rfl⟩ := Prod.mk.inj hturn
          obtain rfl := Option.some.inj hw
          simp only [Worker.buildPkt] at h
          have hp : pos = position ∧ p = (w.turnTo ptr).nextPkt position
              ((w.turnTo ptr).gen.subOp.getD 0) := by simpa using h
          obtain ⟨rfl, rfl⟩ := hp
          exact nextPkt_fills (w.turnTo ptr) _ _

/-! ## 3. Retransmission -/

/-- After a timeout the unacked packets of the window go out again. -/
theorem fullRetrans_unacked (w : Worker) : ∀ e ∈ w.fullRetrans.2,
    ∃ pos ∈ walk maxWinLen w.window.toAck w.window.toSend,
      w.window.hasAcked pos = false ∧ e = w.window.transmit pos := by
  intro e he
  rw [Worker.fullRetrans] at he
  split at he
  · exact absurd he List.not_mem_nil
  · obtain ⟨pos, hpos, rfl⟩ := List.mem_map.mp he
    obtain ⟨hin, hun⟩ := List.mem_filter.mp hpos
    exact ⟨pos, hin, by simpa using hun, rfl⟩

theorem startTx_unacked (w : Worker) : ∀ e ∈ w.startTx.2,
    ∃ pos ∈ walk maxWinLen w.window.toAck w.window.toSend,
      w.window.hasAcked pos = false ∧ e = w.window.transmit pos := by
  intro e he
  simp only [Worker.startTx] at he
  split at he <;> split at he
  · exact fullRetrans_unacked { w with
      prevAckCnt := w.ackCnt
      window := { w.window with lastAckTimeStamp := w.globalTs } } e he
  · exact absurd he List.not_mem_nil
  · exact fullRetrans_unacked w e he
  · exact absurd he List.not_mem_nil

theorem transmitted_map (win : Window) (l : List ℕ) :
    transmitted (l.map win.transmit) = l.map fun pos => (pos, (win.state pos).pkt) := by
  simp [transmitted, Window.transmit, List.filterMap_map, Function.comp_def]

theorem copyPayload_transmitted (w : Worker) (p : PktState) (f : Frame) :
    transmitted (w.copyPayload p f).2 = [] := by
  obtain ⟨_, -, ⟨h, -⟩ | ⟨_, -, h⟩⟩ := copyPayload_cases w p f <;> rw [h] <;> rfl

/-- What accepting a frame resends.  Where `rx_process_one` does not call `collect_retrans`,
there would be nothing to resend. -/
theorem acceptAt_transmitted (w : Worker) (pos : ℕ) (f : Frame) :
    transmitted (w.acceptAt pos f).2 =
      (walk maxWinLen ((w.acceptAt pos f).1.window.collectFrom maxWinLen pos) pos).map
        fun x => (x, ((w.acceptAt pos f).1.window.state x).pkt) := by
  have hnone := copyPayload_transmitted (w.markAcked pos) ((w.markAcked pos).window.state pos) f
  rw [Worker.acceptAt]
  dsimp only
  generalize (w.markAcked pos).copyPayload ((w.markAcked pos).window.state pos) f = out at *
  obtain ⟨w₁, copied⟩ := out
  dsimp only at hnone ⊢
  split
  · rename_i hstop
    rw [Bool.or_eq_true, decide_eq_true_eq] at hstop
    have hpos : w₁.window.collectFrom maxWinLen pos = pos := by
      have hlen : maxWinLen = 1023 + 1 := rfl
      rw [hlen, Window.collectFrom]
      split
      · rfl
      · rw [if_pos (hstop.resolve_left ‹_›)]
    have hwalk : walk maxWinLen pos pos = [] := if_pos rfl
    dsimp only
    rw [hpos, hwalk]
    exact hnone
  · rw [← List.singleton_append, List.append_assoc, transmitted_append, transmitted_append, hnone,
      Worker.collectRetrans, transmitted_map]
    rfl

/-- From `k` to `i` the packets of the window are unacked, and there is no more to the left. -/
structure Window.MaximalRun (win : Window) (k i : ℕ) : Prop where
  le : k ≤ i
  unacked : ∀ x, k ≤ x → x < i → win.hasAcked (win.slot x) = false
  maximal : k = 0 ∨ ∃ x, k = x + 1 ∧ win.hasAcked (win.slot x) = true

/-- **What a fast retransmission is**: the packet at `pos` is in the window, the maximal run of
unacked packets before it is resent, and both loops of `collect_retrans` have come to their
end: more rounds change nothing. -/
def Window.FastRetrans (win : Window) (pos : ℕ) (resent : List (ℕ × Frame)) : Prop :=
  ∃ i < win.len, ∃ k, pos = win.slot i ∧ win.MaximalRun k i ∧
    resent = (List.range' k (i - k)).map (fun x => (win.slot x, (win.pktAt x).pkt)) ∧
    ∀ n, maxWinLen ≤ n → win.collectFrom n pos = win.slot k ∧
      walk n (win.slot k) pos = (List.range' k (i - k)).map win.slot

/-- **The scan of `collect_retrans`**, from a packet of the window. -/
theorem Window.collect_maximal (win : Window) {b i : ℕ} (hack : win.toAck = b % maxWinLen)
    (hi : i < maxWinLen) : ∃ k, win.MaximalRun k i ∧ ∀ n, maxWinLen ≤ n →
      win.collectFrom n (win.slot i) = win.slot k ∧
        walk n (win.slot k) (win.slot i) = (List.range' k (i - k)).map win.slot := by
  have hslot : ∀ x, win.slot x = (b + x) % maxWinLen := by
    intro x
    rw [Window.slot, hack, Nat.mod_add_mod]
  obtain ⟨j, hj, hj', hun, hmax, hcol⟩ := win.collectFrom_mod hack i hi
  obtain ⟨k, rfl⟩ := Nat.exists_eq_add_of_le hj
  refine ⟨k, ⟨Nat.le_of_add_le_add_left hj', fun x hx hx' => ?_, ?_⟩, fun n hn => ?_⟩
  · rw [hslot]
    exact hun _ (Nat.add_le_add_left hx b) (Nat.add_lt_add_left hx' b)
  · rcases hmax with h0 | ⟨x, hx, hb, hacked⟩
    · exact Or.inl (by omega)
    · obtain ⟨y, rfl⟩ := Nat.exists_eq_add_of_le hb
      exact Or.inr ⟨y, by omega, by rw [hslot]; exact hacked⟩
  · rw [hslot i, hslot k, hcol n (by omega), walk_mod n _ _ hj' (by omega) (by omega),
      Nat.add_sub_add_left, ← List.map_add_range', List.map_map]
    exact ⟨rfl, List.map_congr_left fun x _ => (hslot x).symm⟩

/-- A position of the window, by its distance from `to_ack`. -/
theorem InWindow.mem_walk (h : InWindow r acc) (hpc : r.worker.pc.Outside) {pos : ℕ}
    (hpos : pos ∈ walk maxWinLen r.worker.window.toAck r.worker.window.toSend) :
    ∃ i < r.worker.window.len, pos = r.worker.window.slot i := by
  have hbound := h.holds.bound
  have hsend := h.sendPos
  rw [Worker.sendPos_outside hpc] at hsend
  rw [h.holds.toAck, hsend, walk_mod _ _ _ h.holds.le (by simp only [maxWinLen] at *; omega)
    (by simp only [maxWinLen] at *; omega)] at hpos
  obtain ⟨j, hj, rfl⟩ := List.mem_map.mp hpos
  rw [List.mem_range'_1] at hj
  obtain ⟨i, rfl⟩ := Nat.exists_eq_add_of_le hj.1
  exact ⟨i, by rw [h.len_eq hpc]; omega, (h.slot_eq i).symm⟩

/-- The position of an accepted frame, seen before and after. -/
theorem InWindow.accepted_slot (h : InWindow r acc) (hpc : r.worker.pc.Outside) {f : Frame}
    {events : List Event} {w' : Worker} (hpos : r.worker.getPosition f ≠ invalidPosition)
    (hat : AcceptedAt r.worker w' (r.worker.getPosition f) f events) :
    ∃ i < w'.window.len, r.worker.getPosition f = w'.window.slot i ∧ i < maxWinLen ∧
      w'.window.toAck = completed r.log % maxWinLen := by
  obtain ⟨i, hi, hc⟩ := h.found_carries hpc hpos
  have hlen := h.len_eq hpc
  have hbound := h.holds.bound
  obtain ⟨-, ⟨_, _, _, _, hw⟩, -⟩ := hat
  have hlen' : w'.window.len = r.worker.window.len := by rw [hw]; rfl
  have hslot : w'.window.slot i = r.worker.window.slot i := by rw [hw]; rfl
  have hack : w'.window.toAck = r.worker.window.toAck := by rw [hw]
  exact ⟨i, hlen' ▸ hi, (h.found hpc hi hc).trans hslot.symm, by omega, hack.trans h.holds.toAck⟩

/-- **Every step transmits** its new packet, or unacked packets of the window. -/
theorem Inv.transmits {l : Label} {events : List Event} (h : Inv ctx r k sent popped acc)
    (hstep : r.Step l r') (hlog : r'.log = r.log ++ events) :
    Transmits r.worker r'.worker events := by
  obtain ⟨events', hlog', hcase⟩ := step_cases h.cursor hstep
  obtain rfl : events = events' := List.append_cancel_left (hlog.symm.trans hlog')
  cases hcase with
  | quiet => exact .none fun _ he => absurd he List.not_mem_nil
  | pushReq => exact .none fun _ he => absurd he List.not_mem_nil
  | popResp => exact .none fun _ he => absurd he List.not_mem_nil
  | @accept f _ hpc hpos hat =>
    obtain ⟨i, hi, hslot, hlt, hack⟩ := h.window.accepted_slot hpc hpos hat
    obtain ⟨k', hrun, hall⟩ := r'.worker.window.collect_maximal hack hlt
    obtain ⟨hcol, hwalk⟩ := hall _ (Nat.le_refl _)
    rw [hslot] at hat
    obtain ⟨-, -, -, resent, hresent, rfl⟩ := hat
    rw [hcol, hwalk] at hresent
    refine ⟨fun pos g hg => Or.inr ?_, fun pos p hp => ?_⟩
    · rw [← List.singleton_append, transmitted_append, transmitted_append,
        copyPayload_transmitted] at hg
      obtain ⟨x, hx, he⟩ := hresent _ (mem_transmitted.mp hg)
      obtain ⟨rfl, rfl⟩ := Event.sent.inj he
      obtain ⟨y, hy, rfl⟩ := List.mem_map.mp hx
      rw [List.mem_range'_1] at hy
      have hle := hrun.le
      exact ⟨⟨y, by omega, rfl, hrun.unacked y hy.1 (by omega)⟩, rfl⟩
    · exfalso
      rcases List.mem_append.mp ((List.mem_cons.mp hp).resolve_left (by simp)) with hp | hp
      · obtain ⟨_, -, ⟨hev, -⟩ | ⟨_, -, hev⟩⟩ := copyPayload_cases r.worker
          (r.worker.window.ackedAt (r'.worker.window.slot i)) f <;> rw [hev] at hp <;> simp at hp
      · obtain ⟨_, -, he⟩ := hresent _ hp
        exact absurd he (by simp [Window.transmit])
  | endRx =>
    obtain ⟨-, -, -, -, -, -, -, events', hlog', hdone, -⟩ := h.window.endRx h.cursor h.room hstep
    obtain rfl : events = events' := List.append_cancel_left (hlog.symm.trans hlog')
    refine .none fun e he pos f p => ?_
    obtain ⟨_, rfl⟩ | ⟨_, rfl⟩ := hdone e he <;> exact ⟨by simp, by simp⟩
  | startTx hpc hr =>
    obtain ⟨_, _, _, _, hst, -⟩ := startTx_spec r.worker
    have hev := startTx_unacked r.worker
    rw [hr] at hst hev
    dsimp only at hst hev
    have hlen : r'.worker.window.len = r.worker.window.len := by rw [hst]; rfl
    have hslot : ∀ i, r'.worker.window.slot i = r.worker.window.slot i := by
      intro i
      rw [hst]; rfl
    have hstate : r'.worker.window.state = r.worker.window.state := by rw [hst]
    refine ⟨fun pos f hf => Or.inr ?_, fun pos p hp => ?_⟩
    · obtain ⟨x, hx, hun, he⟩ := hev _ (mem_transmitted.mp hf)
      obtain ⟨rfl, rfl⟩ := Event.sent.inj he
      obtain ⟨i, hi, hpos⟩ := h.window.mem_walk hpc hx
      refine ⟨⟨i, hlen ▸ hi, by rw [hslot, hpos], ?_⟩, by rw [hstate]⟩
      rw [Window.hasAcked, hstate]
      exact hun
    · obtain ⟨_, -, -, he⟩ := hev _ hp
      exact absurd he (by simp [Window.transmit])
  | endTx hpc hr hev =>
    refine .none fun e he pos f p => ?_
    rw [(hev e he).1]
    exact ⟨by simp, by simp⟩
  | @sent toSend _ _ p pre hpc hlt hs hpre =>
    have hone : transmitted (pre ++ [.deref k, .built toSend p, .sent toSend p.pkt]) =
        [(toSend, p.pkt)] := by
      cases hpre <;> rfl
    have hbuilt : ∀ pos q, .built pos q ∈ pre ++ [.deref k, .built toSend p, .sent toSend p.pkt] →
        pos = toSend ∧ q = p := by
      intro pos q hq
      cases hpre <;> simpa using hq
    refine ⟨fun pos f hf => Or.inl ⟨p, ?_, ?_⟩, fun pos q hq => ?_⟩
    · rw [hone, List.mem_singleton] at hf
      rw [(Prod.mk.inj hf).1]
      simp
    · rw [hone, List.mem_singleton] at hf
      exact (Prod.mk.inj hf).2
    · obtain ⟨rfl, rfl⟩ := hbuilt pos q hq
      refine ⟨?_, hone⟩
      obtain ⟨ev, hw, hlog''⟩ := hstep
      obtain rfl : _ = ev := List.append_cancel_left (hlog.symm.trans hlog'')
      simp only [Worker.step, hpc, Worker.sendOne, if_pos hlt] at hw
      refine genPkt_fills r.worker pos ?_
      generalize r.worker.genPkt pos = out at hw ⊢
      obtain ⟨w, more, ev⟩ := out
      cases more with
      | false =>
        rw [(Prod.mk.inj (Option.some.inj hw)).2]
        exact hq
      | true =>
        rw [← (Prod.mk.inj (Option.some.inj hw)).2] at hq
        exact (List.mem_append.mp hq).resolve_right (by simp [Window.transmit])

/-- **An accepted frame** has the maximal run of unacked packets before it resent. -/
theorem Inv.fastRetrans {f : Frame} {events : List Event} (h : Inv ctx r k sent popped acc)
    (hstep : r.Step (.receive f) r') (hlog : r'.log = r.log ++ events) {pos : ℕ} {p : PktState}
    (hacc : .accepted pos p f ∈ events) :
    r'.worker.window.FastRetrans pos (transmitted events) := by
  obtain ⟨ev, hw, hlog'⟩ := hstep
  obtain rfl : events = ev := List.append_cancel_left (hlog.symm.trans hlog')
  by_cases hpc : r.worker.pc = .rx
  swap
  · exact absurd hw (by simp [Worker.step, hpc])
  have hout : r.worker.pc.Outside := by
    intro _ _ _ he
    simp [hpc] at he
  simp only [Worker.step, if_pos hpc, Option.some.injEq] at hw
  rcases rxProcessOne_cases r.worker f with ⟨_, hnone⟩ | ⟨hpos, hat⟩
  · rw [hnone] at hw
    rw [← (Prod.mk.inj hw).2] at hacc
    exact absurd hacc List.not_mem_nil
  have hresent : transmitted (r.worker.rxProcessOne f).2 =
      (walk maxWinLen ((r.worker.rxProcessOne f).1.window.collectFrom maxWinLen
        (r.worker.getPosition f)) (r.worker.getPosition f)).map
          fun x => (x, ((r.worker.rxProcessOne f).1.window.state x).pkt) := by
    have hun : r.worker.window.hasAcked (r.worker.getPosition f) = false := hat.unacked
    have hrx : r.worker.rxProcessOne f =
        Worker.acceptAt { r.worker with tosMinitor := r.worker.tosMinitor ||| f.typeOfService }
          (r.worker.getPosition f) f :=
      if_neg (by simpa [Window.hasAcked] using ⟨hpos, hun⟩)
    rw [hrx]
    exact acceptAt_transmitted _ _ _
  rw [hw] at hat hresent
  dsimp only at hat hresent
  obtain ⟨i, hi, hslot, hlt, hack⟩ := h.window.accepted_slot hout hpos hat
  obtain ⟨k', hrun, hall⟩ := r'.worker.window.collect_maximal hack hlt
  obtain ⟨hcol, hwalk⟩ := hall _ (Nat.le_refl _)
  have hposition : pos = r.worker.getPosition f := by
    obtain ⟨-, -, -, resent, hmem, hev⟩ := hat
    rw [hev] at hacc
    rcases List.mem_cons.mp hacc with he | he
    · exact (Event.accepted.inj he).1
    · exfalso
      rcases List.mem_append.mp he with he | he
      · obtain ⟨_, -, ⟨hcp, -⟩ | ⟨_, -, hcp⟩⟩ := copyPayload_cases r.worker
          (r.worker.window.ackedAt (r.worker.getPosition f)) f <;> rw [hcp] at he <;> simp at he
      · obtain ⟨_, -, hx⟩ := hmem _ he
        exact absurd hx (by simp [Window.transmit])
  rw [hslot, hcol, hwalk, List.map_map] at hresent
  rw [hposition, hslot]
  exact ⟨i, hi, k', rfl, hrun, hresent, hall⟩

/-! ## 4. Runs -/

/-- One group outstanding at a time: the step does not leave packets of another one than the
current group in flight. -/
def OneGroup (r : Run) (l : Label) : Prop := ∀ r', r.Step l r' → r'.Exclusive

/-- What the frontend promises is enough for that. -/
theorem barrier_oneGroup (h : Reach (Run.Init ctx) Run.Step Barrier r) :
    Reach (Run.Init ctx) Run.Step OneGroup r := by
  induction h with
  | init hi => exact .init hi
  | step hr hok hs ih =>
    obtain ⟨hin, _, _, _, _, hinv⟩ := barrier_reach hr
    refine .step ih (fun r₁ hs₁ => ?_) hs
    obtain ⟨_, _, _, _, hinv₁, -⟩ := hinv.step (hinv.not_mixes hin) hs₁
    exact hinv₁.window.exclusive

/-- **The run lemma**: the invariant, and every frame ever handed out is that of a packet as it
was built. -/
theorem oneGroup_reach (h : Reach (Run.Init ctx) Run.Step OneGroup r) :
    (∃ k sent popped acc, Inv ctx r k sent popped acc) ∧
      ∀ pos f, (pos, f) ∈ transmitted r.log → ∃ p ∈ built r.log, f = p.pkt := by
  refine h.invariant (P := fun r => (∃ k sent popped acc, Inv ctx r k sent popped acc) ∧
    ∀ pos f, (pos, f) ∈ transmitted r.log → ∃ p ∈ built r.log, f = p.pkt)
    (fun _ hi => ⟨⟨0, 0, 0, [], .init hi⟩, ?_⟩) ?_
  · intro pos f hf
    rw [hi.2] at hf
    exact absurd hf List.not_mem_nil
  · rintro r l r' ⟨⟨k, sent, popped, acc, hinv⟩, hsent⟩ hok hs
    have hmix : ¬ Mixes r l := by
      intro hm
      exact hm.breaks hinv hs (hok r' hs)
    obtain ⟨k', sent', popped', acc', hinv', -⟩ := hinv.step hmix hs
    refine ⟨⟨k', sent', popped', acc', hinv'⟩, fun pos f hf => ?_⟩
    obtain ⟨events, -, hlog⟩ := id hs
    rw [hlog, transmitted_append] at hf
    rcases List.mem_append.mp hf with hf | hf
    · obtain ⟨p, hp, he⟩ := hsent pos f hf
      refine ⟨p, ?_, he⟩
      rw [hlog, built_append]
      exact List.mem_append_left _ hp
    · obtain ⟨j, p, -, -, hp, he⟩ := hinv.sends hs hlog (mem_transmitted.mp hf)
      exact ⟨p, List.mem_of_getElem? hp, he⟩

/-- The two frames are of different packets, with a whole round of the PSN between them. -/
def Wrapped (built : List PktState) (f f' : Frame) : Prop :=
  ∃ i j p q, i < j ∧ built[i]? = some p ∧ built[j]? = some q ∧
    ((f = p.pkt ∧ f' = q.pkt) ∨ (f = q.pkt ∧ f' = p.pkt)) ∧
    2 ^ 32 ≤ packetsOf ((built.take j).drop i) f.inc.groupId

/-- **Retransmission is sound.**  In every run with one group outstanding at a time, a step
hands out only the packet it has just built, filled in from the memory of that moment, or
unacked packets of the window; all frames handed out for one group and PSN are the same frame,
that of a packet as it was built, unless the group's PSNs have gone round in between; and
`collect_retrans` resends exactly the maximal run of unacked packets before the accepted one. -/
theorem retransmission_sound (h : Reach (Run.Init ctx) Run.Step OneGroup r) :
    (∀ l r' events, r.Step l r' → r'.log = r.log ++ events →
      Transmits r.worker r'.worker events) ∧
    (∀ pos f, (pos, f) ∈ transmitted r.log → ∃ p ∈ built r.log, f = p.pkt) ∧
    (∀ pos f pos' f', (pos, f) ∈ transmitted r.log → (pos', f') ∈ transmitted r.log →
      f.inc.groupId = f'.inc.groupId → f.inc.psn = f'.inc.psn →
      f = f' ∨ Wrapped (built r.log) f f') ∧
    ∀ f r' events pos p, r.Step (.receive f) r' → r'.log = r.log ++ events →
      .accepted pos p f ∈ events → r'.worker.window.FastRetrans pos (transmitted events) := by
  obtain ⟨⟨k, sent, popped, acc, hinv⟩, hsent⟩ := oneGroup_reach h
  refine ⟨fun l r' events hs hlog => hinv.transmits hs hlog, hsent, ?_,
    fun f r' events pos p hs hlog hacc => hinv.fastRetrans hs hlog hacc⟩
  intro pos f pos' f' hf hf' hgroup hpsn
  obtain ⟨p, hp, rfl⟩ := hsent pos f hf
  obtain ⟨q, hq, rfl⟩ := hsent pos' f' hf'
  rw [hinv.inc hp, hinv.inc hq] at hpsn
  obtain ⟨i, hi⟩ := List.mem_iff_getElem?.mp hp
  obtain ⟨j, hj⟩ := List.mem_iff_getElem?.mp hq
  rcases Nat.lt_trichotomy i j with hij | rfl | hij
  · exact Or.inr ⟨i, j, p, q, hij, hi, hj, Or.inl ⟨rfl, rfl⟩,
      hinv.cursor.psn_apart hij hi hj hgroup hpsn⟩
  · exact Or.inl (congrArg PktState.pkt (Option.some.inj (hi.symm.trans hj)))
  · refine Or.inr ⟨j, i, q, p, hij, hj, hi, Or.inr ⟨rfl, rfl⟩, ?_⟩
    rw [hgroup]
    exact hinv.cursor.psn_apart hij hj hi hgroup.symm hpsn.symm

/-- Two packets out, and the response to the second: the first is sent again. -/
theorem retransmission_sound_fast : ∃ r, Run.start.exec groupOne
      [.pushReq { emptySubOp 1 with size := 512 }, .loopTop 0, .endRx, .startTx, .sendOne, .sendOne,
        .sendOne, .congestion, .loopTop 0, .receive ⟨⟨1, 1, 0, 0, 0, 1⟩, 0, 300, fun _ => 0⟩] =
      some r ∧
    (transmitted r.log).map (fun t => (t.1, t.2.inc.psn)) = [(0, 0), (1, 1), (0, 0)] ∧
    ∀ pos f, (pos, f) ∈ transmitted r.log → ∃ p ∈ built r.log, f = p.pkt := by
  have hrun : (Run.start.exec groupOne
      [.pushReq { emptySubOp 1 with size := 512 }, .loopTop 0, .endRx, .startTx, .sendOne, .sendOne,
        .sendOne, .congestion, .loopTop 0, .receive ⟨⟨1, 1, 0, 0, 0, 1⟩, 0, 300, fun _ => 0⟩]).map
      (fun r => (transmitted r.log).map fun t => (t.1, t.2.inc.psn)) =
      some [(0, 0), (1, 1), (0, 0)] := by decide +kernel
  obtain ⟨r, hr, hsent⟩ := Option.map_eq_some_iff.mp hrun
  exact ⟨r, hr, hsent, (retransmission_sound (barrier_oneGroup
    (Run.exec_reach groupOne_barrier _ (.init Run.start_init) hr))).2.1⟩

/-- **A PSN is not for ever**: an all-reduce without data, 2^32 - 1 more of them, and then a
broadcast, whose packet has the group and the PSN of the first one but another header. -/
theorem retransmission_wraps : ∃ r, Reach (Run.Init fun _ => 0) Run.Step OneGroup r ∧
    ∃ pos f pos' f', (pos, f) ∈ transmitted r.log ∧ (pos', f') ∈ transmitted r.log ∧
      f.inc.groupId = f'.inc.groupId ∧ f.inc.psn = f'.inc.psn ∧ f ≠ f' := by
  have hone : OnePacket (emptySubOp 1) := ⟨rfl, by decide, by decide⟩
  have hlast : OnePacket { emptySubOp 1 with
      op := { (emptySubOp 1).op with opCode := .broadcast } } := ⟨rfl, by decide, by decide⟩
  obtain ⟨r₀, hr₀, hidle₀⟩ := start_idle
  obtain ⟨r₁, p, hr₁, hwait, -, hsent, hinc⟩ := hidle₀.send hr₀ hone
  obtain ⟨r₂, hr₂, hidle₂, hpre₂⟩ := hwait.answer hr₁
  obtain ⟨n, hn⟩ : ∃ n, n = 2 ^ 32 - 1 := ⟨_, rfl⟩
  obtain ⟨r₃, hr₃, hidle₃, hpre₃⟩ := rounds_reach hone hr₂ hidle₂ n
  obtain ⟨r₄, q, hr₄, -, hpre₄, hsent', hinc'⟩ := hidle₃.send hr₃ hlast
  have hpsn : BitVec.ofNat 32 (0 + 1 + n) = BitVec.ofNat 32 0 := by rw [hn]; decide
  rw [hpsn] at hinc'
  refine ⟨r₄, barrier_oneGroup hr₄, _, p.pkt, _, q.pkt,
    mem_transmitted.mpr ((hpre₂.trans (hpre₃.trans hpre₄)).subset hsent),
    mem_transmitted.mpr hsent', ?_, ?_, fun he => ?_⟩
  · rw [hinc, hinc']
    rfl
  · rw [hinc, hinc']
    rfl
  · have hcoll := congrArg (fun f : Frame => f.inc.collType) he
    rw [hinc, hinc'] at hcoll
    exact absurd hcoll (by decide)

end NetCCL.Backend
