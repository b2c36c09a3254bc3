/-
# Where a response belongs

`get_position` finds the packet a response answers from the PSN alone: the distance to
`left_psn`, added to `to_ack`.  Positions wrap at 1024 and PSNs at 2^32, and the two caches
are written by three functions, so this is right only because of what the window holds.

`Worker.Located` says it in the words of the code, with no reference to a log:

* the window has at most `MAX_WIN_LEN - 1` packets, all of the current group, with consecutive
  PSNs, and the caches are the first and the last of them;
* a frame is given the position of the packet with its group and PSN, and `INVALID_POSITION`
  when there is none.

`packet_location` is the result: with the barrier between groups, every state outside the
loop of `shift_send` is like that.
-/
import NetCCL.Backend.Completion

namespace NetCCL.Backend

open Lib

/-! ## 1. The window as the code sees it -/

/-- The position `i` steps after `to_ack`. -/
def Window.slot (win : Window) (i : ℕ) : ℕ := (win.toAck + i) % maxWinLen

/-- The packet `i` steps after `to_ack`. -/
def Window.pktAt (win : Window) (i : ℕ) : PktState := win.state (win.slot i)

/-- That packet has the group and the PSN of the frame. -/
def Window.Carries (win : Window) (i : ℕ) (f : Frame) : Prop :=
  (win.pktAt i).pkt.inc.groupId = f.inc.groupId ∧ (win.pktAt i).psn = f.inc.psn

/-- **The window is sound, and `get_position` is right.** -/
structure Worker.Located (w : Worker) : Prop where
  len : w.window.len ≤ maxWinLen - 1
  toSend : w.window.slot w.window.len = w.window.toSend
  group : ∀ i < w.window.len,
    (w.subOp (w.window.pktAt i).subOp).op.group.groupId = w.currentGroupId ∧
      (w.window.pktAt i).pkt.inc.groupId = w.currentGroupId
  psn : ∃ first, ∀ i < w.window.len, (w.window.pktAt i).psn = first + BitVec.ofNat 32 i ∧
    (w.window.pktAt i).pkt.inc.psn = (w.window.pktAt i).psn
  caches : 0 < w.window.len → w.window.leftPsn = (w.window.pktAt 0).psn ∧
    w.window.rightPsn = (w.window.pktAt (w.window.len - 1)).psn
  position : ∀ f,
    (∃ i < w.window.len, w.window.Carries i f ∧ (∀ j < w.window.len, w.window.Carries j f → j = i) ∧
      w.getPosition f = w.window.slot i ∧ w.getPosition f ≠ invalidPosition) ∨
    ((∀ i < w.window.len, ¬ w.window.Carries i f) ∧ w.getPosition f = invalidPosition)

/-! ## 2. The distance of a PSN -/

/-- The PSN `i` after `left` lies `i` after it, for all distances that matter. -/
theorem psn_distance {left psn : BitVec 32} {i : ℕ} (hi : i < 2 ^ 32)
    (h : psn = left + BitVec.ofNat 32 i) : (psn - left).toNat = i := by
  have hsub : psn - left = BitVec.ofNat 32 i := by
    rw [h]
    grind
  rw [hsub, BitVec.toNat_ofNat, Nat.mod_eq_of_lt hi]

/-- A packet found at its distance from the left end. -/
theorem slot_of_distance {toAck i : ℕ} (hack : toAck < maxWinLen) (hi : i < maxWinLen)
    {d : BitVec 32} (hd : d.toNat = i) :
    (if maxWinLen ≤ (d + BitVec.ofNat 32 toAck).toNat then
      (d + BitVec.ofNat 32 toAck).toNat - maxWinLen else (d + BitVec.ofNat 32 toAck).toNat) =
      (toAck + i) % maxWinLen := by
  have hsum : (d + BitVec.ofNat 32 toAck).toNat = i + toAck := by
    rw [BitVec.toNat_add, BitVec.toNat_ofNat, hd]
    simp only [maxWinLen] at *
    omega
  rw [hsum]
  split <;> simp only [maxWinLen] at * <;> omega

/-! ## 3. From the invariant -/

variable {ctx : BitVec 8 → BitVec 32} {r : Run} {k sent popped : ℕ} {acc : List ℕ}

/-- The window of a state of the invariant, outside the loop of `shift_send`. -/
theorem InWindow.len_eq (h : InWindow r acc) (hpc : r.worker.pc.Outside) :
    r.worker.window.len = (built r.log).length - completed r.log := by
  have hsend := h.sendPos
  rw [Worker.sendPos_outside hpc] at hsend
  exact Window.len_eq _ h.holds.le h.holds.bound h.holds.toAck hsend

theorem InWindow.slot_eq (h : InWindow r acc) (i : ℕ) :
    r.worker.window.slot i = (completed r.log + i) % maxWinLen := by
  rw [Window.slot, h.holds.toAck, Nat.mod_add_mod]

/-- Packet `i` of the window is packet `completed + i` of the run. -/
theorem InWindow.pktAt (h : InWindow r acc) (hpc : r.worker.pc.Outside) {i : ℕ}
    (hi : i < r.worker.window.len) : ∃ p, (built r.log)[completed r.log + i]? = some p ∧
      r.worker.window.pktAt i = { p with acked := decide (completed r.log + i ∈ acc) } := by
  have hlen := h.len_eq hpc
  have hlt : completed r.log + i < (built r.log).length := by omega
  have hget := List.getElem?_eq_getElem hlt
  refine ⟨_, hget, ?_⟩
  rw [Window.pktAt, h.slot_eq, h.holds.state _ _ (Nat.le_add_right _ _) hget]

theorem InWindow.psn_eq (h : InWindow r acc) (hpc : r.worker.pc.Outside) {i : ℕ}
    (hi : i < r.worker.window.len) :
    (r.worker.window.pktAt i).psn = r.worker.window.leftPsn + BitVec.ofNat 32 i := by
  obtain ⟨p, hget, hp⟩ := h.pktAt hpc hi
  have hlen := h.len_eq hpc
  have hpsn := h.psn _ _ (Nat.le_add_right _ _) hget
  have hleft := h.leftPsn (by omega)
  rw [hp]
  dsimp only
  have hsplit : (built r.log).length - completed r.log =
    i + ((built r.log).length - (completed r.log + i)) := by omega
  rw [hsplit, BitVec.ofNat_add] at hleft
  grind

/-- **A packet of the window is found.** -/
theorem InWindow.found (h : InWindow r acc) (hpc : r.worker.pc.Outside) {i : ℕ}
    (hi : i < r.worker.window.len) {f : Frame} (hf : r.worker.window.Carries i f) :
    r.worker.getPosition f = r.worker.window.slot i := by
  have hlen := h.len_eq hpc
  have hbound := h.holds.bound
  have hsend := h.sendPos
  rw [Worker.sendPos_outside hpc] at hsend
  obtain ⟨hgroup, hpsn⟩ := hf
  rw [h.psn_eq hpc hi] at hpsn
  obtain ⟨p, hget, hp⟩ := h.pktAt hpc hi
  have hcur : r.worker.currentGroupId = f.inc.groupId := by
    rw [← hgroup, hp]
    exact (h.group _ _ (Nat.le_add_right _ _) hget).symm
  have hfull : r.worker.window.txEmpty = false := Bool.eq_false_iff.mpr fun he => by
    have := (r.worker.window.txEmpty_iff h.holds.le hbound h.holds.toAck hsend).mp he
    omega
  have hright : r.worker.window.rightPsn =
      r.worker.window.leftPsn + BitVec.ofNat 32 (r.worker.window.len - 1) := by
    have hr := h.rightPsn hpc (by omega)
    have hl := h.leftPsn (by omega)
    have hlast : r.worker.window.len = (r.worker.window.len - 1) + 1 := by omega
    rw [← hlen, hlast, BitVec.ofNat_add] at hl
    grind
  have hdist := psn_distance (by simp only [maxWinLen] at *; omega) hpsn.symm
  have hlast := psn_distance (by simp only [maxWinLen] at *; omega) hright
  rw [Worker.getPosition, if_neg (by simp [hfull, hcur])]
  dsimp only
  rw [if_pos (by rw [BitVec.le_def, hdist, hlast]; omega), Window.slot]
  exact slot_of_distance (by rw [h.holds.toAck]; exact Nat.mod_lt _ (by decide))
    (by simp only [maxWinLen] at *; omega) hdist

/-- A found packet is one of the window. -/
theorem InWindow.found_carries (h : InWindow r acc) (hpc : r.worker.pc.Outside) {f : Frame}
    (hf : r.worker.getPosition f ≠ invalidPosition) :
    ∃ i < r.worker.window.len, r.worker.window.Carries i f := by
  obtain ⟨j, p, hj, hget, -, hpsn, hgid⟩ := h.getPosition hpc hf
  have hlen := h.len_eq hpc
  have hlt := (List.getElem?_eq_some_iff.mp hget).1
  have hi : j - completed r.log < r.worker.window.len := by omega
  obtain ⟨q, hget', hq⟩ := h.pktAt hpc hi
  rw [Nat.add_sub_cancel' hj, hget] at hget'
  obtain rfl := Option.some.inj hget'
  refine ⟨_, hi, ?_⟩
  rw [Window.Carries, hq]
  exact ⟨hgid.symm, hpsn.symm⟩

/-- **The invariant makes the window sound.** -/
theorem Inv.located (h : Inv ctx r k sent popped acc) (hpc : r.worker.pc.Outside) :
    r.worker.Located := by
  have hwin := h.window
  have hlen := hwin.len_eq hpc
  have hbound := hwin.holds.bound
  have hle := hwin.holds.le
  have hsend := hwin.sendPos
  rw [Worker.sendPos_outside hpc] at hsend
  have hmax : r.worker.window.len ≤ maxWinLen - 1 := by omega
  refine ⟨hmax, ?_, fun i hi => ?_, ⟨r.worker.window.leftPsn, fun i hi => ⟨hwin.psn_eq hpc hi, ?_⟩⟩,
    fun hpos => ⟨?_, ?_⟩, fun f => ?_⟩
  · rw [hwin.slot_eq, hlen, hsend, Nat.add_sub_cancel' hle]
  · obtain ⟨p, hget, hp⟩ := hwin.pktAt hpc hi
    have hgroup := hwin.group _ _ (Nat.le_add_right _ _) hget
    have hhead := (h.cursor.header p (List.mem_of_getElem? hget)).2.2
    rw [hp]
    refine ⟨?_, hgroup⟩
    rw [hhead] at hgroup
    exact hgroup
  · obtain ⟨p, hget, hp⟩ := hwin.pktAt hpc hi
    have hinc := h.inc (List.mem_of_getElem? hget)
    rw [hp]
    exact hinc
  · rw [hwin.psn_eq hpc hpos]
    exact (BitVec.add_zero _).symm
  · rw [hwin.psn_eq hpc (Nat.sub_lt hpos Nat.one_pos)]
    have hr := hwin.rightPsn hpc (by omega)
    have hl := hwin.leftPsn (by omega)
    have hlast : r.worker.window.len = (r.worker.window.len - 1) + 1 := by omega
    rw [← hlen, hlast, BitVec.ofNat_add] at hl
    grind
  · by_cases hfound : r.worker.getPosition f = invalidPosition
    · refine Or.inr ⟨fun i hi hc => ?_, hfound⟩
      rw [hwin.found hpc hi hc, Window.slot] at hfound
      have hpos' : 0 < maxWinLen := by decide
      have hmod := Nat.mod_lt (r.worker.window.toAck + i) hpos'
      rw [hfound] at hmod
      exact absurd hmod (by decide)
    · obtain ⟨i, hi, hc⟩ := hwin.found_carries hpc hfound
      refine Or.inl ⟨i, hi, hc, fun j hj hc' => ?_, hwin.found hpc hi hc, hfound⟩
      have hslot := (hwin.found hpc hj hc').symm.trans (hwin.found hpc hi hc)
      rw [hwin.slot_eq, hwin.slot_eq] at hslot
      have := mod_inj (Nat.le_add_right _ j) (by simp only [maxWinLen] at *; omega)
        (Nat.le_add_right _ i) (by simp only [maxWinLen] at *; omega) hslot
      omega

/-! ## 4. Runs -/

/-- **Window representation and packet location.**  In every run in which a sub-op of another
group is queued only after all earlier ones were answered, the window is sound and
`get_position` is right at the start of every `rx_process` and `tx_process`, and for every
packet received. -/
theorem packet_location (h : Reach (Run.Init ctx) Run.Step Barrier r)
    (hpc : r.worker.pc = .rx ∨ r.worker.pc = .tx) : r.worker.Located := by
  obtain ⟨-, _, _, _, _, hinv⟩ := barrier_reach h
  refine hinv.located fun _ _ _ he => ?_
  rcases hpc with hpc | hpc <;> simp [hpc] at he

/-- A barrier that can be computed: only sub-ops of group 1. -/
def groupOne (r : Run) : Label → Bool
  | .pushReq s => decide (s.op.group.groupId = 1) &&
      r.worker.heap.all fun t => decide (t.op.group.groupId = 1)
  | _ => true

theorem groupOne_barrier (r : Run) (l : Label) (h : groupOne r l = true) : Barrier r l := by
  cases l with
  | pushReq s =>
    simp only [groupOne, Bool.and_eq_true, List.all_eq_true, decide_eq_true_eq] at h
    intro ptr hptr _
    rw [Worker.subOp_eq hptr, h.2 _ (List.getElem_mem hptr), h.1]
  | _ => trivial

/-- Two packets out, at the start of the next `rx_process`: the response to the second is
found at position 1. -/
theorem packet_location_two : ∃ r, Run.start.exec groupOne
      [.pushReq { emptySubOp 1 with size := 512 }, .loopTop 0, .endRx, .startTx, .sendOne, .sendOne,
        .sendOne, .congestion, .loopTop 0] = some r ∧
    r.worker.window.len = 2 ∧ r.worker.getPosition ⟨⟨1, 1, 0, 0, 0, 1⟩, 0, 300, fun _ => 0⟩ = 1 ∧
    r.worker.Located := by
  have hrun : (Run.start.exec groupOne
      [.pushReq { emptySubOp 1 with size := 512 }, .loopTop 0, .endRx, .startTx, .sendOne, .sendOne,
        .sendOne, .congestion, .loopTop 0]).map (fun r => (r.worker.pc, r.worker.window.len,
          r.worker.getPosition ⟨⟨1, 1, 0, 0, 0, 1⟩, 0, 300, fun _ => 0⟩)) =
      some (.rx, 2, 1) := by decide +kernel
  obtain ⟨r, hr, hall⟩ := Option.map_eq_some_iff.mp hrun
  obtain ⟨hpc, hall⟩ := Prod.mk.inj hall
  obtain ⟨hlen, hpos⟩ := Prod.mk.inj hall
  exact ⟨r, hr, hlen, hpos,
    packet_location (Run.exec_reach groupOne_barrier _ (.init Run.start_init) hr) (Or.inl hpc)⟩

end NetCCL.Backend
