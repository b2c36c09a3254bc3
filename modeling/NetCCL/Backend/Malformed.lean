/-
# Responses of the wrong length

`rx_process_one` knows the length a response must have, `sizeof(netccl_pkt)` where the rank
receives and an empty frame otherwise, and reports every other length as an error.  But it
does so after it has marked the packet acked and copied the payload, and goes on.

**The residual, exactly.**  A malformed frame leaves the worker as it was when, and only when,
there is nothing for it to acknowledge: its PSN locates no packet, or one already acked
(`malformed_rejected_iff`).  Otherwise it takes the place of the response, and the sub-op may
be answered with whatever the frame held (`malformed_accepted`).
-/
import NetCCL.Backend.Completion

namespace NetCCL.Backend

open Lib

/-! ## 1. What is required -/

/-- The length `rx_process_one` compares `pkt_len` with. -/
def requiredLen (op : Op) : ℕ := if needRx op then sizeofNetcclPkt else max 60 sizeofHeaders

/-- The op of the packet at a position. -/
def Worker.opAt (w : Worker) (pos : ℕ) : Op := (w.subOp (w.window.state pos).subOp).op

/-- The frame locates a packet and has not the length its op requires. -/
def Worker.Malformed (w : Worker) (f : Frame) : Prop :=
  w.getPosition f ≠ invalidPosition ∧ f.pktLen ≠ requiredLen (w.opAt (w.getPosition f))

instance (w : Worker) (f : Frame) : Decidable (w.Malformed f) :=
  inferInstanceAs (Decidable (_ ∧ _))

/-- **Nothing acknowledged**: the window, the data and the completion queue are as before, and
nothing was accepted or written on the way. -/
structure Worker.Untouched (w : Worker) (after : Worker × List Event) : Prop where
  acked : ∀ pos, after.1.window.hasAcked pos = w.window.hasAcked pos
  toAck : after.1.window.toAck = w.window.toAck
  toSend : after.1.window.toSend = w.window.toSend
  leftPsn : after.1.window.leftPsn = w.window.leftPsn
  rightPsn : after.1.window.rightPsn = w.window.rightPsn
  mem : after.1.mem = w.mem
  qp : after.1.qp = w.qp
  accepted : accepted after.2 = []
  wrote : wrote after.2 = []

/-- A malformed frame is not taken for an acknowledgement. -/
def Worker.Rejects (w : Worker) (f : Frame) : Prop :=
  w.Malformed f → w.Untouched (w.rxProcessOne f)

/-! ## 2. When it is rejected -/

/-- A frame that finds no unacked packet changes nothing, whatever its length. -/
theorem rxProcessOne_untouched {w : Worker} {f : Frame}
    (h : w.getPosition f = invalidPosition ∨ w.window.hasAcked (w.getPosition f) = true) :
    w.Untouched (w.rxProcessOne f) := by
  rcases rxProcessOne_cases w f with ⟨tos, hr⟩ | ⟨hpos, hat⟩
  · rw [hr]
    constructor <;> intros <;> rfl
  · have hacked := h.resolve_left hpos
    rw [Window.hasAcked, hat.unacked] at hacked
    exact absurd hacked (by simp)

/-- A frame that finds an unacked packet acks it, whatever its length. -/
theorem rxProcessOne_acks {w : Worker} {f : Frame} (hpos : w.getPosition f ≠ invalidPosition)
    (h : w.window.hasAcked (w.getPosition f) = false) :
    (w.rxProcessOne f).1.window.hasAcked (w.getPosition f) = true := by
  unfold Worker.rxProcessOne
  dsimp only
  have hsame : Worker.getPosition { w with tosMinitor := w.tosMinitor ||| f.typeOfService } f =
    w.getPosition f := rfl
  rw [hsame, if_neg (by simp [hpos, h])]
  obtain ⟨-, ⟨_, _, _, _, hw⟩, -⟩ :=
    acceptAt_spec { w with tosMinitor := w.tosMinitor ||| f.typeOfService } h f
  rw [hw, Window.hasAcked]
  dsimp only
  rw [Function.update_self, Window.ackedAt]

/-- **A malformed frame is rejected exactly when there is nothing to acknowledge.**  For every
state and frame: the frame has the required length, or finds no packet, or an acked one. -/
theorem malformed_rejected_iff (w : Worker) (f : Frame) :
    w.Rejects f ↔ f.pktLen = requiredLen (w.opAt (w.getPosition f)) ∨
      w.getPosition f = invalidPosition ∨ w.window.hasAcked (w.getPosition f) = true := by
  constructor
  · intro hrej
    by_cases hlen : f.pktLen = requiredLen (w.opAt (w.getPosition f))
    · exact Or.inl hlen
    by_cases hpos : w.getPosition f = invalidPosition
    · exact Or.inr (Or.inl hpos)
    right; right
    have hkeep := (hrej ⟨hpos, hlen⟩).acked (w.getPosition f)
    cases hacked : w.window.hasAcked (w.getPosition f) with
    | true => rfl
    | false => exact absurd (hkeep.trans hacked) (by rw [rxProcessOne_acks hpos hacked]; simp)
  · rintro (hlen | hnone) ⟨hpos, hne⟩
    · exact absurd hlen hne
    · exact rxProcessOne_untouched hnone

/-! ## 3. A frame without payload -/

/-- A frame of 60 bytes, the minimum of Ethernet, for PSN 0 of group 1. -/
def runt : Frame := ⟨⟨1, 1, 0, 0, 0, 0⟩, 0, 60, fun _ => 7⟩

/-- **A runt is accepted**: one word is out, the frame of 60 bytes is copied and acknowledged
in place of one of 300, and the sub-op is answered. -/
theorem malformed_accepted : ∃ r, Reach (Run.Init fun _ => 0) Run.Step Free r ∧
    r.worker.Malformed runt ∧ ¬ r.worker.Rejects runt ∧
    ∃ r', r.exec (fun _ _ => true) [.receive runt, .endRx] = some r' ∧
      r.worker.mem 0 = 0 ∧ r'.worker.mem 0 = 7 ∧ pushed r.log = [] ∧ pushed r'.log = [0] := by
  have hrun : (Run.start.exec (fun _ _ => true)
      [.pushReq { emptySubOp 1 with size := 4 }, .loopTop 0, .endRx, .startTx, .sendOne, .sendOne,
        .congestion, .loopTop 0]).map (fun r => (decide (r.worker.Malformed runt) &&
          !r.worker.window.hasAcked (r.worker.getPosition runt), r.worker.mem 0, pushed r.log,
          (r.exec (fun _ _ => true) [.receive runt, .endRx]).map fun r' =>
            (r'.worker.mem 0, pushed r'.log))) =
      some (true, 0, [], some (7, [0])) := by decide +kernel
  obtain ⟨r, hr, hall⟩ := Option.map_eq_some_iff.mp hrun
  simp only [Prod.mk.injEq, Bool.and_eq_true, decide_eq_true_eq, Bool.not_eq_true'] at hall
  obtain ⟨⟨hbad, hacked⟩, hmem, hpush, hnext⟩ := hall
  obtain ⟨r', hr', hafter⟩ := Option.map_eq_some_iff.mp hnext
  obtain ⟨hmem', hpush'⟩ := Prod.mk.inj hafter
  refine ⟨r, Run.exec_reach (fun _ _ _ => trivial) _ (.init Run.start_init) hr, hbad, fun hrej => ?_,
    r', hr', hmem, hmem', hpush, hpush'⟩
  have hkeep := (hrej hbad).acked (r.worker.getPosition runt)
  rw [rxProcessOne_acks hbad.1 hacked, hacked] at hkeep
  exact absurd hkeep (by simp)

end NetCCL.Backend
