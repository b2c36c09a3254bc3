/-
# The rate control stays in range

`adjust_rate` adds to `target_cwnd` and to `adjust_cnt` without a cap.  That both stay bounded
in every run, of any length, has three reasons, and they are in three functions:

* an increase needs `cwnd_achieved`, which `shift_send` sets only when the window is as long as
  `cwnd`, and so below the lap; `adjust_rate` clears it, so `cwnd < MAX_WIN_LEN` at every
  increase (`achieved`);
* `target_cwnd` is ahead of `cwnd` by a bounded gap: every step of the fast recovery halves it,
  and so does every increase after it has added `CC_AI` (`gap`, `gapBound_succ`);
* every increase is counted in `adjust_cnt`, and only from 0 on, so the count is bounded by what
  it added (`increased`).

`CC.Controlled` says this of the state, `Worker.Controlled.step` what a step does to it, and
`congestion_in_range` is the result.  Time stamps are any: nothing here reads them.
-/
import NetCCL.Backend.Positions
import NetCCL.Backend.Exclusive
import Mathlib.Tactic.Linarith
import Mathlib.Tactic.NormNum

namespace NetCCL.Backend

open Lib

/-! ## 1. The gap -/

/-- How far `target_cwnd` may be ahead of `cwnd`. -/
def gapBound (adjustCnt : ℤ) : ℚ := 1100 / 2 ^ (min adjustCnt 0 + ccFastRecoveryCnt).toNat

/-- A step of the fast recovery halves the gap. -/
theorem gapBound_succ {a : ℤ} (hlow : -ccFastRecoveryCnt ≤ a) (ha : a < 0) :
    gapBound (a + 1) = gapBound a / 2 := by
  have hexp : (min (a + 1) 0 + ccFastRecoveryCnt).toNat =
      (min a 0 + ccFastRecoveryCnt).toNat + 1 := by
    simp only [ccFastRecoveryCnt] at *
    omega
  rw [gapBound, gapBound, hexp, pow_succ, div_div]

/-- After it the bound is a thirty-second. -/
theorem gapBound_nonneg {a : ℤ} (ha : 0 ≤ a) : gapBound a = 1100 / 32 := by
  have hexp : (min a 0 + ccFastRecoveryCnt).toNat = 5 := by
    simp only [ccFastRecoveryCnt]
    omega
  rw [gapBound, hexp]
  norm_num

theorem gapBound_start : gapBound (-ccFastRecoveryCnt) = 1100 := by
  have hexp : (min (-ccFastRecoveryCnt) 0 + ccFastRecoveryCnt).toNat = 0 := rfl
  rw [gapBound, hexp]
  norm_num

/-! ## 2. The state of the rate control -/

/-- **The invariant**, with the flag `cwnd_achieved`. -/
structure CC.Controlled (cc : CC) (cwndAchieved : Bool) : Prop where
  loss_nonneg : 0 ≤ cc.lossRatio
  loss_le : cc.lossRatio ≤ 1
  low : (ccCwndMin : ℚ) ≤ cc.cwnd
  le : cc.cwnd ≤ cc.targetCwnd
  target : cc.targetCwnd < 1100
  adjust : -ccFastRecoveryCnt ≤ cc.adjustCnt
  achieved : cwndAchieved = true → cc.cwnd < maxWinLen
  gap : cc.targetCwnd - cc.cwnd ≤ gapBound cc.adjustCnt
  increased : 0 ≤ cc.adjustCnt → ccCwndMin + ccAi * cc.adjustCnt ≤ cc.targetCwnd

theorem ccAi_eq : ccAi = 128 / 125 := by
  rw [ccAi, maxWinLen]
  norm_num

theorem CC.init_controlled : CC.init.Controlled false := by
  have hgap : gapBound CC.init.adjustCnt = 1100 := gapBound_start
  refine ⟨?_, ?_, ?_, ?_, ?_, ?_, ?_, ?_, ?_⟩
  all_goals try rw [hgap]
  all_goals simp only [CC.init, ccCwndMin, maxWinLen, ccFastRecoveryCnt]
  all_goals norm_num

theorem CC.Controlled.reinit {cc : CC} {b : Bool} (h : cc.Controlled b) (now : BitVec 32) :
    (cc.reinit now).Controlled b := by
  have hlow := h.low
  have hle := h.le
  have htarget := h.target
  refine ⟨h.loss_nonneg, h.loss_le, le_refl _, hlow, lt_of_le_of_lt hle htarget, le_refl _,
    fun _ => ?_, ?_, fun hneg => absurd (show 0 ≤ -ccFastRecoveryCnt from hneg) (by decide)⟩
  · simp only [CC.reinit, ccCwndMin, maxWinLen]
    norm_num
  · simp only [CC.reinit, gapBound_start, ccCwndMin] at *
    norm_num at *
    linarith

/-- Reaching the window: it is below the lap. -/
theorem CC.Controlled.reach {cc : CC} {b : Bool} (h : cc.Controlled b) {winLen : ℕ}
    (hwin : winLen < maxWinLen) (hreach : cc.winSize ≤ winLen) : cc.Controlled true := by
  refine ⟨h.loss_nonneg, h.loss_le, h.low, h.le, h.target, h.adjust, fun _ => ?_, h.gap,
    h.increased⟩
  have hfloor : ⌊cc.cwnd⌋ < (maxWinLen : ℤ) := by
    rw [CC.winSize] at hreach
    omega
  exact_mod_cast Int.floor_lt.mp hfloor

/-- The time stamps do not matter, nor does forgetting that the window was reached. -/
theorem CC.Controlled.stamped {cc : CC} {b : Bool} (h : cc.Controlled b)
    (prevDecreaseTs prevAdjustTs : BitVec 32) :
    CC.Controlled { cc with prevDecreaseTs, prevAdjustTs } b :=
  ⟨h.loss_nonneg, h.loss_le, h.low, h.le, h.target, h.adjust, h.achieved, h.gap, h.increased⟩

/-- The last line of `adjust_rate`: `cwnd` is raised to the minimum. -/
theorem CC.Controlled.raise (cc : CC) (hloss : 0 ≤ cc.lossRatio) (hloss' : cc.lossRatio ≤ 1)
    (hle : cc.cwnd ≤ cc.targetCwnd) (hlow : (ccCwndMin : ℚ) ≤ cc.targetCwnd)
    (htarget : cc.targetCwnd < 1100) (hadjust : -ccFastRecoveryCnt ≤ cc.adjustCnt)
    (hgap : cc.targetCwnd - cc.cwnd ≤ gapBound cc.adjustCnt)
    (hinc : 0 ≤ cc.adjustCnt → ccCwndMin + ccAi * cc.adjustCnt ≤ cc.targetCwnd) :
    (if cc.cwnd < (ccCwndMin : ℚ) then { cc with cwnd := ccCwndMin } else cc).Controlled
      false := by
  split
  · rename_i hlt
    refine ⟨hloss, hloss', le_refl _, hlow, htarget, hadjust, fun h => absurd h (by decide), ?_,
      hinc⟩
    dsimp only
    linarith
  · rename_i hge
    exact ⟨hloss, hloss', not_lt.mp hge, hle, htarget, hadjust, fun h => absurd h (by decide),
      hgap, hinc⟩

/-! ## 3. `adjust_rate` -/

/-- A decrease. -/
theorem adjustRate_decrease {w : Worker} (h : w.window.cc.Controlled w.cwndAchieved) :
    (w.adjustRate true).window.cc.Controlled false := by
  have hloss := h.loss_nonneg
  have hloss' := h.loss_le
  have hlow := h.low
  have htarget := h.target
  have hle := h.le
  have hpos : 0 ≤ w.window.cc.cwnd := le_trans (by norm_num [ccCwndMin]) hlow
  have hratio : 0 ≤ (1 - ccG) * w.window.cc.lossRatio + ccG := by
    simp only [ccG]
    linarith
  have hratio' : (1 - ccG) * w.window.cc.lossRatio + ccG ≤ 1 := by
    simp only [ccG]
    linarith
  generalize hl : (1 - ccG) * w.window.cc.lossRatio + ccG = l at hratio hratio'
  have hcut : 0 ≤ w.window.cc.cwnd * l := mul_nonneg hpos hratio
  have hcut' : w.window.cc.cwnd * l ≤ w.window.cc.cwnd :=
    mul_le_of_le_one_right hpos hratio'
  simp only [Worker.adjustRate, if_true, hl]
  refine CC.Controlled.raise { w.window.cc with
    lossRatio := l, targetCwnd := w.window.cc.cwnd, cwnd := w.window.cc.cwnd * (1 - l / 2)
    adjustCnt := -ccFastRecoveryCnt } ?_ ?_ ?_ ?_ ?_ ?_ ?_ ?_
  · exact hratio
  · exact hratio'
  · dsimp only
    linarith
  · exact hlow
  · exact lt_of_le_of_lt hle htarget
  · exact le_refl _
  · rw [gapBound_start]
    dsimp only
    linarith
  · intro hneg
    exact absurd (show 0 ≤ -ccFastRecoveryCnt from hneg) (by decide)

/-- No decrease: the fast recovery, or an increase, or only a smaller loss ratio. -/
theorem adjustRate_increase {w : Worker} (h : w.window.cc.Controlled w.cwndAchieved) :
    (w.adjustRate false).window.cc.Controlled false := by
  have hloss : 0 ≤ (1 - ccG) * w.window.cc.lossRatio :=
    mul_nonneg (by norm_num [ccG]) h.loss_nonneg
  have hloss' : (1 - ccG) * w.window.cc.lossRatio ≤ 1 := by
    have := h.loss_nonneg
    have := h.loss_le
    simp only [ccG]
    linarith
  have hle := h.le
  have hlow := h.low
  have htarget := h.target
  have hgap := h.gap
  have hadjust := h.adjust
  simp only [Worker.adjustRate, Bool.false_eq_true, if_false]
  split
  · have hcwnd := h.achieved ‹_›
    simp only [maxWinLen, Nat.cast_ofNat] at hcwnd
    by_cases ha : 0 ≤ w.window.cc.adjustCnt
    · -- after the recovery `target_cwnd` grows, and `cwnd` takes half of the way to it
      have hinc := h.increased ha
      rw [gapBound_nonneg ha] at hgap
      simp only [if_pos ha]
      rw [ccAi_eq] at *
      refine CC.Controlled.raise { w.window.cc with
        lossRatio := (1 - ccG) * w.window.cc.lossRatio
        targetCwnd := w.window.cc.targetCwnd + 128 / 125
        adjustCnt := w.window.cc.adjustCnt + 1
        cwnd := (w.window.cc.targetCwnd + 128 / 125 + w.window.cc.cwnd) / 2 } ?_ ?_ ?_ ?_ ?_ ?_ ?_ ?_
      · exact hloss
      · exact hloss'
      · dsimp only
        linarith
      · dsimp only
        linarith
      · dsimp only
        linarith
      · dsimp only
        linarith
      · dsimp only
        rw [gapBound_nonneg (by linarith)]
        linarith
      · intro _
        dsimp only
        rw [ccAi_eq]
        push_cast
        linarith
    · have hneg : w.window.cc.adjustCnt < 0 := not_le.mp ha
      simp only [if_neg ha]
      refine CC.Controlled.raise { w.window.cc with
        lossRatio := (1 - ccG) * w.window.cc.lossRatio
        adjustCnt := w.window.cc.adjustCnt + 1
        cwnd := (w.window.cc.targetCwnd + w.window.cc.cwnd) / 2 } ?_ ?_ ?_ ?_ ?_ ?_ ?_ ?_
      · exact hloss
      · exact hloss'
      · dsimp only
        linarith
      · exact le_trans hlow hle
      · exact htarget
      · dsimp only
        linarith
      · dsimp only
        rw [gapBound_succ hadjust hneg]
        linarith
      · intro hzero
        dsimp only at hzero ⊢
        have hcnt : w.window.cc.adjustCnt + 1 = 0 := by omega
        rw [hcnt, Int.cast_zero, mul_zero, add_zero]
        exact le_trans hlow hle
  · exact CC.Controlled.raise { w.window.cc with
      lossRatio := (1 - ccG) * w.window.cc.lossRatio } hloss hloss' hle (le_trans hlow hle) htarget
      hadjust hgap h.increased

/-! ## 4. Steps -/

/-- The rate control of a worker is under control. -/
def Worker.Controlled (w : Worker) : Prop := w.window.cc.Controlled w.cwndAchieved

/-- The rate control of `w'` is that of `w`. -/
structure SameRate (w w' : Worker) : Prop where
  cc : w'.window.cc = w.window.cc
  achieved : w'.cwndAchieved = w.cwndAchieved

theorem SameRate.controlled {w w' : Worker} (hs : SameRate w w') (h : w.Controlled) :
    w'.Controlled := by
  rw [Worker.Controlled, hs.cc, hs.achieved]
  exact h

theorem genPkt_sameRate (w : Worker) (position : ℕ) : SameRate w (w.genPkt position).1 := by
  rw [Worker.genPkt]
  split
  · exact ⟨rfl, rfl⟩
  · rw [Worker.nextSubOp]
    cases w.qp.frontReq with
    | none => exact ⟨rfl, rfl⟩
    | some ptr =>
      dsimp only
      by_cases hrefused : w.currentGroupId ≠ (w.subOp ptr).op.group.groupId ∧
          w.window.txEmpty = false
      · rw [if_pos hrefused]
        exact ⟨rfl, rfl⟩
      · rw [if_neg hrefused]
        exact ⟨rfl, rfl⟩

theorem endTx_controlled {w : Worker} (h : w.Controlled) {toSend winLen : ℕ}
    (hwin : winLen < maxWinLen) : (w.endTx toSend winLen).Controlled := by
  rw [Worker.Controlled, Worker.endTx]
  dsimp only
  split
  · exact CC.Controlled.reach h hwin ‹_›
  · exact h

theorem sendOne_controlled {w : Worker} (h : w.Controlled) {toSend winLen expectWinLen : ℕ}
    (hwin : winLen < maxWinLen) : (w.sendOne toSend winLen expectWinLen).1.Controlled := by
  rw [Worker.sendOne]
  split
  · have hs := genPkt_sameRate w toSend
    generalize w.genPkt toSend = out at hs
    obtain ⟨w₁, _ | _, ev⟩ := out
    · exact endTx_controlled (hs.controlled h) hwin
    · have hsent : SameRate w₁ { w₁ with
          window := { w₁.window with
            leftPsn := if winLen = 0 then (w₁.window.state w₁.window.toAck).pkt.inc.psn
              else w₁.window.leftPsn }
          pc := .send (nextPosition toSend) (winLen + 1) expectWinLen } := ⟨rfl, rfl⟩
      exact hsent.controlled (hs.controlled h)
  · exact endTx_controlled h hwin

theorem startTx_controlled {w : Worker} (h : w.Controlled) : w.startTx.1.Controlled := by
  have hfull : ∀ w : Worker, w.Controlled → w.fullRetrans.1.Controlled := by
    intro w hw
    rw [Worker.fullRetrans]
    split
    · exact hw
    · exact CC.Controlled.reinit hw w.globalTs
  simp only [Worker.startTx]
  split <;> split
  · exact hfull _ h
  · exact h
  · exact hfull _ h
  · exact h

theorem congestionControl_controlled {w : Worker} (h : w.Controlled) :
    w.congestionControl.Controlled := by
  simp only [Worker.congestionControl]
  split
  · exact h
  split
  · exact h
  split
  · split
    · exact h
    · exact (adjustRate_increase h).stamped _ _
  · exact (adjustRate_decrease h).stamped _ _

/-- **Every step keeps the rate control in range.** -/
theorem Worker.Controlled.step {w w' : Worker} {l : Label} {events : List Event}
    (h : w.Controlled) (hwin : ∀ toSend winLen expectWinLen,
      w.pc = .send toSend winLen expectWinLen → winLen < maxWinLen)
    (hstep : w.step l = some (w', events)) : w'.Controlled := by
  cases l with
  | loopTop ts =>
    simp only [Worker.step, Option.ite_none_right_eq_some] at hstep
    obtain ⟨-, hstep⟩ := hstep
    obtain ⟨rfl, rfl⟩ := Prod.mk.inj (Option.some.inj hstep)
    exact h
  | receive f =>
    simp only [Worker.step, Option.ite_none_right_eq_some] at hstep
    obtain ⟨-, hstep⟩ := hstep
    have hw' : w' = (w.rxProcessOne f).1 := by rw [Option.some.inj hstep]
    rw [hw']
    rcases rxProcessOne_cases w f with ⟨tos, hr⟩ | ⟨-, -, ⟨_, _, _, _, hr⟩, -⟩
    · rw [hr]
      exact h
    · rw [hr]
      exact h
  | endRx =>
    simp only [Worker.step, Worker.shiftAck, Option.ite_none_right_eq_some] at hstep
    obtain ⟨-, hstep⟩ := hstep
    obtain ⟨qp, ok, hqueue⟩ := shiftFrom_queue maxWinLen w w.window.toAck
    obtain ⟨rfl, rfl⟩ := Prod.mk.inj (Option.some.inj hstep)
    dsimp only [Worker.Controlled]
    rw [hqueue]
    exact h
  | startTx =>
    simp only [Worker.step, Option.ite_none_right_eq_some] at hstep
    obtain ⟨-, hstep⟩ := hstep
    have hw' : w' = w.startTx.1 := by rw [Option.some.inj hstep]
    rw [hw']
    exact startTx_controlled h
  | sendOne =>
    cases hpc : w.pc with
    | send toSend winLen expectWinLen =>
      simp only [Worker.step, hpc] at hstep
      have hw' : w' = (w.sendOne toSend winLen expectWinLen).1 := by rw [Option.some.inj hstep]
      rw [hw']
      exact sendOne_controlled h (hwin _ _ _ hpc)
    | _ => exact absurd hstep (by simp [Worker.step, hpc])
  | congestion =>
    simp only [Worker.step, Option.ite_none_right_eq_some] at hstep
    obtain ⟨-, hstep⟩ := hstep
    obtain ⟨rfl, rfl⟩ := Prod.mk.inj (Option.some.inj hstep)
    exact congestionControl_controlled h
  | pushReq s =>
    obtain ⟨rfl, -, rfl⟩ := step_pushReq hstep
    exact h
  | popResp =>
    simp only [Worker.step] at hstep
    split at hstep
    · obtain ⟨rfl, rfl⟩ := Prod.mk.inj (Option.some.inj hstep)
      exact h
    · exact absurd hstep (by simp)
  | store addr b =>
    obtain ⟨rfl, rfl⟩ := Prod.mk.inj (Option.some.inj hstep)
    exact h

/-! ## 5. Runs -/

variable {ctx : BitVec 8 → BitVec 32} {r : Run}

theorem controlled_reach {ok : Run → Label → Prop} (h : Reach (Run.Init ctx) Run.Step ok r) :
    r.worker.Controlled := by
  refine (h.invariant (P := fun r => (r.Placed ∧ ∃ k sent, Cursor ctx r k sent) ∧
    r.worker.Controlled) ?_ ?_).2
  · rintro r hi
    refine ⟨⟨.init hi, 0, 0, .init hi⟩, ?_⟩
    obtain ⟨⟨mem, pkt, hw⟩, -⟩ := hi
    rw [hw]
    exact CC.init_controlled
  · rintro r l r' ⟨⟨hp, k, sent, hc⟩, hctl⟩ - hstep
    refine ⟨⟨hp.step hc hstep, hc.step hstep⟩, ?_⟩
    obtain ⟨events, hw, -⟩ := hstep
    refine hctl.step (fun toSend winLen expectWinLen hpc => ?_) hw
    obtain ⟨rfl, -⟩ := hp.send _ _ _ hpc
    have hbound := hp.bound
    simp only [maxWinLen] at *
    omega

/-- What is promised of the rate control, and of the conversion `(win_size_t)cc.cwnd`. -/
structure CC.InRange (cc : CC) : Prop where
  lossRatio : 0 ≤ cc.lossRatio ∧ cc.lossRatio ≤ 1
  cwnd : (ccCwndMin : ℚ) ≤ cc.cwnd ∧ cc.cwnd ≤ cc.targetCwnd
  targetCwnd : cc.targetCwnd < 1100
  adjustCnt : -ccFastRecoveryCnt ≤ cc.adjustCnt ∧ cc.adjustCnt < 1100
  winSize : (cc.winSize : ℚ) ≤ cc.cwnd ∧ cc.cwnd < cc.winSize + 1 ∧ cc.winSize < 2 ^ 32

theorem CC.Controlled.inRange {cc : CC} {b : Bool} (h : cc.Controlled b) : cc.InRange := by
  have hlow := h.low
  have hle := h.le
  have htarget := h.target
  have hpos : 0 ≤ cc.cwnd := le_trans (by norm_num [ccCwndMin]) hlow
  have hfloor : (cc.winSize : ℚ) = ⌊cc.cwnd⌋ := by
    rw [CC.winSize, ← Int.cast_natCast, Int.toNat_of_nonneg (Int.floor_nonneg.mpr hpos)]
  refine ⟨⟨h.loss_nonneg, h.loss_le⟩, ⟨hlow, hle⟩, htarget, ⟨h.adjust, ?_⟩, ?_, ?_, ?_⟩
  · rcases lt_or_ge cc.adjustCnt 0 with hneg | hnonneg
    · omega
    · -- every increase is in `target_cwnd`
      have hinc := h.increased hnonneg
      have hlt : (cc.adjustCnt : ℚ) < 1100 := by
        rw [ccAi_eq] at hinc
        have hmin : (0 : ℚ) ≤ ccCwndMin := Nat.cast_nonneg _
        have hcnt : (0 : ℚ) ≤ cc.adjustCnt := Int.cast_nonneg hnonneg
        linarith
      exact_mod_cast hlt
  · rw [hfloor]
    exact Int.floor_le _
  · rw [hfloor]
    exact Int.lt_floor_add_one _
  · have hlt : (cc.winSize : ℚ) < 2 ^ 32 := by
      rw [hfloor]
      have := Int.floor_le cc.cwnd
      norm_num at *
      linarith
    exact_mod_cast hlt

theorem CC.InRange.winSize_ge {cc : CC} (h : cc.InRange) : ccCwndMin ≤ cc.winSize := by
  have hlow := h.cwnd.1
  have hlt := h.winSize.2.1
  have hcast : (ccCwndMin : ℚ) < (cc.winSize : ℚ) + 1 := lt_of_le_of_lt hlow hlt
  exact Nat.lt_succ_iff.mp (by exact_mod_cast hcast)

/-- `tx_process` on an empty window has nothing to resend. -/
theorem startTx_empty {w : Worker} (hempty : w.window.txEmpty = true) :
    w.startTx.1.pc = .send w.window.toSend 0 (min (maxWinLen - 1)
      (min w.currentSwitchWindowLimit (min w.window.cc.winSize maxPktBurst))) := by
  have heq : w.window.toAck = w.window.toSend := beq_iff_eq.mp hempty
  have hlen : w.window.len = 0 := by
    rw [Window.len, heq, if_pos (Nat.le_refl _), Nat.sub_self]
  obtain ⟨cnt, ts, hnoted⟩ := startTx_noted w
  have hfull : Worker.fullRetrans { w with
      prevAckCnt := cnt, window := { w.window with lastAckTimeStamp := ts } } =
      ({ w with prevAckCnt := cnt, window := { w.window with lastAckTimeStamp := ts } }, []) :=
    if_pos hempty
  rw [Worker.startTx]
  dsimp only
  have hzero : Window.len { w.window with lastAckTimeStamp := ts } = 0 := hlen
  rw [hnoted, hfull, ite_self]
  dsimp only
  rw [hzero, Nat.zero_add]

/-- **The rate control stays in range**, in every run; and when `shift_send` finds the window
empty it aims for `CC_CWND_MIN` packets at least, unless the switch window limit is smaller. -/
theorem congestion_in_range (h : Reach (Run.Init ctx) Run.Step Free r) :
    r.worker.window.cc.InRange ∧ ∀ r', r.Step .startTx r' → r.worker.window.txEmpty = true →
      ∃ toSend winLen expectWinLen, r'.worker.pc = .send toSend winLen expectWinLen ∧
        min ccCwndMin r.worker.currentSwitchWindowLimit ≤ expectWinLen := by
  have hrange := (controlled_reach h).inRange
  refine ⟨hrange, fun r' hstep hempty => ?_⟩
  obtain ⟨events, hw, -⟩ := hstep
  simp only [Worker.step, Option.ite_none_right_eq_some] at hw
  obtain ⟨-, hw⟩ := hw
  have hpc := startTx_empty hempty
  rw [Option.some.inj hw] at hpc
  refine ⟨_, _, _, hpc, ?_⟩
  have hsize := hrange.winSize_ge
  simp only [ccCwndMin, maxWinLen, maxPktBurst] at *
  omega

/-- A packet whose answer is marked, so that the rate goes down; and one that is sent again after
the timeout, and then answered. -/
def markedThenTimeout : List Label :=
  [.pushReq (emptySubOp 1), .loopTop 0, .endRx, .startTx, .sendOne, .sendOne, .congestion,
    .pushReq (emptySubOp 1), .loopTop 20, .receive (answer 0 3), .endRx, .startTx, .sendOne,
    .sendOne, .congestion, .loopTop 2000, .endRx, .startTx, .sendOne, .congestion, .loopTop 2005,
    .receive (answer 1 0), .endRx]

/-- The loss ratio is that of one decrease, and the time stamp that of the timeout; the window is
empty, and `shift_send` aims for ten. -/
theorem congestion_in_range_timeout : ∃ r, Run.start.exec (fun _ _ => true) markedThenTimeout =
      some r ∧ r.worker.window.cc.lossRatio = 1 / 256 ∧
      r.worker.window.cc.prevDecreaseTs = 2000 ∧ r.worker.window.cc.InRange ∧
      ∃ r', r.Step .startTx r' ∧ ∃ toSend winLen expectWinLen,
        r'.worker.pc = .send toSend winLen expectWinLen ∧
        min ccCwndMin r.worker.currentSwitchWindowLimit ≤ expectWinLen := by
  have hrun : ((Run.start.exec (fun _ _ => true) markedThenTimeout).map fun r =>
      decide (r.worker.window.cc.lossRatio = 1 / 256 ∧
        r.worker.window.cc.prevDecreaseTs = 2000 ∧ r.worker.window.txEmpty = true ∧
        (r.exec1 .startTx).isSome = true)) = some true := by
    decide +kernel
  obtain ⟨r, hr, hview⟩ := Option.map_eq_some_iff.mp hrun
  obtain ⟨hloss, hts, hempty, hsome⟩ := of_decide_eq_true hview
  have hreach : Reach (Run.Init fun _ => 0) Run.Step Free r :=
    Run.exec_reach (fun _ _ _ => trivial) _ (.init Run.start_init) hr
  obtain ⟨r', hr'⟩ := Option.isSome_iff_exists.mp hsome
  have hstep := Run.exec1_step hr'
  obtain ⟨hrange, haims⟩ := congestion_in_range hreach
  exact ⟨r, hr, hloss, hts, hrange, r', hstep, haims _ hstep hempty⟩

end NetCCL.Backend
