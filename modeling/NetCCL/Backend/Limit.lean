/-
# The window limit of a group

The switch gives a group `agg_len` slots, and a worker keeps at most `agg_len / 2` packets in
flight so that a slot is not taken again while its old round may still be asked for.  `gen_pkt`
sets `current_switch_window_limit` when it turns to a sub-op; but `shift_send` computes how long
the window is to become BEFORE it calls `gen_pkt`, with the limit of the sub-op before.  So the
window can outgrow the limit in the one loop that turns to a group with a smaller one.

* `Overruns`: the turn that leads to it -- there are more packets to come, of the window and of
  the sub-op, than the limit of the sub-op allows, and `shift_send` has set out for more;
* `Run.Fits.step`: every other step keeps the loop within the limit of the sub-op it is in;
* `overrun_rounds`: after such a turn the rounds of the same loop go on to the end;
* `limit_respected`: so the limit holds up to the first such turn, and breaks after it.
-/
import NetCCL.Backend.Positions
import NetCCL.Backend.Rounds

namespace NetCCL.Backend

open Lib

/-! ## 1. The sub-op a round builds a packet of -/

/-- `gen_pkt` turns to sub-op `ptr`. -/
structure Worker.Turns (w : Worker) (ptr : ℕ) : Prop where
  idle : w.gen.subOp = none
  front : w.qp.frontReq = some ptr
  group : w.currentGroupId = (w.subOp ptr).op.group.groupId ∨ w.window.txEmpty = true

/-- The next packet is one of sub-op `ptr`, of which that many are left to build. -/
inductive Worker.Building (w : Worker) (ptr : ℕ) : ℕ → Prop
  | going : w.gen.subOp = some ptr → w.Building ptr (w.gen.pktCnt - w.gen.pktSent)
  | turning : w.Turns ptr → w.Building ptr (pktCount (w.subOp ptr))

/-- One packet less is left. -/
structure OneLess (w w' : Worker) (ptr n : ℕ) : Prop where
  left : w'.gen.subOp = some ptr → w'.gen.pktCnt - w'.gen.pktSent = n - 1
  only : w'.gen.subOp ≠ none → w'.gen.subOp = some ptr
  more : 1 < n → w'.gen.subOp = some ptr
  heap : w'.heap = w.heap

theorem buildPkt_oneLess {w : Worker} {ptr : ℕ} (position : ℕ) :
    OneLess w (w.buildPkt position ptr).1 ptr (w.gen.pktCnt - w.gen.pktSent) := by
  have hsub : (w.buildPkt position ptr).1.gen.subOp =
      if w.gen.pktSent + 1 = w.gen.pktCnt then none else some ptr := by
    simp only [Worker.buildPkt, Worker.putPkt, nextPkt_isLast, decide_eq_true_eq]
  refine ⟨fun _ => Nat.sub_succ _ _, fun hne => ?_, fun hmore => ?_, rfl⟩
  · rw [hsub] at hne ⊢
    exact if_neg fun he => hne (if_pos he)
  · rw [hsub]
    exact if_neg (by omega)

theorem Worker.Building.genPkt {w : Worker} {ptr left : ℕ} (h : w.Building ptr left)
    (position : ℕ) : ∃ w' events, w.genPkt position = (w', true, events) ∧
      OneLess w w' ptr left := by
  cases h with
  | going hgen =>
    refine ⟨_, (w.buildPkt position ptr).2, ?_, buildPkt_oneLess position⟩
    rw [Worker.genPkt, hgen]
  | turning hturn =>
    have hallow : ¬ (w.currentGroupId ≠ (w.subOp ptr).op.group.groupId ∧
        w.window.txEmpty = false) := by
      rintro ⟨hgroup, hempty⟩
      rcases hturn.group with h | h
      · exact hgroup h
      · rw [h] at hempty
        exact absurd hempty (by decide)
    have hless := @buildPkt_oneLess (w.turnTo ptr) ptr position
    refine ⟨_, [.deref ptr, .took ptr] ++ ((w.turnTo ptr).buildPkt position ptr).2, ?_,
      hless.left, hless.only, hless.more, hless.heap⟩
    rw [Worker.genPkt, hturn.idle]
    dsimp only
    rw [Worker.nextSubOp, hturn.front]
    dsimp only
    rw [if_neg hallow]
    rfl

variable {ctx : BitVec 8 → BitVec 32} {r r' : Run} {k sent ptr left : ℕ}
  {toSend winLen expectWinLen : ℕ}

/-- What `gen_pkt` looks at before it builds a packet of sub-op `k`. -/
theorem Starting.building {pre : List Event} (h : Starting r.worker k pre)
    (hc : Cursor ctx r k sent) : ∃ left, 0 < left ∧ r.worker.Building k left ∧
      (r.worker.Turns k ∧ left = pktCount (r.worker.subOp k) ∨
        r.worker.gen.subOp = some k ∧ left = r.worker.gen.pktCnt - r.worker.gen.pktSent) := by
  cases h with
  | going hgen =>
    refine ⟨_, ?_, .going hgen, Or.inr ⟨hgen, rfl⟩⟩
    rcases hc.statics with ⟨hnone, -⟩ | ⟨-, hst⟩
    · exact absurd (hnone.symm.trans hgen) (by simp)
    · rw [hst.gen]
      exact Nat.sub_pos_of_lt hst.sent_lt
  | turned hgen hfront hgroup =>
    exact ⟨_, pktCount_pos _, .turning ⟨hgen, hfront, hgroup⟩,
      Or.inl ⟨⟨hgen, hfront, hgroup⟩, rfl⟩⟩

/-- **One round** with room in the window and a packet to build. -/
theorem Worker.Building.sendOne (h : r.worker.Building ptr left) (hc : Cursor ctx r k sent)
    (hpc : r.worker.pc = .send toSend winLen expectWinLen) (hlt : winLen < expectWinLen)
    (hstep : r.Step .sendOne r') :
    r'.worker.pc = .send (nextPosition toSend) (winLen + 1) expectWinLen ∧
      OneLess r.worker r'.worker ptr left ∧
      ∃ p, built r'.log = built r.log ++ [p] ∧ p.subOp = ptr := by
  have hstep' := hstep
  obtain ⟨events, hw, -⟩ := hstep
  obtain ⟨w', ev, hgen, hless⟩ := h.genPkt toSend
  simp only [Worker.step, hpc, Worker.sendOne, if_pos hlt, hgen] at hw
  have hr := (Prod.mk.inj (Option.some.inj hw)).1
  have hpc' : r'.worker.pc = .send (nextPosition toSend) (winLen + 1) expectWinLen := by rw [← hr]
  refine ⟨hpc', ?_, ?_⟩
  · rw [← hr]
    exact ⟨hless.left, hless.only, hless.more, hless.heap⟩
  · rcases hc.sendOne hpc hstep' with ⟨_, -, hend, -⟩ | ⟨p, pre, _, _, -, hpre, hs, hlog, -⟩
    · have hcc : r'.worker.pc = .cc := by rw [hend]; rfl
      exact absurd (hcc.symm.trans hpc') (by simp)
    · have hb : built pre = [] := by cases hpre <;> rfl
      refine ⟨p, by rw [hlog, built_append, built_append, hb]; rfl, ?_⟩
      rw [hs.subOp]
      cases hpre with
      | going hk =>
        cases h with
        | going hptr => exact Option.some.inj (hk.symm.trans hptr)
        | turning hturn => exact absurd (hturn.idle.symm.trans hk) (by simp)
      | turned hk hfront =>
        cases h with
        | going hptr => exact absurd (hk.symm.trans hptr) (by simp)
        | turning hturn => exact Option.some.inj (hfront.symm.trans hturn.front)

/-! ## 2. The limit -/

/-- If the step builds a packet, which it then transmits at once, that many are in flight as
the sub-op of the packet allows. -/
def Run.Respects (r r' : Run) : Prop := ∀ p, built r'.log = built r.log ++ [p] →
  (inFlight r'.log).length ≤ (r'.worker.subOp p.subOp).aggLen / 2

/-- **The slip**: `gen_pkt` turns to a sub-op with more to send, and more set out for, than the
limit of the sub-op allows. -/
def Overruns (r : Run) (l : Label) : Prop :=
  l = .sendOne ∧ ∃ toSend winLen expectWinLen ptr,
    r.worker.pc = .send toSend winLen expectWinLen ∧ winLen < expectWinLen ∧
    r.worker.Turns ptr ∧ (r.worker.subOp ptr).aggLen / 2 <
      min (winLen + pktCount (r.worker.subOp ptr)) expectWinLen

/-- The loop of `shift_send` stays within the limit of the sub-op it is in. -/
def Run.Fits (r : Run) : Prop := ∀ toSend winLen expectWinLen ptr,
  r.worker.pc = .send toSend winLen expectWinLen → r.worker.gen.subOp = some ptr →
    min (winLen + (r.worker.gen.pktCnt - r.worker.gen.pktSent)) expectWinLen ≤
      (r.worker.subOp ptr).aggLen / 2

theorem Cursor.current_lt (h : Cursor ctx r k sent) (hgen : r.worker.gen.subOp = some ptr) :
    ptr < r.worker.heap.length ∧
      r.worker.currentSwitchWindowLimit = (r.worker.subOp ptr).aggLen / 2 := by
  rcases h.statics with ⟨hnone, -⟩ | ⟨-, hst⟩
  · exact absurd (hnone.symm.trans hgen) (by simp)
  · rw [hst.gen] at hgen
    obtain rfl := Option.some.inj hgen
    exact ⟨hst.lt, hst.limit⟩

/-- A packet built in a loop that fits. -/
theorem Run.Fits.bound (h : r.Fits) (hok : ¬ Overruns r .sendOne) (hc : Cursor ctx r k sent)
    (hpc : r.worker.pc = .send toSend winLen expectWinLen) (hlt : winLen < expectWinLen)
    {pre : List Event} (hpre : Starting r.worker k pre) : ∃ left, 0 < left ∧
      r.worker.Building k left ∧
      min (winLen + left) expectWinLen ≤ (r.worker.subOp k).aggLen / 2 := by
  obtain ⟨left, hleft, hb, ⟨hturn, rfl⟩ | ⟨hgen, rfl⟩⟩ := hpre.building hc
  · refine ⟨_, hleft, hb, not_lt.mp fun hover => hok ?_⟩
    exact ⟨rfl, toSend, winLen, expectWinLen, k, hpc, hlt, hturn, hover⟩
  · exact ⟨_, hleft, hb, h _ _ _ _ hpc hgen⟩

/-- The rounds of the loop. -/
theorem Run.Fits.sendOne (h : r.Fits) (hok : ¬ Overruns r .sendOne) (hc : Cursor ctx r k sent)
    (hpc : r.worker.pc = .send toSend winLen expectWinLen) (hstep : r.Step .sendOne r') :
    r'.Fits := by
  intro toSend' winLen' expectWinLen' ptr hpc' hgen'
  rcases hc.sendOne hpc hstep with ⟨_, -, hend, -⟩ | ⟨p, pre, _, _, hlt, hpre, -⟩
  · have hcc : r'.worker.pc = .cc := by rw [hend]; rfl
    exact absurd (hcc.symm.trans hpc') (by simp)
  · obtain ⟨left, hleft, hb, hbound⟩ := h.bound hok hc hpc hlt hpre
    obtain ⟨hpc₁, hless, -⟩ := hb.sendOne hc hpc hlt hstep
    obtain ⟨-, rfl, rfl⟩ := Pc.send.inj (hpc₁.symm.trans hpc')
    have hptr := hless.only (by rw [hgen']; simp)
    obtain rfl := Option.some.inj (hgen'.symm.trans hptr)
    rw [hless.left hptr, Worker.subOp_congr hless.heap]
    omega

/-- **Every step but the slip keeps the loop within its limit.** -/
theorem Run.Fits.step {l : Label} (h : r.Fits) (hok : ¬ Overruns r l) (hc : Cursor ctx r k sent)
    (hstep : r.Step l r') : r'.Fits := by
  by_cases hsend : l = .sendOne
  · subst hsend
    cases hpc : r.worker.pc with
    | send toSend winLen expectWinLen => exact h.sendOne hok hc hpc hstep
    | _ =>
      obtain ⟨_, hw, -⟩ := hstep
      exact absurd hw (by simp [Worker.step, hpc])
  intro toSend winLen expectWinLen ptr hpc hgen
  obtain ⟨events, -, hcase⟩ := step_cases hc hstep
  -- the loop goes on where it was
  have hsame : r'.worker.pc = r.worker.pc → r'.worker.gen = r.worker.gen →
      r'.worker.subOp ptr = r.worker.subOp ptr →
      min (winLen + (r'.worker.gen.pktCnt - r'.worker.gen.pktSent)) expectWinLen ≤
        (r'.worker.subOp ptr).aggLen / 2 := by
    intro hpc' hgen' hsub
    rw [hpc'] at hpc
    rw [hgen'] at hgen
    rw [hgen', hsub]
    exact h _ _ _ _ hpc hgen
  by_cases hpush : ∃ s, l = .pushReq s
  · obtain ⟨s, rfl⟩ := hpush
    obtain ⟨_, hw, -⟩ := hstep
    obtain ⟨-, -, hr⟩ := step_pushReq hw
    have hgen₀ : r.worker.gen.subOp = some ptr := by rw [hr] at hgen; exact hgen
    exact hsame (by rw [hr]) (by rw [hr])
      (Worker.subOp_of_append (by rw [hr]) (hc.current_lt hgen₀).1)
  obtain ⟨hq, -⟩ := step_sameQueue hstep.choose_spec.1 hsend (not_exists.mp hpush)
  have hsub := Worker.subOp_congr hq.heap ptr
  cases hcase with
  | quiet hs =>
    rcases hs.pc with hpc' | ⟨hout, -⟩
    · exact hsame hpc' hq.gen hsub
    · exact absurd hpc (hout _ _ _)
  | pushReq => exact absurd ⟨_, rfl⟩ hpush
  | popResp _ hr => exact hsame (by rw [hr]) hq.gen hsub
  | accept hout _ hat =>
    obtain ⟨-, ⟨_, _, _, _, hr⟩, -⟩ := hat
    rw [hr] at hpc
    exact absurd hpc (hout _ _ _)
  | endRx =>
    obtain ⟨_, hw, -⟩ := hstep
    simp only [Worker.step, Worker.shiftAck, Option.ite_none_right_eq_some] at hw
    rw [← (Prod.mk.inj (Option.some.inj hw.2)).1] at hpc
    exact absurd hpc (by simp)
  | startTx hout hst =>
    -- the limit in force is that of the current sub-op
    obtain ⟨_, _, _, ew, hw, -, hlimit, -⟩ := startTx_spec r.worker
    rw [hst] at hw
    dsimp only at hw
    rw [hw] at hpc
    obtain ⟨-, -, rfl⟩ := Pc.send.inj hpc
    rw [hq.gen] at hgen
    rw [(hc.current_lt hgen).2] at hlimit
    rw [hsub]
    exact Nat.le_trans (Nat.min_le_right _ _) hlimit
  | endTx => exact absurd rfl hsend
  | sent => exact absurd rfl hsend

/-! ## 3. After the slip -/

theorem inFlight_length (log : List Event) :
    (inFlight log).length = (built log).length - completed log := List.length_drop

theorem Run.Placed.inFlight_length (h : r.Placed)
    (hpc : r.worker.pc = .send toSend winLen expectWinLen) :
    (inFlight r.log).length = winLen := by
  rw [Backend.inFlight_length, (h.send _ _ _ hpc).1]

/-- The next rounds of the loop of `shift_send`. -/
def Run.Continues (r r' : Run) : Prop := Reach (· = r) Run.Step (fun _ l => l = .sendOne) r'

/-- **The loop goes on** while there is room, and packets of the sub-op. -/
theorem overrun_rounds (hp : r.Placed) (hc : Cursor ctx r k sent)
    (hpc : r.worker.pc = .send toSend winLen expectWinLen) (hb : r.worker.Building ptr left) :
    ∀ j < left, winLen + j < expectWinLen → ∃ r₁, r.Continues r₁ ∧ r₁.Placed ∧
      (∃ k sent, Cursor ctx r₁ k sent) ∧ (∃ toSend', r₁.worker.pc =
        .send toSend' (winLen + j) expectWinLen) ∧
      r₁.worker.Building ptr (left - j) ∧ r₁.worker.heap = r.worker.heap := by
  intro j
  induction j with
  | zero => exact fun _ _ => ⟨r, .init rfl, hp, ⟨k, sent, hc⟩, ⟨toSend, hpc⟩, hb, rfl⟩
  | succ j ih =>
    intro hj hroom
    obtain ⟨r₁, hcont, hp₁, ⟨k₁, sent₁, hc₁⟩, ⟨toSend₁, hpc₁⟩, hb₁, hheap⟩ :=
      ih (Nat.lt_of_succ_lt hj) (by omega)
    obtain ⟨⟨w, ev⟩, hw⟩ : ∃ out, r₁.worker.step .sendOne = some out := by
      simp only [Worker.step, hpc₁]
      exact ⟨_, rfl⟩
    have hstep : r₁.Step .sendOne ⟨w, r₁.log ++ ev⟩ := ⟨ev, hw, rfl⟩
    obtain ⟨hpc₂, hless, -⟩ := hb₁.sendOne hc₁ hpc₁ (by omega) hstep
    have hgen := hless.more (by omega)
    refine ⟨_, .step hcont rfl hstep, hp₁.step hc₁ hstep, hc₁.step hstep, ⟨_, hpc₂⟩, ?_,
      hless.heap.trans hheap⟩
    have hgoing := Worker.Building.going hgen
    rw [hless.left hgen] at hgoing
    exact hgoing

/-- **The slip always breaks the limit**, in the same loop. -/
theorem Overruns.breaks {l : Label} (h : Overruns r l) (hp : r.Placed)
    (hc : Cursor ctx r k sent) :
    ∃ r₁ r₂, r.Continues r₁ ∧ r₁.Step .sendOne r₂ ∧ ¬ r₁.Respects r₂ := by
  obtain ⟨rfl, toSend, winLen, expectWinLen, ptr, hpc, hlt, hturn, hover⟩ := h
  have hcnt := pktCount_pos (r.worker.subOp ptr)
  -- as many rounds as it takes to fill the limit
  obtain ⟨r₁, hcont, hp₁, ⟨k₁, sent₁, hc₁⟩, ⟨toSend₁, hpc₁⟩, hb₁, hheap⟩ :=
    overrun_rounds hp hc hpc (.turning hturn) ((r.worker.subOp ptr).aggLen / 2 - winLen)
      (by omega) (by omega)
  obtain ⟨⟨w, ev⟩, hw⟩ : ∃ out, r₁.worker.step .sendOne = some out := by
    simp only [Worker.step, hpc₁]
    exact ⟨_, rfl⟩
  have hstep : r₁.Step .sendOne ⟨w, r₁.log ++ ev⟩ := ⟨ev, hw, rfl⟩
  obtain ⟨hpc₂, hless, p, hbuilt, hsub⟩ := hb₁.sendOne hc₁ hpc₁ (by omega) hstep
  refine ⟨r₁, _, hcont, hstep, fun hresp => ?_⟩
  have hle := hresp p hbuilt
  rw [(hp₁.step hc₁ hstep).inFlight_length hpc₂, hsub,
    Worker.subOp_congr (hless.heap.trans hheap)] at hle
  omega

/-! ## 4. Runs -/

/-- Only a round of `shift_send` builds a packet, and it builds one. -/
theorem Run.Fits.respects {l : Label} (h : r.Fits) (hok : ¬ Overruns r l) (hp : r.Placed)
    (hc : Cursor ctx r k sent) (hstep : r.Step l r') : r.Respects r' := by
  intro p hbuilt
  have hnone : built r'.log ≠ built r.log := by rw [hbuilt]; simp
  obtain ⟨events, hlog, hcase⟩ := step_cases hc hstep
  by_cases hpush : ∃ s, l = .pushReq s
  · obtain ⟨s, rfl⟩ := hpush
    obtain ⟨ev, hw, hlog'⟩ := hstep
    obtain ⟨rfl, -⟩ := step_pushReq hw
    exact absurd (by rw [hlog', List.append_nil]) hnone
  by_cases hsend : l = .sendOne
  swap
  · obtain ⟨ev, hw, hlog'⟩ := hstep
    obtain ⟨-, hquiet, -⟩ := step_sameQueue hw hsend (not_exists.mp hpush)
    exact absurd (by rw [hlog', built_append, hquiet, List.append_nil]) hnone
  subst hsend
  cases hpc : r.worker.pc with
  | send toSend winLen expectWinLen =>
    rcases hc.sendOne hpc hstep with ⟨ev, hlog', -, hev, -⟩ | ⟨_, pre, _, _, hlt, hpre, -⟩
    · have hstill : Still ev := still_deref fun e he => ⟨k, (hev e he).1⟩
      exact absurd (by rw [hlog', built_append, hstill.built, List.append_nil]) hnone
    · obtain ⟨left, hleft, hb, hbound⟩ := h.bound hok hc hpc hlt hpre
      obtain ⟨hpc', hless, q, hbuilt', hsub⟩ := hb.sendOne hc hpc hlt hstep
      obtain rfl : p = q := by
        rw [hbuilt'] at hbuilt
        exact (List.singleton_inj.mp (List.append_cancel_left hbuilt)).symm
      rw [(hp.step hc hstep).inFlight_length hpc', hsub, Worker.subOp_congr hless.heap]
      omega
  | _ =>
    obtain ⟨_, hw, -⟩ := hstep
    exact absurd hw (by simp [Worker.step, hpc])

/-- The run lemma: every loop fits, up to the first slip. -/
theorem fits_reach (h : Reach (Run.Init ctx) Run.Step (fun r l => ¬ Overruns r l) r) :
    r.Fits ∧ r.Placed ∧ ∃ k sent, Cursor ctx r k sent := by
  refine h.invariant (P := fun r => r.Fits ∧ r.Placed ∧ ∃ k sent, Cursor ctx r k sent) ?_ ?_
  · refine fun r hi => ⟨?_, .init hi, 0, 0, .init hi⟩
    obtain ⟨⟨mem, pkt, hw⟩, -⟩ := hi
    intro toSend winLen expectWinLen ptr hpc _
    rw [hw] at hpc
    exact absurd hpc (by simp [Worker.init])
  · rintro r l r' ⟨hf, hp, k, sent, hc⟩ hok hs
    exact ⟨hf.step hok hc hs, hp.step hc hs, hc.step hs⟩

/-- **The limit of the group being sent** is respected by every transmit of `shift_send` in
every run without the slip; and after a slip it is not, before the loop ends. -/
theorem limit_respected (h : Reach (Run.Init ctx) Run.Step (fun r l => ¬ Overruns r l) r) :
    (∀ l r', ¬ Overruns r l → r.Step l r' → r.Respects r') ∧
      ∀ l, Overruns r l → ∃ r₁ r₂, r.Continues r₁ ∧ r₁.Step .sendOne r₂ ∧ ¬ r₁.Respects r₂ := by
  obtain ⟨hf, hp, k, sent, hc⟩ := fits_reach h
  exact ⟨fun l r' hok hstep => hf.respects hok hp hc hstep, fun l hover => hover.breaks hp hc⟩

/-- Steps that are not the slip: the sub-op that is taken has no more packets than its limit
leaves room for. -/
def roomy (r : Run) : Label → Bool
  | .sendOne => match r.worker.pc, r.worker.gen.subOp, r.worker.qp.frontReq with
    | .send _ winLen expectWinLen, none, some ptr =>
      decide (min (winLen + pktCount (r.worker.subOp ptr)) expectWinLen ≤
        (r.worker.subOp ptr).aggLen / 2)
    | _, _, _ => true
  | _ => true

theorem roomy_not_overruns (r : Run) (l : Label) (h : roomy r l = true) : ¬ Overruns r l := by
  rintro ⟨rfl, toSend, winLen, expectWinLen, ptr, hpc, -, hturn, hover⟩
  simp only [roomy, hpc, hturn.idle, hturn.front, decide_eq_true_eq] at h
  omega

/-! ## 5. A small group after a large one -/

/-- What a sub-op is queued under: a group has room for `CC_CWND_MIN` packets twice, and the
first sub-op of a new group finds the window empty and everything before it answered. -/
def Granted (r : Run) : Label → Prop
  | .pushReq s => 2 * ccCwndMin ≤ s.aggLen ∧ (s.op.group.groupId ≠ r.worker.currentGroupId →
      inFlight r.log = [] ∧ ∀ ptr < r.worker.heap.length, ptr ∈ pushed r.log)
  | _ => True

/-- The same, computed. -/
def granted (r : Run) : Label → Bool
  | .pushReq s => decide (2 * ccCwndMin ≤ s.aggLen) && (inFlight r.log).isEmpty &&
      (List.range r.worker.heap.length).all fun ptr => decide (ptr ∈ pushed r.log)
  | _ => true

theorem granted_granted (r : Run) (l : Label) (h : granted r l = true) : Granted r l := by
  cases l with
  | pushReq s =>
    simp only [granted, Bool.and_eq_true, decide_eq_true_eq, List.isEmpty_iff, List.all_eq_true,
      List.mem_range] at h
    exact ⟨h.1.1, fun _ => ⟨h.1.2, h.2⟩⟩
  | _ => trivial

/-- An all-reduce of some packets, of a group with that many slots. -/
def packets (groupId : BitVec 8) (aggLen n : ℕ) : SubOp :=
  ⟨⟨.allReduce, 0, n * payloadSize, 0, ⟨groupId, 2, 0, 0, aggLen⟩⟩, 0, n * payloadSize, 0, aggLen⟩

/-- Ten packets of a group with 1024 slots, sent and answered, after which the window may grow;
then `n` of a group with 20, in as many rounds as given. -/
def largeThenSmall (n rounds : ℕ) : List Label :=
  [.pushReq (packets 1 1024 10), .loopTop 0, .endRx, .startTx] ++ List.replicate 11 .sendOne ++
  [.congestion, .loopTop 20] ++
  (List.range 10).map (fun i => .receive (answer (BitVec.ofNat 32 i) 0)) ++
  [.endRx, .startTx, .sendOne, .congestion, .pushReq (packets 2 20 n), .loopTop 20, .endRx,
    .startTx] ++ List.replicate rounds .sendOne

/-- Ten packets may be out at once: the tenth goes out within the limit, though the loop set out to
have 32. -/
theorem limit_respected_small : ∃ r r', Run.start.exec roomy (largeThenSmall 10 9) = some r ∧
    r.Step .sendOne r' ∧ r'.worker.currentSwitchWindowLimit = 10 ∧
    (inFlight r'.log).length = 10 ∧ r.worker.pc = .send 19 9 32 ∧ r.Respects r' := by
  have hrun : ((Run.start.exec roomy (largeThenSmall 10 9)).bind fun r =>
      (r.exec1 .sendOne).map fun r' => (roomy r .sendOne, r'.worker.currentSwitchWindowLimit,
        (inFlight r'.log).length, r.worker.pc)) = some (true, 10, 10, .send 19 9 32) := by
    decide +kernel
  obtain ⟨r, hr, hview⟩ := Option.bind_eq_some_iff.mp hrun
  obtain ⟨r', hr', hview⟩ := Option.map_eq_some_iff.mp hview
  simp only [Prod.mk.injEq] at hview
  obtain ⟨hroomy, hlimit, hfly, hpc⟩ := hview
  have hstep := Run.exec1_step hr'
  refine ⟨r, r', hr, hstep, hlimit, hfly, hpc, ?_⟩
  exact (limit_respected (Run.exec_reach roomy_not_overruns _ (.init Run.start_init) hr)).1
    .sendOne _ (roomy_not_overruns _ _ hroomy) hstep

/-- **The limit is not respected**: the eleventh packet goes out as well, where ten are
allowed. -/
theorem limit_respected_fails : ∃ r r', Run.start.exec granted (largeThenSmall 11 10) = some r ∧
    Reach (Run.Init fun _ => 0) Run.Step Granted r ∧ r.Step .sendOne r' ∧ ¬ r.Respects r' := by
  have hrun : ((Run.start.exec granted (largeThenSmall 11 10)).bind fun r =>
      (r.exec1 .sendOne).map fun r' => ((inFlight r'.log).length,
        (built r'.log).length - (built r.log).length,
        (built r'.log).getLast?.map fun p => (r'.worker.subOp p.subOp).aggLen / 2)) =
      some (11, 1, some 10) := by decide +kernel
  obtain ⟨r, hr, hview⟩ := Option.bind_eq_some_iff.mp hrun
  obtain ⟨r', hr', hview⟩ := Option.map_eq_some_iff.mp hview
  obtain ⟨hfly, hview⟩ := Prod.mk.inj hview
  obtain ⟨hone, hlast⟩ := Prod.mk.inj hview
  obtain ⟨⟨w, events⟩, hw, rfl⟩ := Option.map_eq_some_iff.mp hr'
  refine ⟨r, ⟨w, r.log ++ events⟩, hr, Run.exec_reach granted_granted _ (.init Run.start_init) hr,
    ⟨events, hw, rfl⟩, fun hresp => ?_⟩
  dsimp only at hfly hone hlast
  rw [built_append, List.length_append, Nat.add_sub_cancel_left] at hone
  obtain ⟨p, hp⟩ := List.length_eq_one_iff.mp hone
  rw [built_append, hp, List.getLast?_append, List.getLast?_singleton, Option.some_or,
    Option.map_some, Option.some.injEq] at hlast
  have hle := hresp p (by dsimp only; rw [built_append, hp])
  dsimp only at hle
  rw [hfly, hlast] at hle
  exact absurd hle (by decide)

end NetCCL.Backend
