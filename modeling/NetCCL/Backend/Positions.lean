/-
# Where the window stands

With `n` packets built and `b` of them shifted out, the window begins at position
`b % MAX_WIN_LEN` and the next packet goes to `n % MAX_WIN_LEN`; the local `win_len` of
`shift_send` counts the `n - b` between them, and stays below the lap.  `InWindow` says this and
more, but only of runs without the slip.  This much holds in EVERY run, whatever groups the
window mixes and whatever is received: positions move by `get_next_position` alone, and
`shift_ack` stops at `to_send`.

`Run.Placed` is the invariant, `Run.Placed.step` the step lemma, `placed_reach` the run lemma.
-/
import NetCCL.Backend.Steps

namespace NetCCL.Backend

open Lib

/-! ## 1. The positions of a run -/

/-- Where the window stands, whatever it holds. -/
structure Run.Placed (r : Run) : Prop where
  le : completed r.log ≤ (built r.log).length
  bound : (built r.log).length ≤ completed r.log + (maxWinLen - 1)
  toAck : r.worker.window.toAck = completed r.log % maxWinLen
  sendPos : r.worker.sendPos = (built r.log).length % maxWinLen
  send : ∀ toSend winLen expectWinLen, r.worker.pc = .send toSend winLen expectWinLen →
    winLen = (built r.log).length - completed r.log ∧ expectWinLen ≤ maxWinLen - 1

variable {ctx : BitVec 8 → BitVec 32} {r r' : Run} {k sent : ℕ}

theorem Run.Placed.init (h : r.Init ctx) : r.Placed := by
  obtain ⟨⟨mem, pkt, hw⟩, hlog⟩ := h
  constructor <;> simp [hw, hlog, Worker.init, built, completed, Worker.sendPos]

/-- A step that neither builds nor shifts out. -/
theorem Run.Placed.same (h : r.Placed) (hb : built r'.log = built r.log)
    (hc : completed r'.log = completed r.log)
    (hack : r'.worker.window.toAck = r.worker.window.toAck)
    (hsend : r'.worker.sendPos = r.worker.sendPos)
    (hpc : r'.worker.pc = r.worker.pc ∨ r'.worker.pc.Outside) : r'.Placed := by
  refine ⟨?_, ?_, ?_, ?_, ?_⟩
  · rw [hb, hc]; exact h.le
  · rw [hb, hc]; exact h.bound
  · rw [hack, hc]; exact h.toAck
  · rw [hsend, hb]; exact h.sendPos
  · rw [hb, hc]
    rcases hpc with hpc | hout
    · rw [hpc]; exact h.send
    · intro t l e he
      exact absurd he (hout t l e)

theorem Run.Placed.len_eq (h : r.Placed) (hout : r.worker.pc.Outside) :
    r.worker.window.len = (built r.log).length - completed r.log := by
  have hsend := h.sendPos
  rw [Worker.sendPos_outside hout] at hsend
  exact r.worker.window.len_eq h.le h.bound h.toAck hsend

/-! ## 2. The steps -/

/-- Completing a packet touches the queue only. -/
theorem completePkt_queue (w : Worker) (p : PktState) :
    (∃ qp assertFailed, (w.completePkt p).1 = { w with qp, assertFailed }) ∧
      completed (w.completePkt p).2 = 0 := by
  simp only [Worker.completePkt]
  split
  · split <;> exact ⟨⟨_, _, rfl⟩, rfl⟩
  · exact ⟨⟨_, _, rfl⟩, rfl⟩

theorem shiftFrom_queue (m : ℕ) : ∀ (w : Worker) (toAck : ℕ),
    ∃ qp assertFailed, (w.shiftFrom m toAck).1 = { w with qp, assertFailed } := by
  induction m with
  | zero => exact fun w _ => ⟨_, _, rfl⟩
  | succ m ih =>
    intro w toAck
    rw [Worker.shiftFrom]
    split
    · obtain ⟨⟨qp₁, ok₁, h₁⟩, -⟩ := completePkt_queue w (w.window.state toAck)
      obtain ⟨qp₂, ok₂, h₂⟩ :=
        ih (w.completePkt (w.window.state toAck)).1 (nextPosition toAck)
      exact ⟨qp₂, ok₂, h₂.trans (by rw [h₁])⟩
    · exact ⟨_, _, rfl⟩

/-- The loop of `shift_ack` stops at `to_send`. -/
theorem shiftFrom_placed (m : ℕ) : ∀ (w : Worker) (b n : ℕ), w.window.toSend = n % maxWinLen →
    b ≤ n → n ≤ b + (maxWinLen - 1) → ∃ b' ≤ n, b ≤ b' ∧
      (w.shiftFrom m (b % maxWinLen)).2.1 = b' % maxWinLen ∧
      completed (w.shiftFrom m (b % maxWinLen)).2.2 = b' - b := by
  induction m with
  | zero =>
    intro w b n _ hle _
    exact ⟨b, hle, Nat.le_refl b, rfl, (Nat.sub_self b).symm⟩
  | succ m ih =>
    intro w b n hsend hle hlap
    rw [Worker.shiftFrom]
    split
    · rename_i hgo
      simp only [ne_eq, Bool.and_eq_true, decide_eq_true_eq] at hgo
      have hlt : b < n := Nat.lt_of_le_of_ne hle fun he => hgo.1 (by rw [hsend, he])
      obtain ⟨⟨qp, ok, hw⟩, hdone⟩ := completePkt_queue w (w.window.state (b % maxWinLen))
      obtain ⟨b', hb', hbb', hack, hcnt⟩ :=
        ih (w.completePkt (w.window.state (b % maxWinLen))).1 (b + 1) n (by rw [hw]; exact hsend)
          hlt (by omega)
      rw [nextPosition_mod]
      refine ⟨b', hb', Nat.le_of_succ_le hbb', hack, ?_⟩
      have hone : completed [Event.completed (b % maxWinLen)] = 1 := rfl
      dsimp only
      rw [← List.singleton_append, completed_append, completed_append, hdone, hcnt, hone]
      omega
    · exact ⟨b, hle, Nat.le_refl b, rfl, (Nat.sub_self b).symm⟩

theorem Run.Placed.endRx (h : r.Placed) (hstep : r.Step .endRx r') : r'.Placed := by
  obtain ⟨events, hw, hlog⟩ := hstep
  by_cases hpc : r.worker.pc = .rx
  swap
  · exact absurd hw (by simp [Worker.step, hpc])
  have hout : r.worker.pc.Outside := by
    intro _ _ _ he
    simp [hpc] at he
  have hsend := h.sendPos
  rw [Worker.sendPos_outside hout] at hsend
  simp only [Worker.step, if_pos hpc, Worker.shiftAck] at hw
  obtain ⟨b', hb', hbb', hack, hcnt⟩ := shiftFrom_placed maxWinLen r.worker
    (completed r.log) (built r.log).length hsend h.le h.bound
  obtain ⟨qp, ok, hqueue⟩ := shiftFrom_queue maxWinLen r.worker r.worker.window.toAck
  obtain ⟨-, hquiet, -⟩ := shiftFrom_sameQueue maxWinLen r.worker r.worker.window.toAck
  rw [← h.toAck] at hack hcnt
  generalize r.worker.shiftFrom maxWinLen r.worker.window.toAck = out at *
  obtain ⟨w₁, toAck, ev⟩ := out
  dsimp only at *
  obtain ⟨hr, rfl⟩ := Prod.mk.inj (Option.some.inj hw)
  have hb : built r'.log = built r.log := by rw [hlog, built_append, hquiet, List.append_nil]
  have hc : completed r'.log = b' := by
    rw [hlog, completed_append, hcnt]
    omega
  have hpc' : r'.worker.pc = .tx := by rw [← hr]
  have hbound := h.bound
  refine ⟨?_, ?_, ?_, ?_, ?_⟩
  · rw [hb, hc]; exact hb'
  · rw [hb, hc]; omega
  · rw [hc, ← hr]; exact hack
  · rw [hb, Worker.sendPos, hpc', ← hr]
    dsimp only
    rw [hqueue]
    exact hsend
  · intro _ _ _ he
    simp [hpc'] at he

/-- **Every step keeps the positions.** -/
theorem Run.Placed.step {l : Label} (h : r.Placed) (hcur : Cursor ctx r k sent)
    (hstep : r.Step l r') : r'.Placed := by
  obtain ⟨events, hlog, hcase⟩ := step_cases hcur hstep
  have hsame : ∀ ev, r'.log = r.log ++ ev → built ev = [] → completed ev = 0 →
      built r'.log = built r.log ∧ completed r'.log = completed r.log := by
    intro ev hev hb hc
    rw [hev, built_append, completed_append, hb, hc]
    exact ⟨List.append_nil _, rfl⟩
  cases hcase with
  | quiet hs =>
    obtain ⟨hb, hc⟩ := hsame [] hlog rfl rfl
    exact h.same hb hc hs.toAck hs.toSend (hs.pc.imp_right And.left)
  | pushReq _ hr =>
    obtain ⟨hb, hc⟩ := hsame [] hlog rfl rfl
    exact h.same hb hc (by rw [hr]) (by rw [hr]; rfl) (Or.inl (by rw [hr]))
  | popResp _ hr =>
    obtain ⟨hb, hc⟩ := hsame [] hlog rfl rfl
    exact h.same hb hc (by rw [hr]) (by rw [hr]; rfl) (Or.inl (by rw [hr]))
  | @accept f _ _ _ hat =>
    obtain ⟨-, ⟨_, _, _, _, hr⟩, -, resent, hresent, rfl⟩ := hat
    have hstill : Still ((r.worker.copyPayload
        (r.worker.window.ackedAt (r.worker.getPosition f)) f).2 ++ resent) :=
      (copyPayload_still _ _ _).append (still_sent fun e he => by
        obtain ⟨i, -, rfl⟩ := hresent e he
        exact ⟨i, _, rfl⟩)
    obtain ⟨hb, hc⟩ := hsame _ hlog hstill.built hstill.completed
    exact h.same hb hc (by rw [hr]) (by rw [hr]; rfl) (Or.inl (by rw [hr]))
  | endRx => exact h.endRx hstep
  | startTx hout hst =>
    obtain ⟨cnt, ts, cc, ew, hw, hew, -, hev⟩ := startTx_spec r.worker
    rw [hst] at hw hev
    dsimp only at hw hev
    have hstill : Still events := still_sent fun e he => by
      obtain ⟨pos, -, rfl⟩ := hev e he
      exact ⟨pos, _, rfl⟩
    obtain ⟨hb, hc⟩ := hsame _ hlog hstill.built hstill.completed
    have hsend := h.sendPos
    rw [Worker.sendPos_outside hout] at hsend
    refine ⟨by rw [hb, hc]; exact h.le, by rw [hb, hc]; exact h.bound,
      by rw [hc, hw]; exact h.toAck, by rw [hb, hw]; exact hsend, fun t l e he => ?_⟩
    rw [hw] at he
    obtain ⟨-, rfl, rfl⟩ := Pc.send.inj he
    rw [hb, hc]
    exact ⟨h.len_eq hout, hew⟩
  | endTx hpc hr hev =>
    have hstill : Still events := still_deref fun e he => ⟨k, (hev e he).1⟩
    obtain ⟨hb, hc⟩ := hsame _ hlog hstill.built hstill.completed
    have hpc' : r'.worker.pc = .cc := by rw [hr]; rfl
    have hout : r'.worker.pc.Outside := by
      intro _ _ _ he
      simp [hpc'] at he
    refine h.same hb hc (by rw [hr]; rfl) ?_ (Or.inr hout)
    rw [Worker.sendPos_outside hout, Worker.sendPos, hpc, hr]
    rfl
  | @sent _ _ _ p pre hpc hlt hs hpre =>
    have hpre0 : built pre = [] ∧ completed pre = 0 := by cases hpre <;> exact ⟨rfl, rfl⟩
    have hb : built r'.log = built r.log ++ [p] := by
      rw [hlog, built_append, built_append, hpre0.1]; rfl
    have hc : completed r'.log = completed r.log := by
      rw [hlog, completed_append, completed_append, hpre0.2]; rfl
    have hlen : (built r'.log).length = (built r.log).length + 1 := by
      rw [hb, List.length_append, List.length_singleton]
    obtain ⟨hwin, hew⟩ := h.send _ _ _ hpc
    have hle := h.le
    have hsend := h.sendPos
    rw [Worker.sendPos, hpc] at hsend
    dsimp only at hsend
    refine ⟨by rw [hc, hlen]; omega, by rw [hc, hlen]; omega, ?_, ?_, fun t l e he => ?_⟩
    · rw [hc, hs.toAck]; exact h.toAck
    · rw [Worker.sendPos, hs.pc, hsend, nextPosition_mod, hlen]
    · obtain ⟨-, rfl, rfl⟩ := Pc.send.inj (hs.pc.symm.trans he)
      exact ⟨by rw [hc, hlen]; omega, hew⟩

/-- **The positions of every run.** -/
theorem placed_reach {ok : Run → Label → Prop} (h : Reach (Run.Init ctx) Run.Step ok r) :
    r.Placed ∧ ∃ k sent, Cursor ctx r k sent :=
  h.invariant (P := fun r => r.Placed ∧ ∃ k sent, Cursor ctx r k sent)
    (fun _ hi => ⟨.init hi, 0, 0, .init hi⟩)
    fun _ _ _ ⟨hp, _, _, hc⟩ _ hs => ⟨hp.step hc hs, hc.step hs⟩

end NetCCL.Backend
