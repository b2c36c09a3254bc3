/-
# The send window

The circular array of a worker holds the packets it has built and not yet shifted out: with
`n` packets built and `b` of them shifted out, packet `j` stands at position
`j % MAX_WIN_LEN` for `b ≤ j < n`, and carries the next PSN but `n - j`.  `InWindow` says so,
and says which packets have been acknowledged by the list `acc` of their numbers in the order
their responses were accepted.

Everything hangs on the window holding packets of ONE group, because the position of a
response is computed from its PSN.  `gen_pkt` checks this on the stored `to_send`, which
`shift_send` leaves behind while its loop runs.

* `Mixes`: the step at which that check lets two groups into the window;
* `InWindow.acceptedAt`, `InWindow.endRx`, `InWindow.startTx`, `InWindow.endTx`,
  `InWindow.sent`: every other step keeps the invariant.
-/
import NetCCL.Backend.Packets

namespace NetCCL.Backend

open Lib

/-! ## 1. Positions -/

theorem nextPosition_mod (j : ℕ) : nextPosition (j % maxWinLen) = (j + 1) % maxWinLen := by
  rw [nextPosition, Nat.mod_add_mod]

theorem prevPosition_mod (j : ℕ) : prevPosition ((j + 1) % maxWinLen) = j % maxWinLen := by
  have hlap : j + 1 + (maxWinLen - 1) = j + maxWinLen := by simp only [maxWinLen]
  rw [prevPosition, Nat.mod_add_mod, hlap, Nat.add_mod_right]

/-- Less than a lap apart, positions tell packets apart. -/
theorem mod_inj {b i j : ℕ} (hi : b ≤ i) (hi' : i < b + maxWinLen) (hj : b ≤ j)
    (hj' : j < b + maxWinLen) (h : i % maxWinLen = j % maxWinLen) : i = j := by
  simp only [maxWinLen] at *
  omega

/-- The loops over the window visit the packets in order. -/
theorem walk_mod : ∀ n i j : ℕ, i ≤ j → j < i + maxWinLen → j - i ≤ n →
    walk n (i % maxWinLen) (j % maxWinLen) = (List.range' i (j - i)).map (· % maxWinLen)
  | 0, i, j, hij, _, hn => by
    rw [Nat.le_zero.mp hn]
    rfl
  | n + 1, i, j, hij, hlap, hn => by
    rw [walk]
    rcases Nat.eq_or_lt_of_le hij with rfl | hlt
    · rw [if_pos rfl, Nat.sub_self]
      rfl
    · have hne : i % maxWinLen ≠ j % maxWinLen := fun he =>
        Nat.ne_of_lt hlt (mod_inj (Nat.le_refl i) (Nat.lt_of_le_of_lt hij hlap) hij hlap he)
      have hlen : j - i = (j - (i + 1)) + 1 := by omega
      rw [if_neg hne, nextPosition_mod, walk_mod n (i + 1) j hlt (by omega) (by omega), hlen,
        List.range'_succ]
      rfl

/-- **`collect_retrans` finds the maximal run** of unacked packets directly before packet `j`,
and stays inside the window; rounds beyond the length of the window make no difference. -/
theorem Window.collectFrom_mod (win : Window) {b : ℕ} (hack : win.toAck = b % maxWinLen) (m : ℕ) :
    m < maxWinLen → ∃ i, b ≤ i ∧ i ≤ b + m ∧
      (∀ x, i ≤ x → x < b + m → win.hasAcked (x % maxWinLen) = false) ∧
      (i = b ∨ ∃ x, i = x + 1 ∧ b ≤ x ∧ win.hasAcked (x % maxWinLen) = true) ∧
      ∀ n, m ≤ n → win.collectFrom n ((b + m) % maxWinLen) = i % maxWinLen := by
  induction m with
  | zero =>
    refine fun _ => ⟨b, Nat.le_refl b, Nat.le_refl b, fun x hx hx' => absurd hx (by omega),
      Or.inl rfl, fun n _ => ?_⟩
    cases n with
    | zero => rfl
    | succ n => exact if_pos hack.symm
  | succ m ih =>
    intro hm
    have hne : (b + (m + 1)) % maxWinLen ≠ win.toAck := by
      rw [hack]
      simp only [maxWinLen] at *
      omega
    have hround : ∀ n, m + 1 ≤ n → ∃ n', m ≤ n' ∧
        win.collectFrom n ((b + (m + 1)) % maxWinLen) =
          if win.hasAcked ((b + m) % maxWinLen) then (b + (m + 1)) % maxWinLen
          else win.collectFrom n' ((b + m) % maxWinLen) := by
      intro n hn
      obtain ⟨n', rfl⟩ : ∃ n', n = n' + 1 := ⟨n - 1, by omega⟩
      exact ⟨n', by omega, by rw [Window.collectFrom, if_neg hne, ← Nat.add_assoc, prevPosition_mod]⟩
    by_cases hacked : win.hasAcked ((b + m) % maxWinLen) = true
    · refine ⟨b + (m + 1), by omega, Nat.le_refl _, fun x hx hx' => absurd hx (by omega),
        Or.inr ⟨b + m, rfl, by omega, hacked⟩, fun n hn => ?_⟩
      obtain ⟨n', -, he⟩ := hround n hn
      rw [he, if_pos hacked]
    · obtain ⟨i, hi, hi', hun, hmax, hrest⟩ := ih (by omega)
      refine ⟨i, hi, by omega, fun x hx hx' => ?_, hmax, fun n hn => ?_⟩
      · rcases Nat.lt_or_ge x (b + m) with hlt | hge
        · exact hun x hx hlt
        · obtain rfl : x = b + m := by omega
          exact Bool.eq_false_iff.mpr hacked
      · obtain ⟨n', hn', he⟩ := hround n hn
        rw [he, if_neg hacked, hrest n' hn']

/-- `window_len` counts up to the lap. -/
theorem Window.len_eq (win : Window) {b n : ℕ} (hle : b ≤ n) (hn : n ≤ b + (maxWinLen - 1))
    (hack : win.toAck = b % maxWinLen) (hsend : win.toSend = n % maxWinLen) : win.len = n - b := by
  rw [Window.len, hack, hsend]
  split <;> simp only [maxWinLen] at * <;> omega

theorem Window.txEmpty_iff (win : Window) {b n : ℕ} (hle : b ≤ n) (hn : n ≤ b + (maxWinLen - 1))
    (hack : win.toAck = b % maxWinLen) (hsend : win.toSend = n % maxWinLen) :
    win.txEmpty = true ↔ n = b := by
  rw [Window.txEmpty, beq_iff_eq, hack, hsend]
  simp only [maxWinLen] at *
  omega

/-! ## 2. The PSN range -/

/-- A PSN between the caches is one of the `m` PSNs before `next`. -/
theorem psn_in_range {left right next psn : BitVec 32} {m : ℕ} (hm : 0 < m) (hm' : m < 2 ^ 32)
    (hleft : left + BitVec.ofNat 32 m = next) (hright : right + 1 = next)
    (h : psn - left ≤ right - left) :
    (psn - left).toNat < m ∧ psn + BitVec.ofNat 32 (m - (psn - left).toNat) = next := by
  have hrl : right - left = BitVec.ofNat 32 m - 1 := by grind
  generalize hd : psn - left = d at h
  have hlt : d.toNat < m := by
    rw [hrl, BitVec.le_def, BitVec.toNat_sub_of_le] at h
    · rw [BitVec.toNat_ofNat, Nat.mod_eq_of_lt hm'] at h
      have hone : (1 : BitVec 32).toNat = 1 := rfl
      omega
    · rw [BitVec.le_def, BitVec.toNat_ofNat, Nat.mod_eq_of_lt hm']
      exact hm
  have hsum : BitVec.ofNat 32 (m - d.toNat) + d = BitVec.ofNat 32 m := by
    apply BitVec.eq_of_toNat_eq
    rw [BitVec.toNat_add, BitVec.toNat_ofNat, BitVec.toNat_ofNat, Nat.mod_add_mod,
      Nat.sub_add_cancel (Nat.le_of_lt hlt)]
  exact ⟨hlt, by grind⟩

/-! ## 3. What the window holds -/

@[simp] theorem accepted_append (l₁ l₂ : List Event) :
    accepted (l₁ ++ l₂) = accepted l₁ ++ accepted l₂ :=
  List.filterMap_append

@[simp] theorem pushed_append (l₁ l₂ : List Event) : pushed (l₁ ++ l₂) = pushed l₁ ++ pushed l₂ :=
  List.filterMap_append

@[simp] theorem wrote_append (l₁ l₂ : List Event) : wrote (l₁ ++ l₂) = wrote l₁ ++ wrote l₂ :=
  List.filterMap_append

@[simp] theorem completed_append (l₁ l₂ : List Event) :
    completed (l₁ ++ l₂) = completed l₁ + completed l₂ :=
  List.countP_append

/-- The position the next packet goes to: inside the loop of `shift_send`, its local variable. -/
def Worker.sendPos (w : Worker) : ℕ :=
  match w.pc with
  | .send toSend _ _ => toSend
  | _ => w.window.toSend

/-- The thread is not inside the loop of `shift_send`. -/
def Pc.Outside (pc : Pc) : Prop := ∀ toSend winLen expectWinLen, pc ≠ .send toSend winLen expectWinLen

theorem Worker.sendPos_outside {w : Worker} (h : w.pc.Outside) : w.sendPos = w.window.toSend := by
  rw [Worker.sendPos]
  split
  · exact absurd ‹_› (h _ _ _)
  · rfl

/-- The array holds the packets `built` from number `b` on, acked as `acc` says. -/
structure Window.Holds (win : Window) (built : List PktState) (b : ℕ) (acc : List ℕ) : Prop where
  le : b ≤ built.length
  bound : built.length ≤ b + (maxWinLen - 1)
  toAck : win.toAck = b % maxWinLen
  state : ∀ j p, b ≤ j → built[j]? = some p →
    win.state (j % maxWinLen) = { p with acked := decide (j ∈ acc) }

/-- The responses accepted are those of the packets numbered `acc`, and carry their PSN. -/
def Answers (built : List PktState) (a : PktState × Frame) (j : ℕ) : Prop :=
  ∃ p, built[j]? = some p ∧ a.1 = { p with acked := true } ∧ a.2.inc.psn = p.psn ∧
    a.2.inc.groupId = p.pkt.inc.groupId

/-- **The window invariant.** -/
structure InWindow (r : Run) (acc : List ℕ) : Prop where
  holds : r.worker.window.Holds (built r.log) (completed r.log) acc
  sendPos : r.worker.sendPos = (built r.log).length % maxWinLen
  send : ∀ toSend winLen expectWinLen, r.worker.pc = .send toSend winLen expectWinLen →
    winLen = (built r.log).length - completed r.log ∧ expectWinLen ≤ maxWinLen - 1
  group : ∀ j p, completed r.log ≤ j → (built r.log)[j]? = some p →
    p.pkt.inc.groupId = r.worker.currentGroupId
  psn : ∀ j p, completed r.log ≤ j → (built r.log)[j]? = some p →
    p.psn + BitVec.ofNat 32 ((built r.log).length - j) = r.worker.nextPsn
  leftPsn : completed r.log < (built r.log).length → r.worker.window.leftPsn +
    BitVec.ofNat 32 ((built r.log).length - completed r.log) = r.worker.nextPsn
  rightPsn : r.worker.pc.Outside → completed r.log < (built r.log).length →
    r.worker.window.rightPsn + 1 = r.worker.nextPsn
  nodup : acc.Nodup
  lt : ∀ j ∈ acc, j < (built r.log).length
  done : ∀ j < completed r.log, j ∈ acc
  accepted : List.Forall₂ (Answers (built r.log)) (Backend.accepted r.log) acc

theorem Answers.mono {built built' : List PktState} (h : built <+: built') {a : PktState × Frame}
    {j : ℕ} : Answers built a j → Answers built' a j := by
  rintro ⟨p, hj, hrest⟩
  obtain ⟨l, rfl⟩ := h
  exact ⟨p, by rw [List.getElem?_append_left (List.getElem?_eq_some_iff.mp hj).1]; exact hj, hrest⟩

theorem InWindow.init {ctx : BitVec 8 → BitVec 32} {r : Run} (h : r.Init ctx) : InWindow r [] := by
  obtain ⟨⟨mem, pkt, hw⟩, hlog⟩ := h
  refine ⟨⟨?_, ?_, ?_, ?_⟩, ?_, ?_, ?_, ?_, ?_, ?_, ?_, ?_, ?_, ?_⟩ <;>
    simp [hw, hlog, Worker.init, built, completed, Backend.accepted, Worker.sendPos]

/-! ## 4. Steps outside the window -/

/-- Same window, in the eyes of `InWindow`. -/
structure SameWindow (w w' : Worker) : Prop where
  toAck : w'.window.toAck = w.window.toAck
  toSend : w'.sendPos = w.sendPos
  state : w'.window.state = w.window.state
  leftPsn : w'.window.leftPsn = w.window.leftPsn
  rightPsn : w'.window.rightPsn = w.window.rightPsn
  group : w'.currentGroupId = w.currentGroupId
  nextPsn : w'.nextPsn = w.nextPsn
  pc : w'.pc = w.pc ∨ (w'.pc.Outside ∧ w.pc.Outside)

/-- Nothing built, shifted out, accepted or answered. -/
structure Still (events : List Event) : Prop where
  built : built events = []
  completed : completed events = 0
  accepted : accepted events = []
  pushed : pushed events = []

theorem Still.nil : Still [] := ⟨rfl, rfl, rfl, rfl⟩

theorem InWindow.same {r r' : Run} {acc : List ℕ} (h : InWindow r acc) {events : List Event}
    (hs : SameWindow r.worker r'.worker) (hq : Still events) (hlog : r'.log = r.log ++ events) :
    InWindow r' acc := by
  have hb : built r'.log = built r.log := by rw [hlog, built_append, hq.built, List.append_nil]
  have hc : completed r'.log = completed r.log := by rw [hlog, completed_append, hq.completed]; rfl
  have ha : Backend.accepted r'.log = Backend.accepted r.log := by
    rw [hlog, accepted_append, hq.accepted, List.append_nil]
  refine ⟨⟨?_, ?_, ?_, ?_⟩, ?_, ?_, ?_, ?_, ?_, ?_, h.nodup, ?_, ?_, ?_⟩
  · rw [hb, hc]; exact h.holds.le
  · rw [hb, hc]; exact h.holds.bound
  · rw [hs.toAck, hc]; exact h.holds.toAck
  · rw [hb, hc, hs.state]; exact h.holds.state
  · rw [hs.toSend, hb]; exact h.sendPos
  · rw [hb, hc]
    rcases hs.pc with hpc | ⟨hpc, -⟩
    · rw [hpc]; exact h.send
    · intro t l e he
      exact absurd he (hpc t l e)
  · rw [hb, hc, hs.group]; exact h.group
  · rw [hb, hc, hs.nextPsn]; exact h.psn
  · rw [hb, hc, hs.nextPsn, hs.leftPsn]; exact h.leftPsn
  · rw [hb, hc, hs.nextPsn, hs.rightPsn]
    rcases hs.pc with hpc | ⟨-, hpc⟩
    · rw [hpc]; exact h.rightPsn
    · intro _
      exact h.rightPsn hpc
  · rw [hb]; exact h.lt
  · rw [hc]; exact h.done
  · rw [hb, ha]; exact h.accepted

/-! ## 5. A response -/

/-- **A response finds its packet.**  `get_position` answers with the position of the
outstanding packet that has the response's group and PSN, if with any. -/
theorem InWindow.getPosition {r : Run} {acc : List ℕ} (h : InWindow r acc)
    (hpc : r.worker.pc.Outside) {f : Frame} (hf : r.worker.getPosition f ≠ invalidPosition) :
    ∃ j p, completed r.log ≤ j ∧ (built r.log)[j]? = some p ∧
      r.worker.getPosition f = j % maxWinLen ∧ f.inc.psn = p.psn ∧
      f.inc.groupId = p.pkt.inc.groupId := by
  have hle := h.holds.le
  have hbound := h.holds.bound
  have hsend := h.sendPos
  have hack := h.holds.toAck
  have hleft := h.leftPsn
  have hright := h.rightPsn hpc
  have hpsn := h.psn
  have hgroup := h.group
  rw [Worker.sendPos_outside hpc] at hsend
  have hempty := r.worker.window.txEmpty_iff hle hbound hack hsend
  generalize completed r.log = b at *
  generalize built r.log = G at *
  rw [Worker.getPosition] at hf ⊢
  by_cases hout : (r.worker.window.txEmpty || r.worker.currentGroupId != f.inc.groupId) = true
  · rw [if_pos hout] at hf
    exact absurd rfl hf
  rw [if_neg hout] at hf ⊢
  simp only [Bool.or_eq_true, bne_iff_ne, ne_eq, not_or, not_not] at hout
  obtain ⟨hne, hgid⟩ := hout
  have hlt : b < G.length := Nat.lt_of_le_of_ne hle fun heq => hne (hempty.mpr heq.symm)
  dsimp only at hf ⊢
  by_cases hrange : f.inc.psn - r.worker.window.leftPsn ≤
      r.worker.window.rightPsn - r.worker.window.leftPsn
  · rw [if_pos hrange]
    have hlap : G.length - b < maxWinLen := by simp only [maxWinLen] at *; omega
    obtain ⟨hd, hnext⟩ := psn_in_range (Nat.sub_pos_of_lt hlt)
      (Nat.lt_trans hlap (by decide)) (hleft hlt) (hright hlt) hrange
    rw [BitVec.toNat_add, BitVec.toNat_ofNat, hack]
    generalize (f.inc.psn - r.worker.window.leftPsn).toNat = d at *
    have hj : b + d < G.length := by omega
    have hget := List.getElem?_eq_getElem hj
    refine ⟨b + d, G[b + d], Nat.le_add_right _ _, hget, ?_, ?_, ?_⟩
    · rw [Nat.mod_eq_of_lt (by simp only [maxWinLen]; omega : b % maxWinLen < 2 ^ 32),
        Nat.mod_eq_of_lt (by simp only [maxWinLen] at *; omega : d + b % maxWinLen < 2 ^ 32)]
      split <;> simp only [maxWinLen] at * <;> omega
    · have h1 := hpsn _ _ (Nat.le_add_right _ _) hget
      have hsub : G.length - (b + d) = G.length - b - d := by omega
      rw [← hnext, hsub] at h1
      grind
    · rw [← hgid, hgroup _ _ (Nat.le_add_right _ _) hget]
  · rw [if_neg hrange] at hf
    exact absurd rfl hf

/-- The packet at a position, acked. -/
def Window.ackedAt (win : Window) (pos : ℕ) : PktState := { win.state pos with acked := true }

/-- What one accepted response tells the world: it reads the sub-op, and writes memory when
this rank receives. -/
theorem copyPayload_cases (w : Worker) (p : PktState) (f : Frame) :
    ∃ mem, (w.copyPayload p f).1 = { w with mem } ∧
      (((w.copyPayload p f).2 = [.deref p.subOp] ∧ mem = w.mem) ∨
        ∃ len ≤ p.size, (w.copyPayload p f).2 = [.deref p.subOp, .wrote p.subOp p.data len]) := by
  simp only [Worker.copyPayload]
  split
  · split
    · exact ⟨_, rfl, Or.inr ⟨_, Nat.div_mul_le_self _ _, rfl⟩⟩
    · exact ⟨_, rfl, Or.inr ⟨_, Nat.le_refl _, rfl⟩⟩
  · exact ⟨_, rfl, Or.inl ⟨rfl, rfl⟩⟩

theorem copyPayload_congr {w w' : Worker} (hheap : w'.heap = w.heap) (hmem : w'.mem = w.mem)
    (p : PktState) (f : Frame) : (w'.copyPayload p f).1.mem = (w.copyPayload p f).1.mem ∧
      (w'.copyPayload p f).2 = (w.copyPayload p f).2 := by
  simp only [Worker.copyPayload, Worker.subOp_congr hheap, hmem]
  split
  · split <;> exact ⟨rfl, rfl⟩
  · exact ⟨hmem, rfl⟩

/-- `w'` is `w` after it accepted `f` for the packet at a position. -/
structure AcceptedAt (w w' : Worker) (pos : ℕ) (f : Frame) (events : List Event) : Prop where
  unacked : (w.window.state pos).acked = false
  same : ∃ tosMinitor ackCnt pktLossFlag mem, w' = { w with
    tosMinitor, ackCnt, pktLossFlag, mem
    window := { w.window with
      state := Function.update w.window.state pos (w.window.ackedAt pos) } }
  mem : w'.mem = (w.copyPayload (w.window.ackedAt pos) f).1.mem
  events : ∃ resent, (∀ e ∈ resent, ∃ i ∈ walk maxWinLen (w'.window.collectFrom maxWinLen pos) pos,
      e = w'.window.transmit i) ∧
    events = .accepted pos (w.window.ackedAt pos) f ::
      ((w.copyPayload (w.window.ackedAt pos) f).2 ++ resent)

theorem acceptAt_spec (w : Worker) {pos : ℕ} (h : (w.window.state pos).acked = false) (f : Frame) :
    AcceptedAt w (w.acceptAt pos f).1 pos f (w.acceptAt pos f).2 := by
  have hp : (w.markAcked pos).window.state pos = w.window.ackedAt pos :=
    Function.update_self pos _ _
  have hheap : (w.markAcked pos).heap = w.heap := rfl
  obtain ⟨hmem, hev⟩ := copyPayload_congr hheap rfl (w.window.ackedAt pos) f
  obtain ⟨mem, hw, -⟩ := copyPayload_cases (w.markAcked pos) (w.window.ackedAt pos) f
  rw [Worker.acceptAt]
  dsimp only
  rw [hp, hev]
  rw [hw] at hmem ⊢
  split
  · exact ⟨h, ⟨_, _, _, _, rfl⟩, hmem, [], by simp, by rw [List.append_nil]⟩
  · refine ⟨h, ⟨_, _, _, _, rfl⟩, hmem, _, ?_, by rw [List.cons_append]⟩
    intro e he
    obtain ⟨i, hi, rfl⟩ := List.mem_map.mp he
    exact ⟨i, hi, rfl⟩

/-- **What `rx_process_one` does**: nothing, or it accepts the packet at the position. -/
theorem rxProcessOne_cases (w : Worker) (f : Frame) :
    (∃ tosMinitor, w.rxProcessOne f = ({ w with tosMinitor }, [])) ∨
    (w.getPosition f ≠ invalidPosition ∧
      AcceptedAt w (w.rxProcessOne f).1 (w.getPosition f) f (w.rxProcessOne f).2) := by
  have hpos : Worker.getPosition { w with tosMinitor := w.tosMinitor ||| f.typeOfService } f =
    w.getPosition f := rfl
  simp only [Worker.rxProcessOne, hpos]
  split
  · exact Or.inl ⟨_, rfl⟩
  · rename_i hout
    simp only [Bool.or_eq_true, decide_eq_true_eq, not_or, Bool.not_eq_true] at hout
    right
    obtain ⟨hunacked, ⟨tos, cnt, loss, mem, hw⟩, hmem, hev⟩ :=
      acceptAt_spec { w with tosMinitor := w.tosMinitor ||| f.typeOfService } hout.2 f
    have hheap : Worker.heap { w with tosMinitor := w.tosMinitor ||| f.typeOfService } = w.heap :=
      rfl
    obtain ⟨hmem', hev'⟩ := copyPayload_congr hheap rfl (w.window.ackedAt (w.getPosition f)) f
    exact ⟨hout.1, hunacked, ⟨tos, cnt, loss, mem, hw⟩, hmem.trans hmem', by rw [← hev']; exact hev⟩

theorem Still.append {l₁ l₂ : List Event} (h₁ : Still l₁) (h₂ : Still l₂) : Still (l₁ ++ l₂) := by
  constructor
  · rw [built_append, h₁.built, h₂.built]; rfl
  · rw [completed_append, h₁.completed, h₂.completed]
  · rw [accepted_append, h₁.accepted, h₂.accepted]; rfl
  · rw [pushed_append, h₁.pushed, h₂.pushed]; rfl

theorem still_sent {l : List Event} (h : ∀ e ∈ l, ∃ pos f, e = .sent pos f) : Still l := by
  induction l with
  | nil => exact .nil
  | cons e l ih =>
    obtain ⟨pos, f, rfl⟩ := h e List.mem_cons_self
    have hone : Still [Event.sent pos f] := ⟨rfl, rfl, rfl, rfl⟩
    exact hone.append (ih fun e he => h e (List.mem_cons_of_mem _ he))

theorem still_deref {l : List Event} (h : ∀ e ∈ l, ∃ ptr, e = .deref ptr) : Still l := by
  induction l with
  | nil => exact .nil
  | cons e l ih =>
    obtain ⟨ptr, rfl⟩ := h e List.mem_cons_self
    have hone : Still [Event.deref ptr] := ⟨rfl, rfl, rfl, rfl⟩
    exact hone.append (ih fun e he => h e (List.mem_cons_of_mem _ he))

theorem copyPayload_still (w : Worker) (p : PktState) (f : Frame) : Still (w.copyPayload p f).2 := by
  obtain ⟨_, -, ⟨h, -⟩ | ⟨_, -, h⟩⟩ := copyPayload_cases w p f <;> rw [h] <;>
    exact ⟨rfl, rfl, rfl, rfl⟩

/-- An accepted response marks one packet more, and that one was unmarked. -/
theorem InWindow.acceptedAt {r r' : Run} {acc : List ℕ} (h : InWindow r acc)
    (hpc : r.worker.pc.Outside) {f : Frame} {events : List Event}
    (hpos : r.worker.getPosition f ≠ invalidPosition)
    (hat : AcceptedAt r.worker r'.worker (r.worker.getPosition f) f events)
    (hlog : r'.log = r.log ++ events) :
    ∃ j, completed r.log ≤ j ∧ j ∉ acc ∧ InWindow r' (acc ++ [j]) := by
  obtain ⟨j, p, hj, hget, hpj, hpsn, hgid⟩ := h.getPosition hpc hpos
  obtain ⟨hunacked, ⟨tos, cnt, loss, mem, hw⟩, -, resent, hresent, hev⟩ := hat
  rw [hpj] at hunacked hw hev
  have hstate := h.holds.state j p hj hget
  have hacked : r.worker.window.ackedAt (j % maxWinLen) = { p with acked := true } := by
    rw [Window.ackedAt, hstate]
  rw [hacked] at hw hev
  have hnew : j ∉ acc := by
    intro hmem
    rw [hstate] at hunacked
    exact absurd (decide_eq_false_iff_not.mp hunacked) (not_not_intro hmem)
  have hlt : j < (built r.log).length := (List.getElem?_eq_some_iff.mp hget).1
  have hstill : Still ((r.worker.copyPayload { p with acked := true } f).2 ++ resent) :=
    (copyPayload_still _ _ _).append (still_sent fun e he => by
      obtain ⟨i, -, rfl⟩ := hresent e he
      exact ⟨i, _, rfl⟩)
  have hb : built r'.log = built r.log := by
    rw [hlog, built_append, hev]
    exact (congrArg _ hstill.built).trans (List.append_nil _)
  have hc : completed r'.log = completed r.log := by
    rw [hlog, completed_append, hev]
    exact congrArg _ hstill.completed
  have ha : Backend.accepted r'.log = Backend.accepted r.log ++ [({ p with acked := true }, f)] := by
    rw [hlog, accepted_append, hev]
    exact congrArg (fun l => Backend.accepted r.log ++ (_ :: l)) hstill.accepted
  have hin : ∀ i, i ≠ j → (i ∈ acc ++ [j] ↔ i ∈ acc) := by
    intro i hi
    simp [hi]
  have hpc' : r'.worker.pc = r.worker.pc := by rw [hw]
  have hsp : r'.worker.sendPos = r.worker.sendPos := by rw [hw]; rfl
  refine ⟨j, hj, hnew, ⟨?_, ?_, ?_, ?_⟩, ?_, ?_, ?_, ?_, ?_, ?_, ?_, ?_, ?_, ?_⟩
  · rw [hb, hc]; exact h.holds.le
  · rw [hb, hc]; exact h.holds.bound
  · rw [hc, hw]; exact h.holds.toAck
  · intro i q hi hq
    rw [hc] at hi
    rw [hb] at hq
    rw [hw]
    dsimp only
    by_cases hij : i = j
    · subst hij
      rw [Function.update_self, Option.some.inj (hget.symm.trans hq), decide_eq_true]
      simp
    · have hbound := h.holds.bound
      have hi' : i < (built r.log).length := (List.getElem?_eq_some_iff.mp hq).1
      have hne : i % maxWinLen ≠ j % maxWinLen := fun he =>
        hij (mod_inj hi (by simp only [maxWinLen] at *; omega) hj
          (by simp only [maxWinLen] at *; omega) he)
      rw [Function.update_of_ne hne, h.holds.state i q hi hq]
      simp only [hin i hij]
  · rw [hsp, hb]; exact h.sendPos
  · rw [hpc', hb, hc]; exact h.send
  · rw [hb, hc, hw]; exact h.group
  · rw [hb, hc, hw]; exact h.psn
  · rw [hb, hc, hw]; exact h.leftPsn
  · rw [hpc', hb, hc, hw]; exact h.rightPsn
  · exact List.nodup_append.mpr ⟨h.nodup, List.nodup_singleton j, fun a ha b hb' => by
      rw [List.mem_singleton.mp hb']; exact fun he => hnew (he ▸ ha)⟩
  · rw [hb]
    intro i hi
    rcases List.mem_append.mp hi with hi | hi
    · exact h.lt i hi
    · rw [List.mem_singleton.mp hi]; exact hlt
  · rw [hc]
    intro i hi
    exact List.mem_append_left _ (h.done i hi)
  · rw [ha, hb]
    exact List.rel_append h.accepted (.cons ⟨p, hget, rfl, hpsn, hgid⟩ .nil)

/-! ## 6. Shifting out -/

/-- Shifted out, or answered. -/
def Event.Done (e : Event) : Prop := (∃ pos, e = .completed pos) ∨ ∃ ptr, e = .pushed ptr

/-- What the loop of `shift_ack` makes of a worker, having shifted packets `b` to `b'` out. -/
structure Shifted (w : Worker) (G : List PktState) (b b' : ℕ) (out : Worker × ℕ × List Event) :
    Prop where
  le : b ≤ b'
  le_length : b' ≤ G.length
  worker : out.1 = { w with
    qp := { w.qp with cq := w.qp.cq ++ ((G.take b').drop b).filterMap PktState.lastOf } }
  toAck : out.2.1 = b' % maxWinLen
  completed : completed out.2.2 = b' - b
  pushed : pushed out.2.2 = ((G.take b').drop b).filterMap PktState.lastOf
  done : ∀ e ∈ out.2.2, e.Done

theorem Shifted.stop {w : Worker} {G : List PktState} {b : ℕ} (h : b ≤ G.length) :
    Shifted w G b b (w, b % maxWinLen, []) := by
  have hnil : (G.take b).drop b = [] := List.drop_eq_nil_of_le (by simp)
  exact ⟨Nat.le_refl b, h, by rw [hnil]; simp, rfl, by rw [Nat.sub_self]; rfl, by rw [hnil]; rfl,
    by simp⟩

/-- Completing a packet answers its sub-op when it is the last. -/
theorem completePkt_spec {w : Worker} (p : PktState) (rest : List PktState)
    (h : w.qp.cq.length + ((p :: rest).filterMap PktState.lastOf).length ≤ queueSize) :
    (w.completePkt p).1 = { w with
        qp := { w.qp with cq := w.qp.cq ++ [p].filterMap PktState.lastOf } } ∧
      pushed (w.completePkt p).2 = [p].filterMap PktState.lastOf ∧
      Backend.completed (w.completePkt p).2 = 0 ∧ ∀ e ∈ (w.completePkt p).2, e.Done := by
  rw [Worker.completePkt]
  by_cases hlast : p.isLast = true
  · have hof : p.lastOf = some p.subOp := if_pos hlast
    have hroom : w.qp.cq.length ≠ queueSize := by
      rw [List.filterMap_cons_some hof, List.length_cons] at h
      omega
    rw [if_pos hlast, QueuePair.pushResp, if_neg hroom]
    refine ⟨by simp [hof], by simp [hof, Backend.pushed], rfl, fun e he => Or.inr ?_⟩
    exact ⟨_, List.mem_singleton.mp he⟩
  · have hof : p.lastOf = none := if_neg hlast
    rw [if_neg hlast]
    exact ⟨by simp [hof], by simp [hof, Backend.pushed], rfl, by simp⟩

/-- **The loop of `shift_ack`** shifts out acked packets, in order. -/
theorem shiftFrom_spec {G : List PktState} {acc : List ℕ} (n : ℕ) :
    ∀ (w : Worker) (b : ℕ), w.window.toSend = G.length % maxWinLen → b ≤ G.length →
      G.length ≤ b + (maxWinLen - 1) → G.length - b ≤ n →
      (∀ j p, b ≤ j → G[j]? = some p →
        w.window.state (j % maxWinLen) = { p with acked := decide (j ∈ acc) }) →
      w.qp.cq.length + ((G.drop b).filterMap PktState.lastOf).length ≤ queueSize →
      ∃ b', (∀ j, b ≤ j → j < b' → j ∈ acc) ∧
        Shifted w G b b' (w.shiftFrom n (b % maxWinLen)) := by
  induction n with
  | zero =>
    intro w b hsend hle hlap hn hstate hroom
    exact ⟨b, fun j hj hj' => absurd hj (Nat.not_le.mpr hj'), Shifted.stop hle⟩
  | succ n ih =>
    intro w b hsend hle hlap hn hstate hroom
    have hstop : ∃ b', (∀ j, b ≤ j → j < b' → j ∈ acc) ∧
        Shifted w G b b' (w, b % maxWinLen, []) :=
      ⟨b, fun j hj hj' => absurd hj (Nat.not_le.mpr hj'), Shifted.stop hle⟩
    rw [Worker.shiftFrom]
    rcases Nat.eq_or_lt_of_le hle with heq | hlt
    · rw [if_neg (by rw [hsend, ← heq]; simp)]
      exact hstop
    have hget := List.getElem?_eq_getElem hlt
    have hne : b % maxWinLen ≠ w.window.toSend := by
      rw [hsend]
      simp only [maxWinLen] at *
      omega
    have hb := hstate b G[b] (Nat.le_refl b) hget
    by_cases hacked : b ∈ acc
    swap
    · rw [if_neg (by simp [Window.hasAcked, hb, hacked])]
      exact hstop
    rw [if_pos (by simp [Window.hasAcked, hb, hacked, hne]), hb]
    rw [List.drop_eq_getElem_cons hlt] at hroom
    obtain ⟨hw₁, hpush₁, hdone₁, hev₁⟩ :=
      completePkt_spec { G[b] with acked := decide (b ∈ acc) } (G.drop (b + 1)) hroom
    generalize w.completePkt { G[b] with acked := decide (b ∈ acc) } = out at *
    obtain ⟨w₁, ev₁⟩ := out
    dsimp only at *
    obtain ⟨b', hin, hsh⟩ := ih w₁ (b + 1) (by rw [hw₁]; exact hsend) hlt (by omega) (by omega)
      (by rw [hw₁]; exact fun j p hj => hstate j p (Nat.le_of_succ_le hj))
      (by
        rw [hw₁, List.length_append, Nat.add_assoc, ← List.length_append, ← List.filterMap_append]
        exact hroom)
    rw [nextPosition_mod]
    generalize w₁.shiftFrom n ((b + 1) % maxWinLen) = rest at *
    obtain ⟨w₂, toAck, ev₂⟩ := rest
    have hb' : b < (G.take b').length := by
      rw [List.length_take_of_le hsh.le_length]
      exact hsh.le
    have hcons : ((G.take b').drop b).filterMap PktState.lastOf =
        [{ G[b] with acked := decide (b ∈ acc) }].filterMap PktState.lastOf ++
          ((G.take b').drop (b + 1)).filterMap PktState.lastOf := by
      rw [List.drop_eq_getElem_cons hb', List.getElem_take, ← List.singleton_append,
        List.filterMap_append]
      rfl
    refine ⟨b', fun j hj hj' => ?_, Nat.le_of_succ_le hsh.le, hsh.le_length, ?_, hsh.toAck, ?_, ?_, ?_⟩
    · rcases Nat.eq_or_lt_of_le hj with rfl | hj
      · exact hacked
      · exact hin j hj hj'
    · have hw₂ := hsh.worker
      dsimp only at hw₂ ⊢
      rw [hw₂, hw₁, hcons]
      simp only [List.append_assoc]
    · have hc := hsh.completed
      have hle' := hsh.le
      have hone : Backend.completed [Event.completed (b % maxWinLen)] = 1 := rfl
      dsimp only at hc ⊢
      rw [← List.singleton_append, completed_append, completed_append, hdone₁, hc, hone]
      omega
    · have hp := hsh.pushed
      dsimp only at hp ⊢
      rw [← List.singleton_append, pushed_append, pushed_append, hpush₁, hp, hcons]
      rfl
    · intro e he
      rcases List.mem_cons.mp he with rfl | he
      · exact Or.inl ⟨_, rfl⟩
      · rcases List.mem_append.mp he with he | he
        · exact hev₁ e he
        · exact hsh.done e he

/-- After `shift_ack` the window begins with the first packet not yet acked. -/
theorem InWindow.endRx {ctx : BitVec 8 → BitVec 32} {r r' : Run} {acc : List ℕ} {k sent : ℕ}
    (h : InWindow r acc) (hc : Cursor ctx r k sent)
    (hroom : r.worker.qp.cq.length +
      (((built r.log).drop (completed r.log)).filterMap PktState.lastOf).length ≤ queueSize)
    (hstep : r.Step .endRx r') :
    InWindow r' acc ∧ completed r.log ≤ completed r'.log ∧ built r'.log = built r.log ∧
      r'.worker.qp = { r.worker.qp with
        cq := r.worker.qp.cq ++
          (((built r.log).take (completed r'.log)).drop (completed r.log)).filterMap
            PktState.lastOf } ∧
      r'.worker.heap = r.worker.heap ∧ r'.worker.mem = r.worker.mem ∧
      r'.worker.assertFailed = r.worker.assertFailed ∧
      ∃ events, r'.log = r.log ++ events ∧ (∀ e ∈ events, e.Done) ∧ pushed events =
        (((built r.log).take (completed r'.log)).drop (completed r.log)).filterMap
          PktState.lastOf := by
  obtain ⟨events, hw, hlog⟩ := hstep
  by_cases hpc : r.worker.pc = .rx
  swap
  · exact absurd hw (by simp [Worker.step, hpc])
  have hout : r.worker.pc.Outside := by
    intro _ _ _ he
    simp [hpc] at he
  simp only [Worker.step, if_pos hpc, Worker.shiftAck] at hw
  have hsend := h.sendPos
  rw [Worker.sendPos_outside hout] at hsend
  have hbound := h.holds.bound
  obtain ⟨b', hin, hsh⟩ := shiftFrom_spec maxWinLen r.worker (completed r.log) hsend
    h.holds.le hbound (by omega) h.holds.state hroom
  rw [← h.holds.toAck] at hsh
  generalize r.worker.shiftFrom maxWinLen r.worker.window.toAck = out at *
  obtain ⟨w₁, toAck, ev⟩ := out
  obtain ⟨hle, hle', hw₁, rfl, hcnt, hpush, hdone⟩ := hsh
  dsimp only at *
  obtain ⟨hr, rfl⟩ := Prod.mk.inj (Option.some.inj hw)
  have hstill : built ev = [] ∧ Backend.accepted ev = [] := by
    constructor <;> refine List.filterMap_eq_nil_iff.mpr fun e he => ?_ <;>
      obtain ⟨_, rfl⟩ | ⟨_, rfl⟩ := hdone e he <;> rfl
  have hb : built r'.log = built r.log := by
    rw [hlog, built_append, hstill.1, List.append_nil]
  have ha : Backend.accepted r'.log = Backend.accepted r.log := by
    rw [hlog, accepted_append, hstill.2, List.append_nil]
  have hcomp : completed r'.log = b' := by
    rw [hlog, completed_append, hcnt]
    omega
  rw [hw₁] at hr
  have hempty := r'.worker.window.txEmpty_iff (b := b') hle' (by omega)
    (by rw [← hr]) (by rw [← hr]; exact hsend)
  have hpc' : r'.worker.pc = .tx := by rw [← hr]
  have hstate : r'.worker.window.state = r.worker.window.state := by rw [← hr]
  have hnext : r'.worker.nextPsn = r.worker.nextPsn := by rw [← hr]; rfl
  refine ⟨⟨⟨?_, ?_, ?_, ?_⟩, ?_, ?_, ?_, ?_, ?_, ?_, h.nodup, ?_, ?_, ?_⟩, ?_, hb, ?_, ?_, ?_, ?_, ?_⟩
  · rw [hcomp, hb]; exact hle'
  · rw [hcomp, hb]; omega
  · rw [hcomp, ← hr]
  · rw [hcomp, hb, hstate]
    intro j p hj
    exact h.holds.state j p (Nat.le_trans hle hj)
  · rw [hb, Worker.sendPos_outside (by rw [hpc']; exact fun _ _ _ he => by simp at he), ← hr]
    exact hsend
  · rw [hpc']
    intro _ _ _ he
    simp at he
  · rw [hcomp, hb, ← hr]
    intro j p hj
    exact h.group j p (Nat.le_trans hle hj)
  · rw [hcomp, hb, hnext]
    intro j p hj
    exact h.psn j p (Nat.le_trans hle hj)
  · rw [hcomp, hb, hnext]
    intro hlt
    have hget := List.getElem?_eq_getElem hlt
    have hpsn := h.psn b' _ hle hget
    have hinc : (built r.log)[b'].pkt.inc.psn = (built r.log)[b'].psn :=
      congrArg Switch.Netccl.psn (hc.header _ (List.getElem_mem hlt)).2.2
    rw [← hpsn, ← hinc]
    have hfull : ¬ r'.worker.window.txEmpty = true := fun he =>
      absurd (hempty.mp he) (Nat.ne_of_gt hlt)
    have hleft : r'.worker.window.leftPsn = (r'.worker.window.state (b' % maxWinLen)).pkt.inc.psn := by
      rw [← hr] at hfull ⊢
      exact if_neg hfull
    rw [hleft, hstate, h.holds.state b' _ hle hget]
  · rw [hcomp, hb, hnext, ← hr]
    intro _ hlt
    exact h.rightPsn hout (Nat.lt_of_le_of_lt hle hlt)
  · rw [hb]; exact h.lt
  · rw [hcomp]
    intro j hj
    rcases Nat.lt_or_ge j (completed r.log) with hj' | hj'
    · exact h.done j hj'
    · exact hin j hj' hj
  · rw [ha, hb]; exact h.accepted
  · rw [hcomp]; exact hle
  · rw [hcomp, ← hr]
  · rw [← hr]
  · rw [← hr]
  · rw [← hr]
  · rw [hcomp]
    exact ⟨_, hlog, hdone, hpush⟩

/-! ## 7. Sending -/

/-- What `full_retrans` does: unacked packets go out again. -/
theorem fullRetrans_spec (w : Worker) : ∃ lastAckTimeStamp cc,
    w.fullRetrans.1 = { w with window := { w.window with lastAckTimeStamp, cc } } ∧
    ∀ e ∈ w.fullRetrans.2, ∃ pos ∈ walk maxWinLen w.window.toAck w.window.toSend,
      e = w.window.transmit pos := by
  rw [Worker.fullRetrans]
  split
  · exact ⟨_, _, rfl, fun e he => absurd he List.not_mem_nil⟩
  · refine ⟨_, _, rfl, fun e he => ?_⟩
    obtain ⟨pos, hpos, rfl⟩ := List.mem_map.mp he
    exact ⟨pos, List.mem_of_mem_filter hpos, rfl⟩

/-- The time of the last response, as `tx_process` notes it. -/
theorem startTx_noted (w : Worker) : ∃ prevAckCnt lastAckTimeStamp,
    (if w.ackCnt ≠ w.prevAckCnt then
      { w with prevAckCnt := w.ackCnt
               window := { w.window with lastAckTimeStamp := w.globalTs } }
    else w) = { w with prevAckCnt, window := { w.window with lastAckTimeStamp } } := by
  split <;> exact ⟨_, _, rfl⟩

/-- What `tx_process` does before the loop of `shift_send`, which gets its bounds. -/
theorem startTx_spec (w : Worker) : ∃ prevAckCnt lastAckTimeStamp cc expectWinLen,
    w.startTx.1 = { w with
      prevAckCnt
      window := { w.window with lastAckTimeStamp, cc }
      pc := .send w.window.toSend w.window.len expectWinLen } ∧
    expectWinLen ≤ maxWinLen - 1 ∧ expectWinLen ≤ w.currentSwitchWindowLimit ∧
    ∀ e ∈ w.startTx.2, ∃ pos ∈ walk maxWinLen w.window.toAck w.window.toSend,
      e = w.window.transmit pos := by
  have hmin : ∀ a b : ℕ, min (maxWinLen - 1) (min a b) ≤ maxWinLen - 1 ∧
      min (maxWinLen - 1) (min a b) ≤ a := fun a b => ⟨Nat.min_le_left _ _,
    Nat.le_trans (Nat.min_le_right _ _) (Nat.min_le_left _ _)⟩
  obtain ⟨cnt, ts, hnoted⟩ := startTx_noted w
  rw [Worker.startTx]
  dsimp only
  rw [hnoted]
  split
  · obtain ⟨ts', cc, hfull, hev⟩ :=
      fullRetrans_spec { w with prevAckCnt := cnt, window := { w.window with lastAckTimeStamp := ts } }
    rw [hfull]
    exact ⟨_, _, _, _, rfl, (hmin _ _).1, (hmin _ _).2, hev⟩
  · exact ⟨_, _, _, _, rfl, (hmin _ _).1, (hmin _ _).2, fun e he => absurd he List.not_mem_nil⟩

theorem InWindow.startTx {r r' : Run} {acc : List ℕ} (h : InWindow r acc)
    (hstep : r.Step .startTx r') : InWindow r' acc := by
  obtain ⟨events, hw, hlog⟩ := hstep
  by_cases hpc : r.worker.pc = .tx
  swap
  · exact absurd hw (by simp [Worker.step, hpc])
  have hout : r.worker.pc.Outside := by
    intro _ _ _ he
    simp [hpc] at he
  simp only [Worker.step, if_pos hpc] at hw
  obtain ⟨cnt, ts, cc, ew, hst, hew, -, hev⟩ := startTx_spec r.worker
  rw [Option.some.inj hw] at hst hev
  dsimp only at hst hev
  have hstill : Still events := still_sent fun e he => by
    obtain ⟨pos, -, rfl⟩ := hev e he
    exact ⟨pos, _, rfl⟩
  have hb : built r'.log = built r.log := by rw [hlog, built_append, hstill.built, List.append_nil]
  have hc : completed r'.log = completed r.log := by rw [hlog, completed_append, hstill.completed]; rfl
  have ha : Backend.accepted r'.log = Backend.accepted r.log := by
    rw [hlog, accepted_append, hstill.accepted, List.append_nil]
  have hsend := h.sendPos
  rw [Worker.sendPos_outside hout] at hsend
  have hpc' : r'.worker.pc = .send r.worker.window.toSend r.worker.window.len ew := by rw [hst]
  have hnext : r'.worker.nextPsn = r.worker.nextPsn := by rw [hst]; rfl
  refine ⟨⟨?_, ?_, ?_, ?_⟩, ?_, ?_, ?_, ?_, ?_, ?_, h.nodup, ?_, ?_, ?_⟩
  · rw [hb, hc]; exact h.holds.le
  · rw [hb, hc]; exact h.holds.bound
  · rw [hc, hst]; exact h.holds.toAck
  · rw [hb, hc, hst]; exact h.holds.state
  · rw [hb, ← hsend, Worker.sendPos, hpc']
  · rw [hb, hc]
    intro toSend winLen expectWinLen he
    obtain ⟨-, rfl, rfl⟩ := Pc.send.inj (hpc'.symm.trans he)
    exact ⟨Window.len_eq _ h.holds.le h.holds.bound h.holds.toAck hsend, hew⟩
  · rw [hb, hc, hst]; exact h.group
  · rw [hb, hc, hnext]; exact h.psn
  · rw [hb, hc, hnext, hst]; exact h.leftPsn
  · intro ho
    exact absurd hpc' (ho _ _ _)
  · rw [hb]; exact h.lt
  · rw [hc]; exact h.done
  · rw [hb, ha]; exact h.accepted

/-- **The slip**: inside the loop of `shift_send`, with packets out that the stored `to_send`
does not count, `gen_pkt` takes the window for empty and turns to another group. -/
def Mixes (r : Run) (l : Label) : Prop :=
  l = .sendOne ∧ ∃ toSend winLen expectWinLen ptr,
    r.worker.pc = .send toSend winLen expectWinLen ∧ winLen < expectWinLen ∧ winLen ≠ 0 ∧
    r.worker.gen.subOp = none ∧ r.worker.qp.frontReq = some ptr ∧
    (r.worker.subOp ptr).op.group.groupId ≠ r.worker.currentGroupId ∧
    r.worker.window.txEmpty = true

/-- The loop of `shift_send` ends. -/
theorem InWindow.endTx {r r' : Run} {acc : List ℕ} {toSend winLen expectWinLen : ℕ}
    (h : InWindow r acc) (hpc : r.worker.pc = .send toSend winLen expectWinLen)
    (hinc : ∀ p ∈ built r.log, p.pkt.inc.psn = p.psn) {events : List Event}
    (hw : r'.worker = r.worker.endTx toSend winLen) (hstill : Still events)
    (hlog : r'.log = r.log ++ events) : InWindow r' acc := by
  have hb : built r'.log = built r.log := by rw [hlog, built_append, hstill.built, List.append_nil]
  have hc : completed r'.log = completed r.log := by rw [hlog, completed_append, hstill.completed]; rfl
  have ha : Backend.accepted r'.log = Backend.accepted r.log := by
    rw [hlog, accepted_append, hstill.accepted, List.append_nil]
  have hsend : toSend = (built r.log).length % maxWinLen := by
    have := h.sendPos
    rwa [Worker.sendPos, hpc] at this
  have hpc' : r'.worker.pc = .cc := by rw [hw]; rfl
  have hout : r'.worker.pc.Outside := by
    intro _ _ _ he
    simp [hpc'] at he
  have hnext : r'.worker.nextPsn = r.worker.nextPsn := by rw [hw]; rfl
  have hack : r'.worker.window.toAck = r.worker.window.toAck := by rw [hw]; rfl
  have hsend' : r'.worker.window.toSend = toSend := by rw [hw]; rfl
  have hstate : r'.worker.window.state = r.worker.window.state := by rw [hw]; rfl
  refine ⟨⟨?_, ?_, ?_, ?_⟩, ?_, ?_, ?_, ?_, ?_, ?_, h.nodup, ?_, ?_, ?_⟩
  · rw [hb, hc]; exact h.holds.le
  · rw [hb, hc]; exact h.holds.bound
  · rw [hc, hack]; exact h.holds.toAck
  · rw [hb, hc, hstate]; exact h.holds.state
  · rw [hb, Worker.sendPos_outside hout, hsend', hsend]
  · intro _ _ _ he
    exact absurd he (hout _ _ _)
  · rw [hb, hc, hw]; exact h.group
  · rw [hb, hc, hnext]; exact h.psn
  · rw [hb, hc, hnext, hw]; exact h.leftPsn
  · rw [hb, hc, hnext]
    intro _ hlt
    obtain ⟨m, hm⟩ : ∃ m, (built r.log).length = m + 1 := ⟨_, (Nat.succ_pred (by omega)).symm⟩
    have hmlt : m < (built r.log).length := by omega
    have hlast : (built r.log).length - m = 1 := by omega
    have hget := List.getElem?_eq_getElem hmlt
    have hpsn := h.psn m _ (by omega) hget
    have hfull : ¬ r'.worker.window.txEmpty = true := fun he => Nat.ne_of_gt hlt
      ((r'.worker.window.txEmpty_iff h.holds.le h.holds.bound (hack.trans h.holds.toAck)
        (hsend'.trans hsend)).mp he)
    have hright : r'.worker.window.rightPsn =
        (r.worker.window.state (prevPosition toSend)).pkt.inc.psn := by
      rw [hw] at hfull ⊢
      exact if_neg hfull
    rw [hright, hsend, hm, prevPosition_mod, h.holds.state m _ (by omega) hget,
      hinc _ (List.getElem_mem _), ← hpsn, hlast]
    rfl
  · rw [hb]; exact h.lt
  · rw [hc]; exact h.done
  · rw [hb, ha]; exact h.accepted

/-- One packet more in the window, of the group of the others. -/
theorem InWindow.sent {r r' : Run} {acc : List ℕ} {toSend winLen expectWinLen k : ℕ}
    (h : InWindow r acc) (hpc : r.worker.pc = .send toSend winLen expectWinLen)
    (hlt : winLen < expectWinLen) {p : PktState} {pre : List Event}
    (hs : Sent r.worker r'.worker toSend winLen expectWinLen k p)
    (hpre : Starting r.worker k pre)
    (hgroup : r'.worker.currentGroupId = r.worker.currentGroupId ∨ winLen = 0)
    (hlog : r'.log = r.log ++ (pre ++ [.deref k, .built toSend p, .sent toSend p.pkt])) :
    InWindow r' acc ∧ built r'.log = built r.log ++ [p] ∧
      completed r'.log = completed r.log := by
  have hpre0 : built pre = [] ∧ completed pre = 0 ∧ Backend.accepted pre = [] := by
    cases hpre <;> exact ⟨rfl, rfl, rfl⟩
  have hb : built r'.log = built r.log ++ [p] := by
    rw [hlog, built_append, built_append, hpre0.1]; rfl
  have hc : completed r'.log = completed r.log := by
    rw [hlog, completed_append, completed_append, hpre0.2.1]; rfl
  have ha : Backend.accepted r'.log = Backend.accepted r.log := by
    rw [hlog, accepted_append, accepted_append, hpre0.2.2]; exact List.append_nil _
  obtain ⟨hwin, hew⟩ := h.send _ _ _ hpc
  have hle := h.holds.le
  have hsend : toSend = (built r.log).length % maxWinLen := by
    have := h.sendPos
    rwa [Worker.sendPos, hpc] at this
  have hinc : p.pkt.inc.psn = p.psn := congrArg Switch.Netccl.psn hs.inc
  have hgid : p.pkt.inc.groupId = r'.worker.currentGroupId := by rw [hs.inc, hs.group]; rfl
  have hlen : (built r'.log).length = (built r.log).length + 1 := by
    rw [hb, List.length_append, List.length_singleton]
  -- packet `j` is an old one, of the same group, or the new one
  have hcases : ∀ j q, completed r.log ≤ j → (built r'.log)[j]? = some q →
      (j < (built r.log).length ∧ (built r.log)[j]? = some q ∧
        r'.worker.currentGroupId = r.worker.currentGroupId) ∨
      (j = (built r.log).length ∧ q = p) := by
    intro j q hj hq
    rw [hb] at hq
    rcases Nat.lt_or_ge j (built r.log).length with hj' | hj'
    · rw [List.getElem?_append_left hj'] at hq
      exact Or.inl ⟨hj', hq, hgroup.resolve_right (by omega)⟩
    · have hlt' := (List.getElem?_eq_some_iff.mp hq).1
      rw [List.length_append, List.length_singleton] at hlt'
      obtain rfl : j = (built r.log).length := by omega
      rw [List.getElem?_concat_length] at hq
      exact Or.inr ⟨rfl, (Option.some.inj hq).symm⟩
  have hpsn : ∀ j q, completed r.log ≤ j → (built r'.log)[j]? = some q →
      q.psn + BitVec.ofNat 32 ((built r'.log).length - j) = r'.worker.nextPsn := by
    intro j q hj hq
    rcases hcases j q hj hq with ⟨hj', hq', hg⟩ | ⟨rfl, rfl⟩
    · rw [hlen, Nat.succ_sub (Nat.le_of_lt hj'), Nat.succ_eq_add_one, BitVec.ofNat_add,
        ← BitVec.add_assoc, h.psn j q hj hq', ← hs.psn hg.symm, hs.nextPsn]
      rfl
    · rw [hlen, Nat.add_sub_cancel_left, hs.nextPsn]
      rfl
  refine ⟨⟨⟨?_, ?_, ?_, ?_⟩, ?_, ?_, ?_, ?_, ?_, ?_, h.nodup, ?_, ?_, ?_⟩, hb, hc⟩
  · rw [hc, hlen]; exact Nat.le_succ_of_le hle
  · rw [hc, hlen]; omega
  · rw [hs.toAck, hc]; exact h.holds.toAck
  · rw [hc, hs.state, hsend]
    intro j q hj hq
    rcases hcases j q hj hq with ⟨hj', hq', -⟩ | ⟨rfl, rfl⟩
    · have hne : j % maxWinLen ≠ (built r.log).length % maxWinLen := fun he =>
        Nat.ne_of_lt hj' (mod_inj hj (by simp only [maxWinLen] at *; omega) hle
          (by simp only [maxWinLen] at *; omega) he)
      rw [Function.update_of_ne hne, h.holds.state j q hj hq']
    · have hnew : (built r.log).length ∉ acc := by
        intro hm
        exact Nat.lt_irrefl _ (h.lt _ hm)
      rw [Function.update_self, decide_eq_false hnew, ← hs.acked]
  · rw [Worker.sendPos, hs.pc, hsend, nextPosition_mod, hlen]
  · intro toSend' winLen' expectWinLen' he
    obtain ⟨-, rfl, rfl⟩ := Pc.send.inj (hs.pc.symm.trans he)
    exact ⟨by rw [hc, hlen]; omega, hew⟩
  · rw [hc]
    intro j q hj hq
    rcases hcases j q hj hq with ⟨-, hq', hg⟩ | ⟨-, rfl⟩
    · rw [hg]; exact h.group j q hj hq'
    · exact hgid
  · rw [hc]; exact hpsn
  · rw [hc]
    intro _
    by_cases h0 : winLen = 0
    · have hn : completed r.log = (built r.log).length := by omega
      rw [hs.leftPsn, if_pos h0, hs.state, h.holds.toAck, hsend, hn, Function.update_self, hinc]
      exact hpsn _ p (Nat.le_of_eq hn) (by rw [hb, List.getElem?_concat_length])
    · have hg := hgroup.resolve_right h0
      rw [hs.leftPsn, if_neg h0, hlen, Nat.succ_sub hle, Nat.succ_eq_add_one, BitVec.ofNat_add,
        ← BitVec.add_assoc, h.leftPsn (by omega), ← hs.psn hg.symm, hs.nextPsn]
      rfl
  · intro ho
    exact absurd hs.pc (ho _ _ _)
  · rw [hlen]
    intro j hj
    exact Nat.lt_succ_of_lt (h.lt j hj)
  · rw [hc]; exact h.done
  · rw [ha]
    exact h.accepted.imp fun a j => Answers.mono ⟨[p], hb.symm⟩

end NetCCL.Backend
