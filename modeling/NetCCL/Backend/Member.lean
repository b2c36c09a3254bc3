/-
# A worker of one group

The load balancers of a group's hosts give their workers of one index the same stream of
sub-ops, but for the rank and the data: `Plan`.  Packet `q` of the stream then has one header
on all hosts, but for the rank (`Plan.header`), however the runs of the workers differ.

`Member` is what holds along the run of such a worker.  `Member.turn` says what one of its
steps does in numbers of packets alone -- it builds packet `n`, accepts the response to packet
`j`, shifts packets out of the window, sends packets that are in it -- and this is all that an
argument about several workers needs to know.
-/
import NetCCL.Backend.Retransmit

namespace NetCCL.Backend

open Lib

/-! ## 1. The plan -/

/-- The sub-ops of one group for the workers of one index, as far as they are the same on all
hosts.  `psn` is the counter of the group before the first. -/
structure Plan where
  groupId : BitVec 8
  aggAddr : ℕ
  aggLen : ℕ
  psn : BitVec 32
  opCode : ℕ → OpCode
  root : ℕ → BitVec 8
  size : ℕ → ℕ

namespace Plan

variable (G : Plan)

/-- Sub-op `k` of the plan, on a rank. -/
structure Gives (rank k : ℕ) (s : SubOp) : Prop where
  opCode : s.op.opCode = G.opCode k
  root : s.op.root = G.root k
  size : s.size = G.size k
  groupId : s.op.group.groupId = G.groupId
  rank : s.op.group.rank = BitVec.ofNat 8 rank
  aggAddr : s.aggAddr = G.aggAddr
  aggLen : s.aggLen = G.aggLen

/-- The load balancer of a rank follows the plan. -/
def Follows (rank : ℕ) (r : Run) : Label → Prop
  | .pushReq s => G.Gives rank r.worker.heap.length s
  | _ => True

/-- The number of packets of sub-op `k`. -/
def pktCnt (k : ℕ) : ℕ :=
  let pktCnt := (G.size k + payloadSize - 1) / payloadSize
  if pktCnt = 0 then 1 else pktCnt

/-- The sub-ops of the packets of the first `m` sub-ops. -/
def owners (m : ℕ) : List ℕ := (List.range m).flatMap fun k => List.replicate (G.pktCnt k) k

/-- The sub-op of packet `q`. -/
def owner (q : ℕ) : ℕ := (G.owners (q + 1)).getD q 0

/-- The header of packet `q`, on a rank. -/
def header (rank q : ℕ) : Switch.Netccl where
  collType := (G.opCode (G.owner q)).toByte
  groupId := G.groupId
  rank := BitVec.ofNat 8 rank
  root := G.root (G.owner q)
  aggAddr := BitVec.ofNat 16 (G.aggAddr + (G.psn + BitVec.ofNat 32 q).toNat % G.aggLen)
  psn := G.psn + BitVec.ofNat 32 q

variable {G} in
theorem Gives.pktCount {rank k : ℕ} {s : SubOp} (h : G.Gives rank k s) :
    pktCount s = G.pktCnt k := by
  rw [Backend.pktCount, pktCnt, h.size]

theorem pktCnt_pos (k : ℕ) : 0 < G.pktCnt k := by
  unfold pktCnt
  dsimp only
  split
  · exact Nat.one_pos
  · exact Nat.pos_of_ne_zero ‹_›

theorem owners_succ (m : ℕ) : G.owners (m + 1) = G.owners m ++ List.replicate (G.pktCnt m) m := by
  simp [owners, List.range_succ]

theorem le_length_owners (m : ℕ) : m ≤ (G.owners m).length := by
  induction m with
  | zero => exact Nat.zero_le _
  | succ m ih =>
    have hpos := G.pktCnt_pos m
    rw [owners_succ, List.length_append, List.length_replicate]
    omega

theorem owners_prefix {m m' : ℕ} (h : m ≤ m') : G.owners m <+: G.owners m' := by
  induction m', h using Nat.le_induction with
  | base => exact List.prefix_rfl
  | succ m' _ ih =>
    rw [owners_succ]
    exact ih.trans (List.prefix_append _ _)

/-- However far the stream has come, packet `q` is of sub-op `owner q`. -/
theorem owner_eq {m q k : ℕ} (h : (G.owners m)[q]? = some k) : G.owner q = k := by
  have hlen := G.le_length_owners (q + 1)
  have hq : (G.owners (q + 1))[q]? = some (G.owners (q + 1))[q] := List.getElem?_eq_getElem hlen
  obtain ⟨l₁, h₁⟩ := G.owners_prefix (Nat.le_max_left m (q + 1))
  obtain ⟨l₂, h₂⟩ := G.owners_prefix (Nat.le_max_right m (q + 1))
  have hboth : (G.owners (max m (q + 1)))[q]? = some k := by
    rw [← h₁, List.getElem?_append_left (List.getElem?_eq_some_iff.mp h).1]
    exact h
  rw [← h₂, List.getElem?_append_left hlen] at hboth
  rw [owner, List.getD_eq_getElem?_getD, hboth]
  rfl

end Plan

/-! ## 2. The packets of a plan -/

variable {ctx : BitVec 8 → BitVec 32} {G : Plan} {rank : ℕ} {r r' : Run}

/-- The sub-ops of the packets a stream is cut into. -/
theorem cuts_owners (l : List SubOp) (h : ∀ k s, l[k]? = some s → G.Gives rank k s) :
    (cuts ctx l).map Cut.subOp = G.owners l.length := by
  induction l using List.reverseRecOn with
  | nil => rfl
  | append_singleton l s ih =>
    have hlast : G.Gives rank l.length s := h _ _ (List.getElem?_concat_length ..)
    have hfirst : ∀ k t, l[k]? = some t → G.Gives rank k t := fun k t hk =>
      h k t (by rw [List.getElem?_append_left (List.getElem?_eq_some_iff.mp hk).1]; exact hk)
    rw [cuts_concat, List.map_append, ih hfirst, List.length_append, List.length_singleton,
      Plan.owners_succ, ← hlast.pktCount]
    simp [cutSubOp, cutAt, Function.comp_def]

/-- **The run of a worker of the group.** -/
structure Member (ctx : BitVec 8 → BitVec 32) (G : Plan) (rank : ℕ) (r : Run) : Prop where
  given : ∀ k < r.worker.heap.length, G.Gives rank k (r.worker.subOp k)
  inv : ∃ k sent popped acc, Inv ctx r k sent popped acc
  limit : r.worker.currentSwitchWindowLimit ≤ G.aggLen / 2
  loop : ∀ toSend winLen expectWinLen, r.worker.pc = .send toSend winLen expectWinLen →
    expectWinLen ≤ G.aggLen / 2
  width : (built r.log).length ≤ completed r.log + G.aggLen / 2

theorem Member.init (hlen : ccCwndMin ≤ G.aggLen / 2) (h : r.Init ctx) : Member ctx G rank r := by
  have hinv := Inv.init h
  obtain ⟨⟨mem, pkt, hw⟩, hlog⟩ := h
  refine ⟨?_, ⟨_, _, _, _, hinv⟩, ?_, ?_, ?_⟩
  · rw [hw]
    intro k hk
    exact absurd hk (Nat.not_lt_zero k)
  · rw [hw]
    exact hlen
  · rw [hw]
    intro _ _ _ he
    simp [Worker.init] at he
  · rw [hlog]
    exact Nat.zero_le _

/-- Nothing else than the group's sub-ops is in the queue. -/
theorem Member.inGroups (h : Member ctx G rank r) : InGroups r := fun i j hij hj _ => by
  rw [(h.given i (Nat.lt_trans hij hj)).groupId, (h.given j hj).groupId]

/-- **Packet `q` is what the plan says.** -/
theorem Member.packet (h : Member ctx G rank r) (hctx : ctx G.groupId = G.psn) {q : ℕ}
    {p : PktState} (hp : (built r.log)[q]? = some p) :
    p.subOp = G.owner q ∧ p.subOp < r.worker.heap.length ∧ p.pkt.inc = G.header rank q ∧
      p.psn = G.psn + BitVec.ofNat 32 q := by
  obtain ⟨k, sent, popped, acc, hinv⟩ := h.inv
  have hgroup : ∀ x ∈ built r.log, x.pkt.inc.groupId = G.groupId := by
    intro x hx
    obtain ⟨-, hlt, hinc⟩ := hinv.cursor.header x hx
    rw [hinc]
    exact (h.given _ hlt).groupId
  obtain ⟨hlt, hget⟩ := List.getElem?_eq_some_iff.mp hp
  have hmem : p ∈ built r.log := hget ▸ List.getElem_mem hlt
  obtain ⟨-, hsub, hinc⟩ := hinv.cursor.header p hmem
  have hpsn : p.psn = G.psn + BitVec.ofNat 32 q := by
    have hcount : packetsOf ((built r.log).take q) G.groupId = q := by
      rw [packetsOf, List.countP_eq_length.mpr fun x hx =>
        decide_eq_true (hgroup x (List.mem_of_mem_take hx)), List.length_take]
      omega
    rw [hinv.cursor.psn_numbered hp, hgroup p hmem, hctx, hcount]
  have howner : p.subOp = G.owner q := by
    obtain ⟨rest, hcuts⟩ := hinv.cursor.built_cuts
    have hgives : ∀ k s, r.worker.heap[k]? = some s → G.Gives rank k s := by
      intro k s hk
      obtain ⟨hk', rfl⟩ := List.getElem?_eq_some_iff.mp hk
      rw [← Worker.subOp_eq hk']
      exact h.given k hk'
    have hall : (cuts ctx r.worker.heap).map Cut.subOp = G.owners r.worker.heap.length :=
      cuts_owners _ hgives
    refine (G.owner_eq (m := r.worker.heap.length) ?_).symm
    rw [← hall, ← hcuts, List.map_append, List.getElem?_append_left (by simpa using hlt)]
    simp [hget, PktState.cut, hlt]
  refine ⟨howner, hsub, ?_, hpsn⟩
  have hgives := h.given _ hsub
  rw [hinc, incHdr, hgives.opCode, hgives.groupId, hgives.rank, hgives.root, hgives.aggAddr,
    hgives.aggLen, hpsn, howner]
  rfl

/-! ## 3. What a step does -/

/-- Packet `j` was accepted: it is shifted out, or marked. -/
def Run.Acked (r : Run) (j : ℕ) : Prop :=
  j < completed r.log ∨
    (j < (built r.log).length ∧ r.worker.window.hasAcked (j % maxWinLen) = true)

instance (r : Run) (j : ℕ) : Decidable (r.Acked j) := inferInstanceAs (Decidable (_ ∨ _))

theorem InWindow.acked_iff {acc : List ℕ} (h : InWindow r acc) {j : ℕ} : r.Acked j ↔ j ∈ acc := by
  have hstate : ∀ hlt : j < (built r.log).length, completed r.log ≤ j →
      r.worker.window.hasAcked (j % maxWinLen) = decide (j ∈ acc) := by
    intro hlt hle
    rw [Window.hasAcked, h.holds.state j _ hle (List.getElem?_eq_getElem hlt)]
  constructor
  · rintro (hlt | ⟨hlt, hack⟩)
    · exact h.done j hlt
    · rcases Nat.lt_or_ge j (completed r.log) with hj | hj
      · exact h.done j hj
      · rw [hstate hlt hj] at hack
        exact of_decide_eq_true hack
  · intro hj
    have hlt := h.lt j hj
    rcases Nat.lt_or_ge j (completed r.log) with hle | hle
    · exact Or.inl hle
    · exact Or.inr ⟨hlt, by rw [hstate hlt hle, decide_eq_true hj]⟩

/-- The number of the packet at a position, when `n` packets are built. -/
def numberAt (n position : ℕ) : ℕ := n - 1 - (n - 1 - position) % maxWinLen

theorem numberAt_mod {n j : ℕ} (hlt : j < n) (hlap : n ≤ j + maxWinLen) :
    numberAt n (j % maxWinLen) = j := by
  simp only [numberAt, maxWinLen] at *
  omega

/-- Only `rx_process_one` accepts, and only the frame it is given. -/
theorem Inv.accepts {k sent popped : ℕ} {acc : List ℕ} {l : Label} {events : List Event}
    (h : Inv ctx r k sent popped acc) (hstep : r.Step l r') (hlog : r'.log = r.log ++ events) :
    accepted events = [] ∨ ∃ f p, l = .receive f ∧ accepted events = [(p, f)] := by
  obtain ⟨events', hlog', hcase⟩ := step_cases h.cursor hstep
  obtain rfl : events = events' := List.append_cancel_left (hlog.symm.trans hlog')
  cases hcase with
  | quiet => exact Or.inl rfl
  | pushReq => exact Or.inl rfl
  | popResp => exact Or.inl rfl
  | @accept f _ hpc hpos hat =>
    obtain ⟨-, -, -, resent, hresent, rfl⟩ := hat
    have hstill := (copyPayload_still r.worker
      (r.worker.window.ackedAt (r.worker.getPosition f)) f).append (still_sent fun e he => by
        obtain ⟨i, -, rfl⟩ := hresent e he
        exact ⟨i, _, rfl⟩)
    exact Or.inr ⟨f, _, rfl, congrArg (_ :: ·) hstill.accepted⟩
  | endRx =>
    obtain ⟨-, -, -, -, -, -, -, events', hlog', hdone, -⟩ := h.window.endRx h.cursor h.room hstep
    obtain rfl : events = events' := List.append_cancel_left (hlog.symm.trans hlog')
    refine Or.inl (List.filterMap_eq_nil_iff.mpr fun e he => ?_)
    obtain ⟨_, rfl⟩ | ⟨_, rfl⟩ := hdone e he <;> rfl
  | startTx _ hr =>
    obtain ⟨_, _, _, _, -, -, -, hev⟩ := startTx_spec r.worker
    rw [hr] at hev
    refine Or.inl (still_sent fun e he => ?_).accepted
    obtain ⟨i, -, rfl⟩ := hev e he
    exact ⟨i, _, rfl⟩
  | endTx _ _ hev => exact Or.inl (still_deref fun e he => ⟨k, (hev e he).1⟩).accepted
  | sent _ _ _ hpre => cases hpre <;> exact Or.inl rfl

/-- One packet at most is built, with room in the window. -/
theorem Inv.builds {k sent popped : ℕ} {acc : List ℕ} {l : Label} {events : List Event}
    (h : Inv ctx r k sent popped acc) (hstep : r.Step l r') (hlog : r'.log = r.log ++ events) :
    built events = [] ∨ ∃ p toSend winLen expectWinLen, built events = [p] ∧
      completed events = 0 ∧ r.worker.pc = .send toSend winLen expectWinLen ∧
      (built r.log).length - completed r.log < expectWinLen := by
  by_cases hsend : l = .sendOne
  · obtain ⟨events', hlog', hcase⟩ := step_cases h.cursor hstep
    obtain rfl : events = events' := List.append_cancel_left (hlog.symm.trans hlog')
    cases hcase with
    | quiet => exact Or.inl rfl
    | endTx _ _ hev => exact Or.inl (still_deref fun e he => ⟨k, (hev e he).1⟩).built
    | @sent toSend winLen expectWinLen p pre hpc hlt hs hpre =>
      obtain ⟨hlen, -⟩ := h.window.send _ _ _ hpc
      refine Or.inr ⟨p, toSend, winLen, expectWinLen, ?_, ?_, hpc, hlen ▸ hlt⟩ <;>
        cases hpre <;> rfl
    | pushReq => cases hsend
    | popResp => cases hsend
    | accept => cases hsend
    | endRx => cases hsend
    | startTx => cases hsend
  · obtain ⟨events', hw, hlog'⟩ := hstep
    obtain rfl : events = events' := List.append_cancel_left (hlog.symm.trans hlog')
    by_cases hpush : ∃ s, l = .pushReq s
    · obtain ⟨s, rfl⟩ := hpush
      rw [(step_pushReq hw).1]
      exact Or.inl rfl
    · exact Or.inl (step_sameQueue hw hsend fun s hs => hpush ⟨s, hs⟩).2.1

/-- The limit of the window is that of the sub-op last turned to. -/
theorem Inv.limit {k sent popped : ℕ} {acc : List ℕ} {l : Label}
    (h : Inv ctx r k sent popped acc) (hstep : r.Step l r') :
    r'.worker.currentSwitchWindowLimit = r.worker.currentSwitchWindowLimit ∨
      ∃ ptr < r.worker.heap.length,
        r'.worker.currentSwitchWindowLimit = (r.worker.subOp ptr).aggLen / 2 := by
  by_cases hsend : l = .sendOne
  · obtain rfl := hsend
    have hpc : ∃ toSend winLen expectWinLen, r.worker.pc = .send toSend winLen expectWinLen := by
      obtain ⟨events, hw, -⟩ := hstep
      rw [Worker.step] at hw
      split at hw
      · exact ⟨_, _, _, ‹_›⟩
      · cases hw
    obtain ⟨toSend, winLen, expectWinLen, hpc⟩ := hpc
    obtain ⟨_, -, hw, -, -⟩ | ⟨p, pre, k', sent', -, -, hs, hlog, hc⟩ := h.cursor.sendOne hpc hstep
    · rw [hw]
      exact Or.inl rfl
    · have hmem : p ∈ built r'.log := by
        rw [hlog, built_append, built_append]
        exact List.mem_append_right _ (List.mem_append_right _ List.mem_cons_self)
      have hlt := (hc.header p hmem).2.1
      rw [hs.subOp, hs.heap] at hlt
      exact Or.inr ⟨k, hlt, hs.limit⟩
  · obtain ⟨events, hw, -⟩ := hstep
    by_cases hpush : ∃ s, l = .pushReq s
    · obtain ⟨s, rfl⟩ := hpush
      rw [(step_pushReq hw).2.2]
      exact Or.inl rfl
    · exact Or.inl (step_sameQueue hw hsend fun s hs => hpush ⟨s, hs⟩).1.limit

/-- The bound of the loop of `shift_send` is set when the loop begins. -/
theorem Inv.loop {k sent popped : ℕ} {acc : List ℕ} {l : Label}
    (h : Inv ctx r k sent popped acc) (hstep : r.Step l r') {toSend winLen expectWinLen : ℕ}
    (hpc' : r'.worker.pc = .send toSend winLen expectWinLen) :
    (∃ toSend winLen, r.worker.pc = .send toSend winLen expectWinLen) ∨
      expectWinLen ≤ r.worker.currentSwitchWindowLimit := by
  obtain ⟨events, hlog, hcase⟩ := step_cases h.cursor hstep
  cases hcase with
  | quiet hs =>
    rcases hs.pc with hpc | ⟨hpc, -⟩
    · exact Or.inl ⟨_, _, hpc ▸ hpc'⟩
    · exact absurd hpc' (hpc _ _ _)
  | pushReq _ hw =>
    rw [hw] at hpc'
    exact Or.inl ⟨_, _, hpc'⟩
  | popResp _ hw =>
    rw [hw] at hpc'
    exact Or.inl ⟨_, _, hpc'⟩
  | accept hpc _ hat =>
    obtain ⟨-, ⟨_, _, _, _, hw⟩, -⟩ := hat
    rw [hw] at hpc'
    exact absurd hpc' (hpc _ _ _)
  | endRx =>
    obtain ⟨_, hw, -⟩ := hstep
    rw [Worker.step] at hw
    split at hw
    · rw [← (Prod.mk.inj (Option.some.inj hw)).1] at hpc'
      cases hpc'
    · cases hw
  | startTx _ hw =>
    obtain ⟨_, _, _, e, hst, -, hle, -⟩ := startTx_spec r.worker
    rw [hw] at hst
    dsimp only at hst
    rw [hst] at hpc'
    obtain ⟨-, -, rfl⟩ := Pc.send.inj hpc'
    exact Or.inr hle
  | endTx _ hw =>
    rw [hw] at hpc'
    cases hpc'
  | sent hpc _ hs =>
    rw [hs.pc] at hpc'
    obtain ⟨-, -, rfl⟩ := Pc.send.inj hpc'
    exact Or.inl ⟨_, _, hpc⟩

/-- **Every step of a load balancer that follows the plan** keeps the worker in it. -/
theorem Member.step {l : Label} (h : Member ctx G rank r) (hplan : G.Follows rank r l)
    (hstep : r.Step l r') : Member ctx G rank r' := by
  obtain ⟨k, sent, popped, acc, hinv⟩ := h.inv
  have hmix := hinv.not_mixes (l := l) h.inGroups
  obtain ⟨k', sent', popped', acc', hinv', -⟩ := hinv.step hmix hstep
  refine ⟨?_, ⟨k', sent', popped', acc', hinv'⟩, ?_, fun toSend winLen expectWinLen hpc => ?_, ?_⟩
  · by_cases hpush : ∃ s, l = .pushReq s
    · obtain ⟨s, rfl⟩ := hpush
      obtain ⟨events, hw, -⟩ := hstep
      have hheap : r'.worker.heap = r.worker.heap ++ [s] := by rw [(step_pushReq hw).2.2]
      intro i hi
      rcases subOp_pushed hheap hi with ⟨hlt, hsub⟩ | ⟨rfl, hsub⟩
      · rw [hsub]
        exact h.given i hlt
      · rw [hsub]
        exact hplan
    · have hheap := hinv.cursor.heap_eq hstep fun s hs => hpush ⟨s, hs⟩
      intro i hi
      rw [Worker.subOp_congr hheap]
      exact h.given i (by rwa [hheap] at hi)
  · rcases hinv.limit hstep with hlimit | ⟨ptr, hptr, hlimit⟩
    · rw [hlimit]
      exact h.limit
    · rw [hlimit, (h.given ptr hptr).aggLen]
  · rcases hinv.loop hstep hpc with ⟨_, _, hpc⟩ | hle
    · exact h.loop _ _ _ hpc
    · exact Nat.le_trans hle h.limit
  · obtain ⟨events, hw, hlog⟩ := hstep
    have hwidth := h.width
    rcases hinv.builds ⟨events, hw, hlog⟩ hlog with hnone | ⟨p, _, _, _, hone, hzero, hpc, hlt⟩
    · rw [hlog, built_append, hnone, completed_append, List.append_nil]
      omega
    · have hloop := h.loop _ _ _ hpc
      rw [hlog, built_append, hone, completed_append, hzero, List.length_append,
        List.length_singleton]
      omega

/-- What a step accepts. -/
inductive Accepts (r r' : Run) : Label → List Event → Prop
  | nothing {l : Label} {events : List Event} : accepted events = [] →
      (∀ x, r'.Acked x ↔ r.Acked x) → Accepts r r' l events
  | response {f : Frame} {p : PktState} {events : List Event} {j : ℕ} :
      accepted events = [(p, f)] → completed r.log ≤ j → Answers (built r.log) (p, f) j →
      (∀ x, r'.Acked x ↔ x = j ∨ r.Acked x) → Accepts r r' (.receive f) events

/-- **What a step does**, in the numbers of the packets. -/
structure Turn (G : Plan) (r r' : Run) (l : Label) (events : List Event) : Prop where
  log : r'.log = r.log ++ events
  built : built r'.log = built r.log ∨ ∃ p, built r'.log = built r.log ++ [p] ∧
    (built r.log).length < completed r.log + G.aggLen / 2
  accepts : Accepts r r' l events
  le : completed r.log ≤ completed r'.log
  shifted : ∀ j < completed r'.log, r'.Acked j
  sent : ∀ pos f, (pos, f) ∈ transmitted events → ∃ p,
    completed r'.log ≤ numberAt (Backend.built r'.log).length pos ∧
      (Backend.built r'.log)[numberAt (Backend.built r'.log).length pos]? = some p ∧ f = p.pkt

/-- **Every step is such a turn.** -/
theorem Member.turn {l : Label} (h : Member ctx G rank r) (hstep : r.Step l r') :
    ∃ events, Turn G r r' l events := by
  obtain ⟨k, sent, popped, acc, hinv⟩ := h.inv
  have hmix := hinv.not_mixes (l := l) h.inGroups
  obtain ⟨k', sent', popped', acc', hinv', hacc⟩ := hinv.step hmix hstep
  obtain ⟨events, hw, hlog⟩ := hstep
  have hbuilds := hinv.builds ⟨events, hw, hlog⟩ hlog
  have haccepted := hinv'.window.accepted
  rw [hlog, accepted_append, ← hlog] at haccepted
  have hlen := haccepted.length_eq
  rw [List.length_append, hinv.window.accepted.length_eq] at hlen
  refine ⟨events, hlog, ?_, ?_, ?_, fun j hj => Or.inl hj, fun pos f hf => ?_⟩
  · rcases hbuilds with hnone | ⟨p, _, _, _, hone, -, hpc, hlt⟩
    · exact Or.inl (by rw [hlog, built_append, hnone, List.append_nil])
    · have hloop := h.loop _ _ _ hpc
      exact Or.inr ⟨p, by rw [hlog, built_append, hone], by omega⟩
  · rcases hinv.accepts ⟨events, hw, hlog⟩ hlog with hnone | ⟨f, p, rfl, hone⟩
    · refine .nothing hnone fun x => ?_
      rcases hacc with rfl | ⟨j, -, -, rfl⟩
      · rw [hinv'.window.acked_iff, hinv.window.acked_iff]
      · rw [hnone] at hlen
        simp at hlen
    · rcases hacc with rfl | ⟨j, hj, -, rfl⟩
      · rw [hone] at hlen
        simp at hlen
      · have hb : built r'.log = built r.log := by
          rw [hlog, built_append, (step_sameQueue hw (by simp) (by simp)).2.1, List.append_nil]
        rw [hone, hb] at haccepted
        have hlast := List.forall₂_drop_append _ acc [j] haccepted
        rw [← hinv.window.accepted.length_eq, List.drop_left] at hlast
        refine .response hone hj (List.forall₂_cons.mp hlast).1 fun x => ?_
        rw [hinv'.window.acked_iff, hinv.window.acked_iff, List.mem_append, List.mem_singleton,
          or_comm]
  · rw [hlog, completed_append]
    exact Nat.le_add_right _ _
  · obtain ⟨j, p, hj, hpos, hp, hf⟩ := hinv.sends ⟨events, hw, hlog⟩ hlog (mem_transmitted.mp hf)
    have hlt := (List.getElem?_eq_some_iff.mp hp).1
    have hbound := hinv'.window.holds.bound
    have hnum : numberAt (built r'.log).length pos = j := by
      rw [hpos]
      exact numberAt_mod hlt (by omega)
    exact ⟨p, by rw [hnum]; exact hj, by rw [hnum]; exact hp, hf⟩

end NetCCL.Backend
