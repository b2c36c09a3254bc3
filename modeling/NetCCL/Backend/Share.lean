/-
# A worker that serves several groups

The sub-ops in the queue of one worker may be of several groups.  `gen_pkt` turns to another
group only when the window is empty, and the callers wait for the sub-ops of one group before
they queue those of another, so that the window only ever contains packets of ONE group.

A group's packets in such a worker are numbered by themselves: packet `q` of the group is the
one with `q` packets of the group before it (`Run.builtIn`, `Run.completedIn`, `Run.AckedIn`).
`Share.packet` gives its header, and `Serving.turn` what a step of the worker is to one group:
a step in these numbers, or no step at all.

What one window bound is to all groups of a worker, `AGG_LEN / 2`, has to be the same: the loop
of `shift_send` bounds the window by the limit of the group it finds, and may turn to another
group in its first round.
-/
import NetCCL.Lib.Within
import NetCCL.Backend.Member

namespace NetCCL.Backend

open Lib

/-! ## 1. The packets of a group -/

/-- The packets of a group. -/
def ofGroup (g : BitVec 8) (p : PktState) : Bool := decide (p.pkt.inc.groupId = g)

@[simp] theorem ofGroup_iff {g : BitVec 8} {p : PktState} :
    ofGroup g p = true ↔ p.pkt.inc.groupId = g := decide_eq_true_iff

namespace Run

variable (r : Run) (g : BitVec 8)

/-- The packets built for a group. -/
def builtIn : List PktState := (built r.log).filter (ofGroup g)

/-- How many of them are shifted out of the window. -/
def completedIn : ℕ := within (ofGroup g) (built r.log) (completed r.log)

/-- Packet `q` of the group was accepted. -/
def AckedIn (q : ℕ) : Prop :=
  ∃ j p, (built r.log)[j]? = some p ∧ p.pkt.inc.groupId = g ∧
    within (ofGroup g) (built r.log) j = q ∧ r.Acked j

/-- The number, in its group, of the packet at a position. -/
def numberIn (position : ℕ) : ℕ :=
  within (ofGroup g) (built r.log) (numberAt (built r.log).length position)

end Run

/-- A response accepted for a packet of a group. -/
inductive AcceptsIn (g : BitVec 8) (r r' : Run) : Label → List Event → Prop
  | nothing {l : Label} {events : List Event} :
      (∀ x ∈ accepted events, x.1.pkt.inc.groupId ≠ g) →
      (∀ q, r'.AckedIn g q ↔ r.AckedIn g q) → AcceptsIn g r r' l events
  | response {f : Frame} {p : PktState} {events : List Event} {q : ℕ} :
      accepted events = [(p, f)] → r.completedIn g ≤ q → Answers (r.builtIn g) (p, f) q →
      (∀ x, r'.AckedIn g x ↔ x = q ∨ r.AckedIn g x) → AcceptsIn g r r' (.receive f) events

/-- **What a step is to one group**, whose windows are of half the length `aggLen`. -/
structure TurnIn (g : BitVec 8) (aggLen : ℕ) (r r' : Run) (l : Label) (events : List Event) :
    Prop where
  log : r'.log = r.log ++ events
  built : r'.builtIn g = r.builtIn g ∨ ∃ p, r'.builtIn g = r.builtIn g ++ [p] ∧
    (r.builtIn g).length < r.completedIn g + aggLen / 2
  accepts : AcceptsIn g r r' l events
  le : r.completedIn g ≤ r'.completedIn g
  shifted : ∀ q < r'.completedIn g, r'.AckedIn g q
  sent : ∀ pos f, (pos, f) ∈ transmitted events → f.inc.groupId = g → ∃ p,
    r'.completedIn g ≤ r'.numberIn g pos ∧ (r'.builtIn g)[r'.numberIn g pos]? = some p ∧
      f = p.pkt

variable {ctx : BitVec 8 → BitVec 32} {G : Plan} {rank : ℕ} {r r' : Run} {g : BitVec 8} {l : Label}
  {events : List Event}

/-! ## 2. From the numbers of all packets to those of a group -/

/-- Only what was built was accepted. -/
theorem Run.Acked.lt {j : ℕ} (h : r.Acked j) (hle : completed r.log ≤ (built r.log).length) :
    j < (built r.log).length := by
  rcases h with h | ⟨h, -⟩
  · exact Nat.lt_of_lt_of_le h hle
  · exact h

/-- Numbers stay as they are while packets are added. -/
theorem Run.AckedIn.iff_of_prefix {acked : ℕ → Prop} (hbuilt : built r.log <+: built r'.log)
    (hack : ∀ j, r'.Acked j ↔ acked j) (hlt : ∀ j, acked j → j < (built r.log).length) (q : ℕ) :
    r'.AckedIn g q ↔ ∃ j p, (built r.log)[j]? = some p ∧ p.pkt.inc.groupId = g ∧
      within (ofGroup g) (built r.log) j = q ∧ acked j := by
  have hget : ∀ j, j < (built r.log).length → (built r'.log)[j]? = (built r.log)[j]? := by
    intro j hj
    obtain ⟨rest, hrest⟩ := hbuilt
    rw [← hrest, List.getElem?_append_left hj]
  constructor
  · rintro ⟨j, p, hp, hg, hnum, hj⟩
    have hj := (hack j).mp hj
    refine ⟨j, p, by rw [← hget j (hlt j hj), hp], hg, ?_, hj⟩
    rw [← within_extend hbuilt (Nat.le_of_lt (hlt j hj)), hnum]
  · rintro ⟨j, p, hp, hg, hnum, hj⟩
    refine ⟨j, p, by rw [hget j (hlt j hj), hp], hg, ?_, (hack j).mpr hj⟩
    rw [within_extend hbuilt (Nat.le_of_lt (hlt j hj)), hnum]

/-- One packet more is accepted. -/
theorem Run.AckedIn.accept (hbuilt : built r.log <+: built r'.log)
    (hle : completed r.log ≤ (built r.log).length) {j : ℕ} {p : PktState}
    (hp : (built r.log)[j]? = some p) (hack : ∀ x, r'.Acked x ↔ x = j ∨ r.Acked x) (q : ℕ) :
    r'.AckedIn g q ↔
      (p.pkt.inc.groupId = g ∧ q = within (ofGroup g) (built r.log) j) ∨ r.AckedIn g q := by
  have hlt : ∀ x, x = j ∨ r.Acked x → x < (built r.log).length := by
    rintro x (rfl | hx)
    · exact (List.getElem?_eq_some_iff.mp hp).1
    · exact hx.lt hle
  rw [Run.AckedIn.iff_of_prefix hbuilt hack hlt]
  constructor
  · rintro ⟨i, x, hx, hg, hnum, rfl | hi⟩
    · obtain rfl := Option.some.inj (hx.symm.trans hp)
      exact Or.inl ⟨hg, hnum.symm⟩
    · exact Or.inr ⟨i, x, hx, hg, hnum, hi⟩
  · rintro (⟨hg, rfl⟩ | ⟨i, x, hx, hg, hnum, hi⟩)
    · exact ⟨j, p, hp, hg, rfl, Or.inl rfl⟩
    · exact ⟨i, x, hx, hg, hnum, Or.inr hi⟩

/-- **A turn, group by group.** -/
theorem Turn.inGroup (h : Turn G r r' l events)
    (hle : completed r.log ≤ (Backend.built r.log).length) (g : BitVec 8) :
    TurnIn g G.aggLen r r' l events := by
  have hprefix : Backend.built r.log <+: Backend.built r'.log := by
    rcases h.built with hb | ⟨p, hb, -⟩
    · rw [hb]
    · rw [hb]
      exact List.prefix_append _ _
  refine ⟨h.log, ?_, ?_, ?_, fun q hq => ?_, fun pos f hf hg => ?_⟩
  · unfold Run.builtIn
    rcases h.built with hb | ⟨p, hb, hlt⟩
    · exact Or.inl (by rw [hb])
    · rw [hb, List.filter_append]
      by_cases hp : ofGroup g p = true
      · refine Or.inr ⟨p, by rw [List.filter_cons_of_pos hp, List.filter_nil], ?_⟩
        have hwidth := within_le (p := ofGroup g) (l := Backend.built r.log) hle
        rw [within_length] at hwidth
        unfold Run.completedIn
        omega
      · exact Or.inl (by rw [List.filter_cons_of_neg hp, List.filter_nil, List.append_nil])
  · cases h.accepts with
    | nothing hnone hack =>
      refine .nothing (fun x hx => ?_) fun q =>
        Run.AckedIn.iff_of_prefix hprefix hack (fun _ hj => hj.lt hle) q
      rw [hnone] at hx
      exact absurd hx List.not_mem_nil
    | @response f p _ j hone hj hans hack =>
      obtain ⟨x, hx, hpx, hpsn, hgroup⟩ := hans
      dsimp only at hpx hpsn hgroup
      have hiff : ∀ q, r'.AckedIn g q ↔ _ := Run.AckedIn.accept hprefix hle hx hack
      by_cases hg : x.pkt.inc.groupId = g
      · refine .response hone (within_mono hj)
          ⟨x, getElem?_filter_within hx (ofGroup_iff.mpr hg), hpx, hpsn, hgroup⟩ fun q => ?_
        rw [hiff q]
        simp [hg]
      · refine .nothing (fun y hy => ?_) fun q => ?_
        · rw [hone] at hy
          obtain rfl := List.mem_singleton.mp hy
          rw [hpx]
          exact hg
        · rw [hiff q]
          simp [hg]
  · unfold Run.completedIn
    rw [← within_extend hprefix hle]
    exact within_mono h.le
  · obtain ⟨j, p, hj, hp, hg, hnum⟩ := exists_of_lt_within hq
    exact ⟨j, p, hp, ofGroup_iff.mp hg, hnum, h.shifted j hj⟩
  · obtain ⟨p, hle, hp, rfl⟩ := h.sent pos f hf
    exact ⟨p, within_mono hle, getElem?_filter_within hp (ofGroup_iff.mpr hg), rfl⟩

/-! ## 3. The worker -/

/-- **The run of a worker whose groups all have windows of `aggLen / 2`.** -/
structure Serving (ctx : BitVec 8 → BitVec 32) (aggLen : ℕ) (r : Run) : Prop where
  groups : InGroups r
  inv : ∃ k sent popped acc, Inv ctx r k sent popped acc
  given : ∀ k < r.worker.heap.length, (r.worker.subOp k).aggLen = aggLen
  limit : r.worker.currentSwitchWindowLimit ≤ aggLen / 2
  loop : ∀ toSend winLen expectWinLen, r.worker.pc = .send toSend winLen expectWinLen →
    expectWinLen ≤ aggLen / 2

/-- What the load balancer of the worker keeps to. -/
structure Serves (aggLen : ℕ) (r : Run) (l : Label) : Prop where
  barrier : Barrier r l
  aggLen : ∀ s, l = .pushReq s → s.aggLen = aggLen

variable {aggLen : ℕ}

theorem Serving.init (hlen : ccCwndMin ≤ aggLen / 2) (h : r.Init ctx) : Serving ctx aggLen r := by
  have hinv := Inv.init h
  refine ⟨(Promised.init h).group, ⟨_, _, _, _, hinv⟩, ?_, ?_, ?_⟩ <;>
    obtain ⟨⟨mem, pkt, hw⟩, -⟩ := h <;> rw [hw]
  · intro k hk
    exact absurd hk (Nat.not_lt_zero k)
  · exact hlen
  · intro _ _ _ he
    simp [Worker.init] at he

theorem Serving.step (h : Serving ctx aggLen r) (hok : Serves aggLen r l) (hstep : r.Step l r') :
    Serving ctx aggLen r' := by
  obtain ⟨k, sent, popped, acc, hinv⟩ := h.inv
  obtain ⟨k', sent', popped', acc', hinv', -⟩ := hinv.step (hinv.not_mixes h.groups) hstep
  refine ⟨h.groups.step hinv.cursor hok.barrier hstep, ⟨k', sent', popped', acc', hinv'⟩, ?_, ?_,
    fun toSend winLen expectWinLen hpc => ?_⟩
  · by_cases hpush : ∃ s, l = .pushReq s
    · obtain ⟨s, rfl⟩ := hpush
      obtain ⟨events, hw, -⟩ := hstep
      have hheap : r'.worker.heap = r.worker.heap ++ [s] := by rw [(step_pushReq hw).2.2]
      intro i hi
      rcases subOp_pushed hheap hi with ⟨hlt, hsub⟩ | ⟨rfl, hsub⟩ <;> rw [hsub]
      · exact h.given i hlt
      · exact hok.aggLen s rfl
    · have hheap := hinv.cursor.heap_eq hstep (not_exists.mp hpush)
      intro i hi
      rw [Worker.subOp_congr hheap]
      exact h.given i (by rwa [hheap] at hi)
  · rcases hinv.limit hstep with hlimit | ⟨ptr, hptr, hlimit⟩
    · rw [hlimit]
      exact h.limit
    · rw [hlimit, h.given ptr hptr]
  · rcases hinv.loop hstep hpc with ⟨_, _, hpc⟩ | hle
    · exact h.loop _ _ _ hpc
    · exact Nat.le_trans hle h.limit

/-- What a step accepts, by the numbers of all packets. -/
theorem Serving.accepts (h : Serving ctx aggLen r) (hstep : r.Step l r')
    (hlog : r'.log = r.log ++ events) : Accepts r r' l events := by
  obtain ⟨k, sent, popped, acc, hinv⟩ := h.inv
  obtain ⟨k', sent', popped', acc', hinv', hacc⟩ := hinv.step (hinv.not_mixes h.groups) hstep
  -- each acceptance is one number more in `acc`
  have haccepted := hinv'.window.accepted
  rw [hlog, accepted_append, ← hlog] at haccepted
  have hlen := haccepted.length_eq
  rw [List.length_append, hinv.window.accepted.length_eq] at hlen
  rcases hinv.accepts hstep hlog with hnone | ⟨f, p, rfl, hone⟩
  · rw [hnone, List.length_nil, Nat.add_zero] at hlen
    refine .nothing hnone fun x => ?_
    rw [hinv'.window.acked_iff, hinv.window.acked_iff]
    rcases hacc with rfl | ⟨j, -, -, rfl⟩
    · exact Iff.rfl
    · rw [List.length_append, List.length_singleton] at hlen
      omega
  · rw [hone, List.length_singleton] at hlen
    rcases hacc with rfl | ⟨j, hj, -, rfl⟩
    · omega
    · have hsame : built events = [] := by
        obtain ⟨events', hw, hlog'⟩ := hstep
        obtain rfl : events = events' := List.append_cancel_left (hlog.symm.trans hlog')
        exact (step_sameQueue hw (by simp) (by simp)).2.1
      have hb : built r'.log = built r.log := by
        rw [hlog, built_append, hsame, List.append_nil]
      rw [hone, hb] at haccepted
      have hlast := List.forall₂_drop_append _ acc [j] haccepted
      rw [← hinv.window.accepted.length_eq, List.drop_left] at hlast
      refine .response hone hj (List.forall₂_cons.mp hlast).1 fun x => ?_
      rw [hinv'.window.acked_iff, hinv.window.acked_iff, List.mem_append, List.mem_singleton,
        or_comm]

/-- **What a step of the worker is to each of its groups.** -/
theorem Serving.turn (h : Serving ctx aggLen r) (hstep : r.Step l r')
    (hlog : r'.log = r.log ++ events) (g : BitVec 8) : TurnIn g aggLen r r' l events := by
  obtain ⟨k, sent, popped, acc, hinv⟩ := h.inv
  obtain ⟨k', sent', popped', acc', hinv', -⟩ := hinv.step (hinv.not_mixes h.groups) hstep
  have hturn : Turn { groupId := g, aggAddr := 0, aggLen, psn := 0, opCode := fun _ => .allReduce
                      root := fun _ => 0, size := fun _ => 0 } r r' l events := by
    refine ⟨hlog, ?_, h.accepts hstep hlog, ?_, fun j hj => Or.inl hj, fun pos f hf => ?_⟩
    · rcases hinv.builds hstep hlog with hnone | ⟨p, _, _, _, hone, -, hpc, hlt⟩
      · exact Or.inl (by rw [hlog, built_append, hnone, List.append_nil])
      · have hloop := h.loop _ _ _ hpc
        refine Or.inr ⟨p, by rw [hlog, built_append, hone], ?_⟩
        dsimp only
        omega
    · rw [hlog, completed_append]
      exact Nat.le_add_right _ _
    · obtain ⟨j, p, hj, hpos, hp, hf⟩ := hinv.sends hstep hlog (mem_transmitted.mp hf)
      have hbound := hinv'.window.holds.bound
      have hnum : numberAt (built r'.log).length pos = j := by
        rw [hpos]
        exact numberAt_mod (List.getElem?_eq_some_iff.mp hp).1 (by omega)
      exact ⟨p, by rw [hnum]; exact hj, by rw [hnum]; exact hp, hf⟩
  exact hturn.inGroup hinv.window.holds.le g

/-! ## 4. One group's plan in the worker -/

theorem Worker.subOp_mem {w : Worker} {k : ℕ} (h : k < w.heap.length) : w.subOp k ∈ w.heap := by
  rw [Worker.subOp_eq h]
  exact List.getElem_mem _

/-- The number, among the sub-ops of its group, of a sub-op. -/
def Worker.indexIn (w : Worker) (g : BitVec 8) (k : ℕ) : ℕ :=
  within (fun s => decide (s.op.group.groupId = g)) w.heap k

/-- The load balancer of a rank follows the plan with the sub-ops of the group. -/
def Plan.FollowsIn (G : Plan) (rank : ℕ) (r : Run) : Label → Prop
  | .pushReq s => s.op.group.groupId = G.groupId →
      G.Gives rank (r.worker.indexIn G.groupId r.worker.heap.length) s
  | _ => True

/-- **The sub-ops of the group are those of its plan.** -/
def Share (G : Plan) (rank : ℕ) (r : Run) : Prop :=
  ∀ k < r.worker.heap.length, r.worker.groupOf k = G.groupId →
    G.Gives rank (r.worker.indexIn G.groupId k) (r.worker.subOp k)

theorem Share.init (h : r.Init ctx) : Share G rank r := by
  obtain ⟨⟨mem, pkt, hw⟩, -⟩ := h
  intro k hk
  rw [hw] at hk
  exact absurd hk (Nat.not_lt_zero k)

theorem Share.step (h : Share G rank r) (hserving : Serving ctx aggLen r)
    (hok : G.FollowsIn rank r l) (hstep : r.Step l r') : Share G rank r' := by
  obtain ⟨k, sent, popped, acc, hinv⟩ := hserving.inv
  by_cases hpush : ∃ s, l = .pushReq s
  · obtain ⟨s, rfl⟩ := hpush
    obtain ⟨events, hw, -⟩ := hstep
    have hheap : r'.worker.heap = r.worker.heap ++ [s] := by rw [(step_pushReq hw).2.2]
    have hindex : ∀ i ≤ r.worker.heap.length,
        r'.worker.indexIn G.groupId i = r.worker.indexIn G.groupId i := by
      intro i hi
      unfold Worker.indexIn
      rw [hheap, within_extend (List.prefix_append _ _) hi]
    intro i hi hgroup
    unfold Worker.groupOf at hgroup
    rcases subOp_pushed hheap hi with ⟨hlt, hsub⟩ | ⟨rfl, hsub⟩ <;> rw [hsub] at hgroup ⊢
    · rw [hindex i (Nat.le_of_lt hlt)]
      exact h i hlt hgroup
    · rw [hindex _ (Nat.le_refl _)]
      exact hok hgroup
  · have hheap := hinv.cursor.heap_eq hstep (not_exists.mp hpush)
    intro i hi hgroup
    unfold Worker.groupOf Worker.indexIn at *
    rw [Worker.subOp_congr hheap] at hgroup ⊢
    rw [hheap] at hi ⊢
    exact h i hi hgroup

/-- The packets of the first `m` sub-ops of a plan: which sub-op, and which packet of it. -/
def Plan.places (G : Plan) (m : ℕ) : List (ℕ × ℕ) :=
  (List.range m).flatMap fun k => (List.range (G.pktCnt k)).map fun j => (k, j)

/-- The number of packet `q` in its sub-op. -/
def Plan.place (G : Plan) (q : ℕ) : ℕ := ((G.places (q + 1)).getD q (0, 0)).2

theorem Plan.places_succ (G : Plan) (m : ℕ) :
    G.places (m + 1) = G.places m ++ (List.range (G.pktCnt m)).map fun j => (m, j) := by
  simp [places, List.range_succ]

theorem Plan.places_fst (G : Plan) (m : ℕ) : (G.places m).map Prod.fst = G.owners m := by
  induction m with
  | zero => rfl
  | succ m ih =>
    rw [places_succ, owners_succ, List.map_append, ih, List.map_map]
    congr 1
    refine List.eq_replicate_iff.mpr ⟨by simp, fun x hx => ?_⟩
    obtain ⟨j, -, rfl⟩ := List.mem_map.mp hx
    rfl

theorem Plan.places_prefix (G : Plan) {m m' : ℕ} (h : m ≤ m') : G.places m <+: G.places m' := by
  induction m', h using Nat.le_induction with
  | base => exact List.prefix_rfl
  | succ m' _ ih =>
    rw [places_succ]
    exact ih.trans (List.prefix_append _ _)

/-- However far the stream has come, packet `q` has its place. -/
theorem Plan.place_eq (G : Plan) {m q k j : ℕ} (h : (G.places m)[q]? = some (k, j)) :
    G.owner q = k ∧ G.place q = j := by
  have howner : (G.owners m)[q]? = some k := by
    rw [← G.places_fst, List.getElem?_map, h]
    rfl
  have hlen : q < (G.places (q + 1)).length := by
    rw [← List.length_map Prod.fst, G.places_fst]
    exact G.le_length_owners (q + 1)
  obtain ⟨l₁, h₁⟩ := G.places_prefix (Nat.le_max_left m (q + 1))
  obtain ⟨l₂, h₂⟩ := G.places_prefix (Nat.le_max_right m (q + 1))
  have hboth : (G.places (max m (q + 1)))[q]? = some (k, j) := by
    rw [← h₁, List.getElem?_append_left (List.getElem?_eq_some_iff.mp h).1]
    exact h
  rw [← h₂, List.getElem?_append_left hlen] at hboth
  refine ⟨G.owner_eq howner, ?_⟩
  rw [Plan.place, List.getD_eq_getElem?_getD, hboth]
  rfl

/-- Which sub-op of the group a packet is of, and which packet of it. -/
def Worker.placeIn (w : Worker) (g : BitVec 8) (c : Cut) : ℕ × ℕ :=
  (w.indexIn g c.subOp, (c.data - (w.subOp c.subOp).data) / payloadSize)

/-- The packets of the group, in the numbers of its sub-ops. -/
theorem Share.places (ctx : BitVec 8 → BitVec 32) (h : Share G rank r) (n : ℕ)
    (hn : n ≤ r.worker.heap.length) :
    ((cuts ctx (r.worker.heap.take n)).filter fun c =>
        decide (r.worker.groupOf c.subOp = G.groupId)).map (r.worker.placeIn G.groupId) =
      G.places (r.worker.indexIn G.groupId n) := by
  induction n with
  | zero => rfl
  | succ n ih =>
    have hget : r.worker.heap[n]? = some (r.worker.subOp n) := by
      rw [Worker.subOp_eq hn]
      exact List.getElem?_eq_getElem hn
    have hindex : r.worker.indexIn G.groupId (n + 1) = r.worker.indexIn G.groupId n +
        if decide (r.worker.groupOf n = G.groupId) = true then 1 else 0 := within_succ hget
    have hsub : ∀ c ∈ r.worker.cutsOf ctx n, c.subOp = n := by
      intro c hc
      obtain ⟨j, -, rfl⟩ := mem_cutSubOp hc
      rfl
    rw [cuts_take_succ hn, List.filter_append, List.map_append, ih (Nat.le_of_succ_le hn), hindex]
    by_cases hgroup : r.worker.groupOf n = G.groupId
    · rw [if_pos (decide_eq_true hgroup), Plan.places_succ, ← (h n hn hgroup).pktCount,
        List.filter_eq_self.mpr fun c hc => by rw [hsub c hc]; exact decide_eq_true hgroup]
      congr 1
      rw [Worker.cutsOf, cutSubOp, List.map_map]
      refine List.map_congr_left fun j _ => ?_
      have hpos : 0 < payloadSize := by decide
      rw [Function.comp_apply, Worker.placeIn, cutAt]
      dsimp only
      rw [Nat.add_sub_cancel_left, Nat.mul_div_cancel j hpos]
    · rw [if_neg (by rw [decide_eq_false hgroup]; decide), Nat.add_zero,
        List.filter_eq_nil_iff.mpr fun c hc => by rw [hsub c hc, decide_eq_false hgroup]; decide,
        List.map_nil, List.append_nil]

/-- Where packet `q` of the group is in the buffers. -/
theorem Share.place (h : Share G rank r) (hserving : Serving ctx aggLen r) {q : ℕ} {p : PktState}
    (hp : (r.builtIn G.groupId)[q]? = some p) :
    r.worker.indexIn G.groupId p.subOp = G.owner q ∧
      p.data = (r.worker.subOp p.subOp).data + G.place q * payloadSize ∧
      p.size = min payloadSize ((r.worker.subOp p.subOp).size - G.place q * payloadSize) := by
  obtain ⟨k, sent, popped, acc, hinv⟩ := hserving.inv
  have hmem : p ∈ built r.log := List.mem_of_mem_filter (List.mem_of_getElem? hp)
  have hgroup : ∀ x ∈ built r.log, r.worker.groupOf x.subOp = x.pkt.inc.groupId := by
    intro x hx
    rw [(hinv.cursor.header x hx).2.2]
    rfl
  obtain ⟨rest, hrest⟩ := hinv.cursor.built_cuts
  have hall := h.places ctx r.worker.heap.length (Nat.le_refl _)
  rw [List.take_length, ← hrest, List.filter_append, List.map_append, List.filter_map,
    List.map_map] at hall
  have hsame : (built r.log).filter ((fun c : Cut => decide (r.worker.groupOf c.subOp =
      G.groupId)) ∘ PktState.cut) = r.builtIn G.groupId := by
    refine List.filter_congr fun x hx => ?_
    rw [Function.comp_apply, PktState.cut, hgroup x hx]
    rfl
  rw [hsame] at hall
  have hlt := (List.getElem?_eq_some_iff.mp hp).1
  have hplace : (G.places (r.worker.indexIn G.groupId r.worker.heap.length))[q]? =
      some (r.worker.placeIn G.groupId p.cut) := by
    rw [← hall, List.getElem?_append_left (by simpa using hlt), List.getElem?_map, hp]
    rfl
  obtain ⟨howner, hnum⟩ := G.place_eq hplace
  -- the packet is one of those its sub-op is cut into
  have hcut : p.cut ∈ cuts ctx r.worker.heap := by
    rw [← hrest]
    exact List.mem_append_left _ (List.mem_map_of_mem hmem)
  have hlt := (hinv.cursor.header p hmem).2.1
  have hof : p.cut ∈ r.worker.cutsOf ctx p.subOp := by
    rw [← cuts_filter hlt]
    exact List.mem_filter.mpr ⟨hcut, decide_eq_true rfl⟩
  obtain ⟨j, -, hj⟩ := mem_cutSubOp hof
  have hdata : p.data = (r.worker.subOp p.subOp).data + j * payloadSize := congrArg Cut.data hj
  have hsize : p.size = min payloadSize ((r.worker.subOp p.subOp).size - j * payloadSize) :=
    congrArg Cut.size hj
  have hjq : G.place q = j := by
    have hpos : 0 < payloadSize := by decide
    rw [hnum]
    change (p.data - (r.worker.subOp p.subOp).data) / payloadSize = j
    rw [hdata, Nat.add_sub_cancel_left, Nat.mul_div_cancel j hpos]
  rw [hjq]
  exact ⟨howner.symm, hdata, hsize⟩

/-- **Packet `q` of the group is what the plan says.** -/
theorem Share.packet (h : Share G rank r) (hserving : Serving ctx aggLen r)
    (hctx : ctx G.groupId = G.psn) {q : ℕ} {p : PktState}
    (hp : (r.builtIn G.groupId)[q]? = some p) :
    p.subOp < r.worker.heap.length ∧ p.pkt.inc = G.header rank q ∧
      p.psn = G.psn + BitVec.ofNat 32 q ∧
      G.Gives rank (G.owner q) (r.worker.subOp p.subOp) := by
  obtain ⟨k, sent, popped, acc, hinv⟩ := hserving.inv
  obtain ⟨j, hj, hg, hnum⟩ := exists_of_filter hp
  obtain ⟨-, hsub, hinc⟩ := hinv.cursor.header p (List.mem_of_getElem? hj)
  have hgroup : ∀ x ∈ built r.log, r.worker.groupOf x.subOp = x.pkt.inc.groupId := by
    intro x hx
    rw [(hinv.cursor.header x hx).2.2]
    rfl
  have hg := ofGroup_iff.mp hg
  have hpsn : p.psn = G.psn + BitVec.ofNat 32 q := by
    rw [hinv.cursor.psn_numbered hj, hg, hctx, ← hnum]
    rfl
  have howner : G.owner q = r.worker.indexIn G.groupId p.subOp := (h.place hserving hp).1.symm
  have hgives := h p.subOp hsub (by rw [hgroup p (List.mem_of_getElem? hj), hg])
  rw [← howner] at hgives
  refine ⟨hsub, ?_, hpsn, hgives⟩
  rw [hinc, incHdr, hgives.opCode, hgives.groupId, hgives.rank, hgives.root, hgives.aggAddr,
    hgives.aggLen, hpsn]
  rfl

end NetCCL.Backend
