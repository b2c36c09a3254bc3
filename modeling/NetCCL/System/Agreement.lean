/-
# What a group agrees on

Two results about every run of a group's hosts and its switch, whatever is lost, sent again,
or late.

* `agreement`: whatever response a rank accepts, it is for the packet it accepts it for, and
  its words are the sums of what all ranks put into that packet.
* `lost_response_recoverable`: while one rank waits for a packet that another has accepted, the
  slot keeps the packet, complete, and answers it again; and nobody is a lap ahead of anybody.

Both are read off `Joint`.  **What is assumed of the network** is in `System.Orderly`: no
response reaches its rank 2^32 packets late.  One that does is taken for another packet, and
then neither holds (`agreement_fails`, `lost_response_recoverable_fails`).
-/
import NetCCL.System.Joint
import NetCCL.System.Pair
import Mathlib.Algebra.BigOperators.Fin

namespace NetCCL

open Lib Switch Backend

variable {n : ℕ} {G : Plan} {tbl : Tables} {s s' : System n} {f f' : Traffic (Fin n)}

/-! ## 1. Agreement -/

/-- The response to packet `q` that rank `i` is to get has a payload. -/
def Backend.Plan.receives (G : Plan) (i q : ℕ) : Bool :=
  needRx ⟨G.opCode (G.owner q), G.root (G.owner q), 0, 0, ⟨G.groupId, 0, BitVec.ofNat 8 i, 0, 0⟩⟩

/-- `need_rx` looks at the op code and the ranks only. -/
theorem Backend.Plan.Gives.needRx {rank k q : ℕ} {t : SubOp} (h : G.Gives rank k t)
    (hk : k = G.owner q) : needRx t.op = G.receives rank q := by
  unfold Plan.receives NetCCL.needRx
  rw [h.opCode, h.root, h.rank, hk]

/-- What the egress control sends to a rank that is to get a payload. -/
theorem respond_payload {i q : ℕ} (payload : Payload) (h : G.receives i q = true) :
    (respond (G.header i q) payload).payload = some payload := by
  have hcoll : (G.header i q).collType = (G.opCode (G.owner q)).toByte := rfl
  have hroot : (G.header i q).root = G.root (G.owner q) := rfl
  have hrank : (G.header i q).rank = BitVec.ofNat 8 i := rfl
  unfold Plan.receives needRx at h
  unfold respond egressRespond
  simp only [Bool.false_eq_true, if_false]
  rw [hcoll, hroot, hrank]
  cases hop : G.opCode (G.owner q) with
  | allReduce => rfl
  | reduce =>
    rw [hop] at h
    have heq : G.root (G.owner q) = BitVec.ofNat 8 i := by simpa using h
    rw [if_pos (by rfl), if_pos heq.symm]
  | broadcast =>
    rw [hop] at h
    have hne : G.root (G.owner q) ≠ BitVec.ofNat 8 i := by simpa using h
    rw [if_neg (by decide), if_pos (by rfl), if_neg (Ne.symm hne)]
  | reduceScatter => rfl
  | allGather => rfl

/-- The response `fr`, accepted on rank `i` for the packet `p`, carries the sums. -/
def System.Carries (G : Plan) (s : System n) (i : Fin n) (p : PktState) (fr : Frame) : Prop :=
  ∃ q x, (built (s.host i).log)[q]? = some x ∧ p = { x with acked := true } ∧
    fr.inc = G.header i q ∧ (∀ k, q < (built (s.host k).log).length) ∧
    (G.receives i q = true →
      fr.pktLen = sizeofNetcclPkt ∧ Sums s.contribution q (payloadOf fr.payload))

/-- It does so from then on. -/
theorem System.Carries.mono {i : Fin n} {p : PktState} {fr : Frame} (h : s.Carries G i p fr)
    (hmono : ∀ k, built (s.host k).log <+: built (s'.host k).log) : s'.Carries G i p fr := by
  obtain ⟨q, x, hx, hp, hinc, hall, hsums⟩ := h
  have hget : ∀ k, q < (built (s.host k).log).length →
      (built (s'.host k).log)[q]? = (built (s.host k).log)[q]? := by
    intro k hk
    obtain ⟨rest, hrest⟩ := hmono k
    rw [← hrest, List.getElem?_append_left hk]
  refine ⟨q, x, by rw [hget i (hall i), hx], hp, hinc,
    fun k => Nat.lt_of_lt_of_le (hall k) (hmono k).length_le, fun hrx => ?_⟩
  obtain ⟨hlen, hwords⟩ := hsums hrx
  refine ⟨hlen, fun w => (hwords w).trans (Finset.sum_congr rfl fun k _ => ?_)⟩
  rw [System.contribution, System.contribution, hget k (hall k)]

/-- What a worker has built stays built. -/
theorem built_prefix {r r' : Run} {events : List Event} (h : r'.log = r.log ++ events) :
    built r.log <+: built r'.log := by
  rw [h, built_append]
  exact List.prefix_append _ _

/-- The response a step hands to `rx_process_one`, with its number. -/
def System.Handed (s : System n) (a : Action n) (i : Fin n) (fr : Frame) : Prop :=
  ∃ k q r typeOfService, a = .receive k typeOfService ∧ s.back[k]? = some (q, i, r) ∧
    fr = responseFrame typeOfService r

/-- **What a step does to the logs**: one worker adds to its own, and accepts at most the
response it is handed. -/
theorem Joint.logs (h : Joint G s f) {a : Action n} (hstep : s.Step tbl a s') :
    (∀ k, built (s.host k).log <+: built (s'.host k).log) ∧
      ∀ i x, x ∈ accepted (s'.host i).log → x ∈ accepted (s.host i).log ∨
        (s.Handed a i x.2 ∧ ∃ j, completed (s.host i).log ≤ j ∧
          Answers (built (s.host i).log) x j) := by
  -- a worker's step, whatever frame it is handed
  have hrun : ∀ (s₁ : System n) (i : Fin n) (l : Label), s₁.host = s.host →
      s₁.run i l = some s' → (∀ fr, l = .receive fr → s.Handed a i fr) →
      (∀ k, built (s.host k).log <+: built (s'.host k).log) ∧
        ∀ i x, x ∈ accepted (s'.host i).log → x ∈ accepted (s.host i).log ∨
          (s.Handed a i x.2 ∧ ∃ j, completed (s.host i).log ≤ j ∧
            Answers (built (s.host i).log) x j) := by
    intro s₁ i l hhost hrun hhanded
    obtain ⟨⟨w, events⟩, hw, rfl⟩ := Option.map_eq_some_iff.mp hrun
    rw [hhost] at hw
    obtain ⟨ctx, hctx, hmember⟩ := h.member i
    have hstep' : (s.host i).Step l ⟨w, (s.host i).log ++ events⟩ := ⟨events, hw, rfl⟩
    obtain ⟨events', hturn⟩ := hmember.turn hstep'
    obtain rfl : events = events' := List.append_cancel_left hturn.log
    dsimp only
    rw [hhost]
    refine ⟨fun k => ?_, fun k x hx => ?_⟩
    · rcases eq_or_ne k i with rfl | hk
      · rw [Function.update_self]
        exact built_prefix rfl
      · rw [Function.update_of_ne hk]
    · rcases eq_or_ne k i with rfl | hk
      · rw [Function.update_self, accepted_append] at hx
        rcases List.mem_append.mp hx with hx | hx
        · exact Or.inl hx
        · right
          cases hturn.accepts with
          | nothing hnone =>
            rw [hnone] at hx
            exact absurd hx List.not_mem_nil
          | response hone hj hans =>
            rw [hone] at hx
            obtain rfl := List.mem_singleton.mp hx
            exact ⟨hhanded _ rfl, _, hj, hans⟩
      · rw [Function.update_of_ne hk] at hx
        exact Or.inl hx
  have hnothing : s'.host = s.host → (∀ k, built (s.host k).log <+: built (s'.host k).log) ∧
      ∀ i x, x ∈ accepted (s'.host i).log → x ∈ accepted (s.host i).log ∨
        (s.Handed a i x.2 ∧ ∃ j, completed (s.host i).log ≤ j ∧
          Answers (built (s.host i).log) x j) := by
    intro hhost
    rw [hhost]
    exact ⟨fun k => List.prefix_rfl, fun i x hx => Or.inl hx⟩
  unfold System.Step at hstep
  cases a with
  | host i l =>
    have hl : s.run i l = some s' ∧ ∀ fr, l ≠ .receive fr := by
      cases l with
      | receive fr => cases hstep
      | _ => exact ⟨hstep, by simp⟩
    exact hrun s i l rfl hl.1 fun fr he => absurd he (hl.2 fr)
  | receive k typeOfService =>
    obtain ⟨⟨q, i, r⟩, hk, hr⟩ := Option.bind_eq_some_iff.mp hstep
    refine hrun { s with back := s.back.eraseIdx k } i (.receive (responseFrame typeOfService r))
      rfl hr fun fr he => ?_
    obtain rfl := Label.receive.inj he
    exact ⟨k, q, r, typeOfService, rfl, hk, rfl⟩
  | lose i k =>
    obtain rfl := Option.some.inj hstep
    exact hnothing rfl
  | arrive i =>
    simp only [System.step] at hstep
    split at hstep
    · cases hstep
    · obtain rfl := Option.some.inj hstep
      refine hnothing ?_
      dsimp only [System.firstPass]
      split <;> rfl
  | second k =>
    obtain ⟨⟨q, i, p⟩, hk, rfl⟩ := Option.map_eq_some_iff.mp hstep
    refine hnothing ?_
    dsimp only [System.secondPass]
    split <;> rfl
  | loseSecond k =>
    obtain rfl := Option.some.inj hstep
    exact hnothing rfl
  | loseBack k =>
    obtain rfl := Option.some.inj hstep
    exact hnothing rfl

/-- **A response that is accepted** is for the packet it is accepted for, and carries the
sums. -/
theorem Joint.carries (h : Joint G s f) (hG : Created G tbl n) {a : Action n}
    (hok : s.Promised G a) {i : Fin n} {x : PktState × Frame} (hhanded : s.Handed a i x.2) {j : ℕ}
    (hj : completed (s.host i).log ≤ j) (hans : Answers (built (s.host i).log) x j) :
    s.Carries G i x.1 x.2 := by
  obtain ⟨k, q, r, typeOfService, ha, hk, hfr⟩ := hhanded
  obtain ⟨p, fr⟩ := x
  dsimp only at hfr ⊢
  subst hfr
  have hresp : Responds G s.contribution f q i r := h.back _ (List.mem_of_getElem? hk)
  have hcurrent := hok.current k typeOfService ha q i r hk
  obtain rfl := h.answered hresp hcurrent hG.width hj hans
  obtain ⟨x, hx, hp, -⟩ := hans
  obtain ⟨payload, rfl, hsums⟩ := hresp.eq
  refine ⟨j, x, hx, hp, rfl, fun k => h.lt_built (hresp.all k), fun hrx => ?_⟩
  have hpayload := respond_payload payload hrx
  refine ⟨by rw [responseFrame, hpayload]; rfl, ?_⟩
  rw [payloadOf_responseFrame typeOfService hpayload]
  rcases hsums with hsums | hpast
  · exact hsums (hok.fits j)
  · -- the packet is still in the window of the rank
    have hlt := hpast i
    rw [h.lo] at hlt
    exact absurd hlt (Nat.not_lt.mpr hj)

/-- **The slot answers packet `q` again**, to rank `k`: it shows the version of the packet, every
rank, and the sums, if they fit; what rank `k` sends again is taken for complete, and answered
to it in the second pass, whenever that is. -/
structure System.Answering (G : Plan) (tbl : Tables) (s : System n) (k : Fin n) (q : ℕ) :
    Prop where
  slot : s.regs.regBitmap (G.addr q) = ⟨G.version q, groupMask n⟩
  sums : FitsAt s.contribution Finset.univ q →
    Sums s.contribution q (s.regs.aggregatorArray (G.addr q))
  answered : ∀ x, (built (s.host k).log)[q]? = some x →
    (∃ port, (ingress tbl s.regs (packetOf x.pkt)).2.2 = .recirculate port) ∧
      ∀ later, (ingress tbl later
        (egressRecirculate (ingress tbl s.regs (packetOf x.pkt)).2.1)).2.2 = .l2Forward

/-- A complete slot has the group's mask. -/
theorem Shows.bitmap {pay : Pay n} {regs : Regs} {q : ℕ} (hn : n ≤ 32)
    (h : Shows G pay regs Finset.univ q) :
    regs.regBitmap (G.addr q) = ⟨G.version q, groupMask n⟩ := by
  have hmask : (regs.regBitmap (G.addr q)).bitmap = groupMask n := by
    refine bits_inj.mp ?_
    have hranks := h.ranks
    rw [Regs.ranks] at hranks
    rw [hranks, groupMask, bits_mask hn]
    ext k
    simp only [Finset.mem_map, Finset.mem_univ, true_and, Fin.valEmbedding_apply, Finset.mem_range]
    constructor
    · rintro ⟨i, rfl⟩
      exact i.isLt
    · intro hk
      exact ⟨⟨k, hk⟩, rfl⟩
  have hversion := h.version
  cases hslot : regs.regBitmap (G.addr q) with
  | mk version bitmap =>
    rw [hslot] at hmask hversion
    rw [← hmask, ← hversion]

/-- A packet that finds its slot complete is answered to its sender. -/
theorem Arriving.answered {pay : Pay n} {regs : Regs} {q : ℕ} {i : Fin n} {p : Packet}
    (h : Arriving G pay q i p) (hG : Created G tbl n) (hshows : Shows G pay regs Finset.univ q) :
    (∃ port, (ingress tbl regs p).2.2 = .recirculate port) ∧
      ∀ later,
        (ingress tbl later (egressRecirculate (ingress tbl regs p).2.1)).2.2 = .l2Forward := by
  have hn := hG.registered.1
  have haddr : p.netccl.aggAddr = G.addr q := by rw [h.header]; rfl
  have hversion : p.netccl.version = G.version q := by rw [h.header]; rfl
  have hgroup : p.netccl.groupId = G.groupId := by rw [h.header]; rfl
  have hrank : p.netccl.rank.toNat = i := by rw [h.header]; exact rank_toNat hn
  have hfound : regs.ranksAt p.netccl.aggAddr p.netccl.version = Finset.range n := by
    rw [haddr, hversion, Regs.ranksAt, if_pos hshows.version, Regs.ranks, hshows.bitmap hn,
      groupMask, bits_mask hn]
  have hmem : i.val ∈ Finset.range n := Finset.mem_range.mpr i.isLt
  obtain ⟨hverdict, hinternal⟩ := ingress_first_verdict regs h.first
    (by rw [hgroup]; exact hG.registered) (by rw [hrank]; exact i.isLt)
  rw [hfound, hrank, Finset.insert_eq_of_mem hmem, if_pos rfl] at hverdict
  have hin := hinternal (by rw [hfound, hrank, Finset.insert_eq_of_mem hmem])
  rw [hfound, hrank] at hin
  obtain ⟨port, hport⟩ := hG.recirculates
  refine ⟨⟨port, by rw [hverdict, hgroup, hport]; rfl⟩, fun later => ?_⟩
  refine (ingress_second tbl later ?_ ?_).1
  · rw [egressRecirculate, hin]
    rfl
  · rw [egressRecirculate, hin]
    exact decide_eq_false (not_not.mpr hmem)

/-- **A lost response can be recovered.**  In every state of a run, if one rank has accepted
packet `q` and another has it in its window, not accepted, the slot answers it again; and when
a packet `L` further on has so much as been built, all ranks have accepted `q`. -/
theorem lost_response_recoverable (hG : Created G tbl n)
    (h : Reach (System.Init G) (System.Step tbl) (System.Orderly G) s) :
    (∀ i k q, (s.host i).Acked q → q < (built (s.host k).log).length → ¬ (s.host k).Acked q →
      s.Answering G tbl k q) ∧
    ∀ i q x, q + G.aggLen ≤ x → x < (built (s.host i).log).length → ∀ k, (s.host k).Acked q := by
  obtain ⟨f, hf⟩ := joint_reach hG h
  constructor
  · intro i k q hi hlt hk
    obtain ⟨hslot, hall⟩ := hf.inv.recoverable (two_half_le _) ((hf.acc i q).mpr hi)
      fun hacc => hk ((hf.acc k q).mp hacc)
    have hshows := hf.held.shows q hslot
    rw [came_eq_univ.mpr hall] at hshows
    refine ⟨hshows.bitmap hG.registered.1,
      fun hfits => sums_of_pairs (fun j => (hshows.words hfits j).1)
        fun j => (hshows.words hfits j).2, fun x hx => ?_⟩
    obtain ⟨ctx, hctx, hmember⟩ := hf.member k
    have harriving : Arriving G s.contribution q k (packetOf x.pkt) := by
      refine ⟨rfl, (hmember.packet hctx hx).2.2.1, ?_⟩
      rw [System.contribution, hx]
      rfl
    exact harriving.answered hG hshows
  · intro i q x hqx hx k
    rw [← hf.hi] at hx
    exact (hf.acc k q).mp (hf.inv.behind (two_half_le _) hx hqx k)

/-- Rank 1 has accepted nothing yet; the slot still has packet 0 for it. -/
theorem lost_response_recoverable_pair :
    ∃ s, pairStart.exec pairMatch.toTables (followed 0) (secondFirst 0) = some s ∧
      s.Answering (pairPlan 0) pairMatch.toTables 1 0 := by
  have hrun : (pairStart.exec pairMatch.toTables (followed 0) (secondFirst 0)).map (fun s =>
      decide ((s.host 0).Acked 0 ∧ 0 < (built (s.host 1).log).length ∧ ¬ (s.host 1).Acked 0)) =
      some true := by decide +kernel
  obtain ⟨s, hs, hview⟩ := Option.map_eq_some_iff.mp hrun
  obtain ⟨hzero, hbuilt, hone⟩ := of_decide_eq_true hview
  exact ⟨s, hs, (lost_response_recoverable (pair_created 0)
    (System.exec_reach (followed_orderly 0) _ (.init (pairFrom_init 0 _)) hs)).1 0 1 0 hzero hbuilt
      hone⟩

/-- **With no bound on the delay** a slot need not have what a rank still waits for; and with no
bound on the data it need not have the sum. -/
theorem lost_response_recoverable_fails : Created (pairPlan (2 ^ 32)) pairMatch.toTables 2 ∧
    (∃ s : System 2, Reach (System.Init (pairPlan (2 ^ 32))) (System.Step pairMatch.toTables)
        (System.Delayed (pairPlan (2 ^ 32))) s ∧
      ∃ q, (s.host 0).Acked q ∧ q < (built (s.host 1).log).length ∧ ¬ (s.host 1).Acked q ∧
        s.regs.regBitmap ((pairPlan (2 ^ 32)).addr q) ≠
          ⟨(pairPlan (2 ^ 32)).version q, groupMask 2⟩) ∧
    ∃ s : System 2, Reach (System.Init (pairPlan 0)) (System.Step pairMatch.toTables)
        (System.Orderly (pairPlan 0)) s ∧
      (s.host 0).Acked 0 ∧ 0 < (built (s.host 1).log).length ∧ ¬ (s.host 1).Acked 0 ∧
        (word (s.regs.aggregatorArray ((pairPlan 0).addr 0)) 0).toInt = 2 ^ 31 - 1 ∧
        ∑ k, (word (s.contribution k 0) 0).toInt = 2 ^ 32 - 2 := by
  refine ⟨pair_created _, ?_, ?_⟩
  · obtain ⟨s, p, fr, h⟩ := late_response
    refine ⟨s, h.run, 2 ^ 32, h.acked, h.lt, h.unacked, fun hslot => ?_⟩
    have hnone := h.slot
    rw [Regs.ranksAt, Regs.ranks, hslot, if_pos rfl] at hnone
    exact absurd hnone (by decide)
  · -- both ranks have the greatest integer at address 256
    have hrun : ((pairFrom fun a => if a = 259 then 127 else 255).exec pairMatch.toTables
        (followed 0) (secondFirst 0)).map (fun s => decide ((s.host 0).Acked 0 ∧
          0 < (built (s.host 1).log).length ∧ ¬ (s.host 1).Acked 0 ∧
          (word (s.regs.aggregatorArray ((pairPlan 0).addr 0)) 0).toInt = 2 ^ 31 - 1 ∧
          ∀ k, (word (s.contribution k 0) 0).toInt = 2 ^ 31 - 1)) = some true := by
      decide +kernel
    obtain ⟨s, hs, hview⟩ := Option.map_eq_some_iff.mp hrun
    obtain ⟨hzero, hbuilt, hone, hword, hmax⟩ := of_decide_eq_true hview
    refine ⟨s, System.exec_reach (followed_orderly 0) _ (.init (pairFrom_init 0 _)) hs,
      hzero, hbuilt, hone, hword, ?_⟩
    rw [Fin.sum_univ_two, hmax, hmax]
    rfl

end NetCCL
