/-
# A group of two

Two ranks reduce one sub-op after the other, all empty but one (`pairPlan`).  `Quiet.round` is
one round of them, and `quiet_reach` any number of rounds, in which the network may do what it
likes with one response.

`late_response` is a run in which all of `System.Promised` holds, but that this response is
2^32 packets late.  The switch answers packet 0 of rank 0 twice (`secondFirst`), and the second
answer stays on its way until the PSN has come round.  Packet 2^32 is the one with data; when
rank 0 has sent it, the answer to packet 0 arrives, and is taken for its sum.  Nothing of packet
2^32 has reached the switch by then.
-/
import NetCCL.System.Registers
import Mathlib.Algebra.Order.BigOperators.Group.Finset
import Mathlib.Data.Fintype.Card

namespace NetCCL

open Lib Switch Backend

variable {full t : ℕ} {i : Fin 2} {r : Run} {s : System 2}

/-! ## 1. The group -/

/-- Two ranks all-reduce one word, in sub-op number `full`; the others are empty. -/
def pairPlan (full : ℕ) : Plan where
  groupId := 1
  aggAddr := 0
  aggLen := 1024
  psn := 0
  opCode _ := .allReduce
  root _ := 0
  size k := if k = full then 4 else 0

/-- Sub-op `k` on a rank: the word is at address 256. -/
def pairSubOp (full : ℕ) (i : Fin 2) (k : ℕ) : SubOp :=
  ⟨⟨.allReduce, 0, (pairPlan full).size k, 256, ⟨1, 2, BitVec.ofNat 8 i, 0, 1024⟩⟩, 256,
    (pairPlan full).size k, 0, 1024⟩

/-- Both ranks have this memory. -/
def pairFrom (mem : ℕ → Backend.Byte) : System 2 where
  host _ := ⟨.init mem (fun _ => ⟨⟨0, 0, 0, 0, 0, 0⟩, 0, 0, fun _ => 0⟩) fun _ => 0, []⟩
  wire _ := []
  regs := ⟨fun _ => ⟨0, 0⟩, fun _ _ => ⟨0, 0⟩⟩
  recirc := []
  back := []

/-- Both ranks have a 5 at address 256. -/
def pairStart : System 2 := pairFrom fun a => if a = 256 then 5 else 0

theorem pair_created (full : ℕ) : Created (pairPlan full) pairMatch.toTables 2 :=
  ⟨⟨by decide, rfl⟩, ⟨64, rfl⟩, (by decide : 1024 ∣ 2 ^ 32), (by decide : 10 ≤ 1024 / 2),
    (by decide : 1024 < 2 ^ 16)⟩

theorem pairFrom_init (full : ℕ) (mem : ℕ → Backend.Byte) : (pairFrom mem).Init (pairPlan full) :=
  ⟨fun _ => ⟨fun _ => 0, rfl, ⟨_, _, rfl⟩, rfl⟩, fun _ => rfl, fun _ _ => rfl, rfl, rfl⟩

theorem pairSubOp_gives (full : ℕ) (i : Fin 2) (k : ℕ) :
    (pairPlan full).Gives i k (pairSubOp full i k) := ⟨rfl, rfl, rfl, rfl, rfl, rfl, rfl⟩

/-- A packet whose words are small. -/
def Light (p : PktState) : Prop :=
  ∀ w, 0 ≤ (word (packetOf p.pkt).payload w).toInt ∧ (word (packetOf p.pkt).payload w).toInt < 8

instance (p : PktState) : Decidable (Light p) := inferInstanceAs (Decidable (∀ _, _))

/-- All packets built are. -/
def System.Light (s : System 2) : Prop := ∀ i, ∀ p ∈ built (s.host i).log, NetCCL.Light p

instance (s : System 2) : Decidable s.Light := inferInstanceAs (Decidable (∀ _, _))

/-- Small words have small sums. -/
theorem System.Light.fits {s : System 2} (h : s.Light) : s.Fits := by
  have hsmall : ∀ i q w, 0 ≤ (word (s.contribution i q) w).toInt ∧
      (word (s.contribution i q) w).toInt < 8 := by
    intro i q w
    unfold System.contribution
    cases hp : (built (s.host i).log)[q]? with
    | none =>
      have hzero : word (fun _ => ⟨0, 0⟩) w = 0 := by
        unfold word
        dsimp only
        split <;> rfl
      rw [Option.elim_none, hzero]
      decide
    | some p => exact h i p (List.mem_of_getElem? hp) w
  intro q w t _
  have hle : ∑ i ∈ t, (word (s.contribution i q) w).toInt ≤ ∑ _i ∈ t, 8 :=
    Finset.sum_le_sum fun i _ => Int.le_of_lt (hsmall i q w).2
  have hnonneg : 0 ≤ ∑ i ∈ t, (word (s.contribution i q) w).toInt :=
    Finset.sum_nonneg fun i _ => (hsmall i q w).1
  have hcard : t.card ≤ 2 := by simpa using Finset.card_le_univ t
  rw [Finset.sum_const, nsmul_eq_mul] at hle
  dsimp only
  constructor <;> omega

/-- What is promised of the load balancers and the network, computed. -/
def followed (full : ℕ) (s : System 2) : Action 2 → Bool
  | .host i (.pushReq t) => decide (t = pairSubOp full i (s.host i).worker.heap.length)
  | .receive k _ => (s.back[k]?).elim true fun x =>
      decide ((built (s.host x.2.1).log).length ≤ x.1 + 2 ^ 32)
  | _ => true

theorem followed_orderly (full : ℕ) (s : System 2) (a : Action 2) (h : followed full s a = true) :
    s.Orderly (pairPlan full) a := by
  constructor
  · rintro i l rfl
    cases l with
    | pushReq t =>
      rw [of_decide_eq_true h]
      exact pairSubOp_gives full i _
    | _ => trivial
  · rintro k typeOfService rfl q i r hk
    rw [followed, hk, Option.elim_some] at h
    exact of_decide_eq_true h

/-- ... and of the data. -/
def admitted (full : ℕ) (s : System 2) (a : Action 2) : Bool :=
  decide s.Light && followed full s a

theorem admitted_promised (full : ℕ) (s : System 2) (a : Action 2) (h : admitted full s a = true) :
    s.Promised (pairPlan full) a := by
  simp only [admitted, Bool.and_eq_true, decide_eq_true_eq] at h
  obtain ⟨hlight, hfollowed⟩ := h
  exact ⟨followed_orderly full s a hfollowed, hlight.fits⟩

/-- Both ranks have sent two packets, and the switch has answered them.  Rank 0 gets the second
answer first, so it sends packet 0 again, and is answered again; then it gets the first. -/
def secondFirst (full : ℕ) : List (Action 2) :=
  (List.finRange 2).flatMap (fun i =>
    [.pushReq (pairSubOp full i 0), .pushReq (pairSubOp full i 1), .loopTop 0, .endRx, .startTx,
      .sendOne, .sendOne, .sendOne, .congestion, .loopTop 0].map (.host i)) ++
  (List.finRange 2).flatMap (fun i => [.arrive i, .arrive i]) ++
  [.second 0, .second 0, .receive 2 0, .arrive ⟨0, Nat.two_pos⟩, .second 0, .receive 0 0]

/-! ## 2. A rank between two sub-ops -/

/-- The word at address 256. -/
def Five (mem : ℕ → Backend.Byte) : Prop := ∀ j < 4, mem (256 + j) = if j = 0 then 5 else 0

instance (mem : ℕ → Backend.Byte) : Decidable (Five mem) := inferInstanceAs (Decidable (∀ _, _))

/-- The sub-ops are of one packet each, also the one with data. -/
theorem pairSubOp_onePacket (full : ℕ) (i : Fin 2) (k : ℕ) : OnePacket (pairSubOp full i k) := by
  refine ⟨rfl, ?_, (by decide : 2 ≤ 1024)⟩
  unfold pairSubOp pairPlan pktCount
  dsimp only
  split <;> rfl

/-- The header of its packet. -/
theorem pairSubOp_inc (full : ℕ) (i : Fin 2) (k t : ℕ) :
    incHdr (pairSubOp full i k) (BitVec.ofNat 32 t) = (pairPlan full).header i t := by
  have hpsn : (pairPlan full).psn + BitVec.ofNat 32 t = BitVec.ofNat 32 t := BitVec.zero_add _
  rw [Plan.header, hpsn]
  rfl

/-- **The words of its packet.** -/
theorem pairSubOp_word {mem : ℕ → Backend.Byte} (hmem : Five mem) {k : ℕ} {p : PktState}
    (hdata : p.data = (pairSubOp full i k).data)
    (hsize : p.size = min payloadSize (pairSubOp full i k).size) (w : Fin 64) :
    word (packetOf (fillPkt mem (pairSubOp full i k) p).pkt).payload w =
      if k = full ∧ w.val = 0 then 5 else 0 := by
  have htx : needTx (pairSubOp full i k).op = true := rfl
  have hlen : (fillPkt mem (pairSubOp full i k) p).pkt.pktLen = sizeofNetcclPkt := by
    rw [fillPkt, if_pos htx]
  have hsize : p.size = if k = full then 4 else 0 := by
    rw [hsize, pairSubOp, pairPlan]
    dsimp only
    split <;> rfl
  have hwhole : 4 ∣ p.size := by
    rw [hsize]
    split <;> decide
  rw [packetOf]
  dsimp only
  rw [if_pos hlen, word_payloadOf, netWord_fillPkt htx (fun _ => hwhole) w.isLt, sentWord,
    if_pos htx, if_pos (by rfl), blockInt, hsize, hdata]
  by_cases hk : k = full
  · rw [if_pos hk]
    by_cases hw : w.val = 0
    · -- the integer at address 256
      rw [if_pos (by omega), if_pos ⟨hk, hw⟩, hw, hostWord]
      dsimp only [pairSubOp]
      rw [hmem 0 (by decide), hmem 1 (by decide), hmem 2 (by decide), hmem 3 (by decide)]
      rfl
    · rw [if_neg (by omega), if_neg fun h => hw h.2]
  · rw [if_neg hk, if_neg (by omega), if_neg fun h => hk h.1]

theorem pairSubOp_light {mem : ℕ → Backend.Byte} (hmem : Five mem) {k : ℕ} {p : PktState}
    (hdata : p.data = (pairSubOp full i k).data)
    (hsize : p.size = min payloadSize (pairSubOp full i k).size) :
    Light (fillPkt mem (pairSubOp full i k) p) := by
  intro w
  rw [pairSubOp_word hmem hdata hsize]
  split <;> decide

/-- So many packets are built, and so many have left the window. -/
structure Stands (b c : ℕ) (r : Run) : Prop where
  heap : r.worker.heap.length = b
  subOps : (built r.log).map PktState.subOp = List.range b
  light : ∀ p ∈ built r.log, Light p
  completed : completed r.log = c
  toAck : r.worker.window.toAck = c % maxWinLen
  mem : Five r.worker.mem

/-- The packet of sub-op `q` has the number `q`. -/
theorem Stands.subOp {b c q : ℕ} (h : Stands b c r) {p : PktState}
    (hp : (built r.log)[q]? = some p) : p.subOp = q := by
  have hget : ((built r.log).map PktState.subOp)[q]? = some p.subOp := by
    rw [List.getElem?_map, hp]
    rfl
  rw [h.subOps] at hget
  obtain ⟨hlt, he⟩ := List.getElem?_eq_some_iff.mp hget
  rw [← he, List.getElem_range]

theorem Stands.length {b c : ℕ} (h : Stands b c r) : (built r.log).length = b := by
  have hlen := congrArg List.length h.subOps
  rwa [List.length_map, List.length_range] at hlen

/-- All sub-ops so far are over. -/
structure Resting (t : ℕ) (r : Run) : Prop extends Stands t t r where
  idle : r.worker.Idle t

/-- Packet `t` is out. -/
structure Sent (full : ℕ) (i : Fin 2) (t : ℕ) (r : Run) (p : PktState) : Prop
    extends Stands (t + 1) t r where
  waiting : r.worker.Waiting t p
  given : r.worker.subOp t = pairSubOp full i t
  last : (built r.log)[t]? = some p
  inc : p.pkt.inc = (pairPlan full).header i t
  word : ∀ w, word (packetOf p.pkt).payload w = if t = full ∧ w.val = 0 then 5 else 0
  empty : t ≠ full → p.size = 0

/-- ... and answered. -/
structure Received (t : ℕ) (r : Run) : Prop extends Stands (t + 1) t r where
  answered : ∃ p, r.worker.Answered t p

/-- What a rank does by itself, with small words. -/
def Tame (full : ℕ) (i : Fin 2) (r : Run) (l : Label) : Prop :=
  (∀ f, l ≠ .receive f) ∧ (pairPlan full).Follows i r l ∧ ∀ p ∈ built r.log, Light p

theorem Tame.own {l : Label} (hl : l.Own) (hlight : ∀ p ∈ built r.log, Light p) :
    Tame full i r l := by
  cases l with
  | receive f => exact absurd hl id
  | pushReq s => exact absurd hl id
  | _ => exact ⟨by simp, trivial, hlight⟩

/-- **A rank sends** the packet of its next sub-op. -/
theorem Resting.send (h : Resting t r) (full : ℕ) (i : Fin 2) :
    ∃ r' p, Sent full i t r' p ∧ Reach (· = r) Run.Step (Tame full i) r' ∧
      (transmitted r'.log).map (·.2) = (transmitted r.log).map (·.2) ++ [p.pkt] := by
  obtain ⟨r', p, p₀, hwait, hlog, hheap, hmem, htoAck, ⟨hfill, hdata, hsize⟩, hptr, hinc, hgoes⟩ :=
    h.idle.goes_send (pairSubOp_onePacket full i t)
  have hlight : Light p := hfill ▸ pairSubOp_light h.mem hdata hsize
  have hbuilt : built r'.log = built r.log ++ [p] := by
    rw [hlog, built_append]
    rfl
  have hall : ∀ x ∈ built r.log ++ [p], Light x := by
    intro x hx
    rcases List.mem_append.mp hx with hx | hx
    · exact h.light x hx
    · rwa [List.mem_singleton.mp hx]
  refine ⟨r', p, ⟨⟨?_, ?_, ?_, ?_, ?_, ?_⟩, hwait, ?_, ?_, ?_, fun w => ?_, fun hne => ?_⟩, ?_, ?_⟩
  · rw [hheap, List.length_append, h.heap]
    rfl
  · rw [hbuilt, List.map_append, h.subOps, List.range_succ, List.map_singleton, hptr, h.heap]
  · rw [hbuilt]
    exact hall
  · rw [hlog, completed_append, h.completed]
    rfl
  · rw [htoAck, h.toAck]
  · rw [hmem]
    exact h.mem
  · rw [Worker.subOp, hheap, ← h.heap, List.getD_eq_getElem?_getD, List.getElem?_concat_length]
    rfl
  · rw [hbuilt, ← h.length, List.getElem?_concat_length]
  · rw [hinc, pairSubOp_inc]
  · rw [hfill, pairSubOp_word h.mem hdata hsize]
  · have hcut : p.size = p₀.size := by
      rw [hfill, fillPkt]
      split <;> rfl
    rw [hcut, hsize, pairSubOp, pairPlan]
    dsimp only
    rw [if_neg hne]
    rfl
  · refine hgoes _ ⟨by simp, ?_, h.light⟩ fun r₁ l hl hb => .own hl fun x hx => ?_
    · rw [Plan.Follows, h.heap]
      exact pairSubOp_gives full i t
    · rcases hb x hx with hx | rfl
      · exact h.light x hx
      · exact hlight
  · rw [hlog]
    simp [sentAlone, transmitted]

/-- The events of a response that is accepted, and asks for nothing to be sent again. -/
theorem acceptedAlone (pos : ℕ) {ptr : ℕ} {p : PktState} {f : Frame} {events : List Event}
    (h : events = [.deref ptr] ∨ ∃ len, events = [.deref ptr, .wrote ptr p.data len]) :
    built (.accepted pos p f :: events) = [] ∧ completed (.accepted pos p f :: events) = 0 ∧
      transmitted (.accepted pos p f :: events) = [] ∧
      accepted (.accepted pos p f :: events) = [(p, f)] := by
  rcases h with rfl | ⟨len, rfl⟩ <;> exact ⟨rfl, rfl, rfl, rfl⟩

/-- **A rank takes a response** with the PSN of its packet, and sends nothing. -/
theorem Sent.receive {p : PktState} (h : Sent full i t r p) {f : Frame}
    (hgroup : f.inc.groupId = 1) (hpsn : f.inc.psn = BitVec.ofNat 32 t) :
    ∃ w events, r.worker.step (.receive f) = some (w, events) ∧ transmitted events = [] ∧
      built events = [] ∧ completed events = 0 ∧
      accepted events = [({ p with acked := true }, f)] ∧
      w.heap = r.worker.heap ∧ w.window.hasAcked (t % maxWinLen) = true ∧
      (t ≠ full → Received t ⟨w, r.log ++ events⟩) := by
  have hheader : p.pkt.inc.psn = BitVec.ofNat 32 t := by
    rw [h.inc]
    exact BitVec.zero_add _
  obtain ⟨w, events, hw, hev, hanswered, hheap, htoAck, hmem⟩ :=
    h.waiting.receive hgroup (hpsn.trans hheader.symm)
  obtain ⟨hbuilt, hcompleted, hsent, haccepted⟩ := acceptedAlone r.worker.window.toAck
    (p := { p with acked := true }) (f := f) hev
  refine ⟨w, _, hw, hsent, hbuilt, hcompleted, haccepted, hheap, ?_,
    fun hne => ⟨⟨?_, ?_, ?_, ?_, ?_, ?_⟩, _, hanswered⟩⟩
  · rw [Window.hasAcked, ← h.toAck, ← htoAck, hanswered.window.state]
  · rw [hheap]
    exact h.heap
  · rw [built_append, hbuilt, List.append_nil]
    exact h.subOps
  · rw [built_append, hbuilt, List.append_nil]
    exact h.light
  · rw [completed_append, hcompleted]
    exact h.completed
  · rw [htoAck]
    exact h.toAck
  · rw [hmem (h.empty hne)]
    exact h.mem

/-- **A rank goes on** to the next sub-op. -/
theorem Received.goes_on (h : Received t r) (full : ℕ) (i : Fin 2) :
    ∃ r', Resting (t + 1) r' ∧ Reach (· = r) Run.Step (Tame full i) r' ∧
      transmitted r'.log = transmitted r.log := by
  obtain ⟨p, hp⟩ := h.answered
  obtain ⟨r', hidle, hlog, hheap, hmem, htoAck, hgoes⟩ := hp.goes_on
  have hbuilt : built r'.log = built r.log := by
    rw [hlog, built_append]
    exact List.append_nil _
  refine ⟨r', ⟨⟨?_, ?_, ?_, ?_, ?_, ?_⟩, hidle⟩, ?_, ?_⟩
  · rw [hheap, h.heap]
  · rw [hbuilt, h.subOps]
  · rw [hbuilt]
    exact h.light
  · rw [hlog, completed_append, h.completed]
    rfl
  · rw [htoAck, h.toAck, nextPosition, Nat.mod_add_mod]
  · rw [hmem]
    exact h.mem
  · exact hgoes _ fun r₁ l hl hb => .own hl (hb ▸ h.light)
  · rw [hlog, transmitted_append]
    exact List.append_nil _

/-! ## 3. The two ranks -/

/-- A run of the two. -/
abbrev PairRun (full : ℕ) : System 2 → Prop :=
  Reach (System.Init (pairPlan full)) (System.Step pairMatch.toTables)
    (System.Delayed (pairPlan full))

/-- What a rank does by itself is a run of the two. -/
theorem PairRun.host (hs : PairRun full s) (hlight : s.Light) {r' : Run}
    (h : Reach (· = s.host i) Run.Step (Tame full i) r') :
    ∃ s', PairRun full s' ∧ System.Aside i s s' ∧ s'.host i = r' ∧ s'.back = s.back ∧
      ∃ out, s'.wire i = s.wire i ++ out ∧
        (transmitted r'.log).map (·.2) =
          (transmitted (s.host i).log).map (·.2) ++ out.map (·.2) := by
  refine System.host_reach hs h fun s₁ l haside hok => ⟨hok.1, System.Light.fits fun k => ?_, ?_⟩
  · rcases eq_or_ne k i with rfl | hk
    · exact hok.2.2
    · rw [haside.host k hk]
      exact hlight k
  · rintro k l' he
    obtain ⟨rfl, rfl⟩ := Action.host.inj he
    exact hok.2.1

/-- A rank sends. -/
theorem PairRun.send (hs : PairRun full s) (hlight : s.Light) (h : Resting t (s.host i))
    (hw : s.wire i = []) :
    ∃ s' p q, PairRun full s' ∧ System.Aside i s s' ∧ s'.back = s.back ∧
      Sent full i t (s'.host i) p ∧ s'.wire i = [(q, p.pkt)] := by
  obtain ⟨r', p, hsent, hreach, hout⟩ := h.send full i
  obtain ⟨s', hs', haside, hhost, hback, out, hwire, hmap⟩ := hs.host hlight hreach
  have hone : out.map (·.2) = [p.pkt] := List.append_cancel_left (hmap.symm.trans hout)
  obtain ⟨⟨q, f⟩, rfl, hf⟩ := List.map_eq_singleton_iff.mp hone
  dsimp only at hf
  subst hf
  exact ⟨s', p, q, hs', haside, hback, by rw [hhost]; exact hsent, by rw [hwire, hw]; rfl⟩

/-- A rank goes on. -/
theorem PairRun.goes_on (hs : PairRun full s) (hlight : s.Light) (h : Received t (s.host i))
    (hw : s.wire i = []) :
    ∃ s', PairRun full s' ∧ System.Aside i s s' ∧ s'.back = s.back ∧ Resting (t + 1) (s'.host i) ∧
      s'.wire i = [] := by
  obtain ⟨r', hrest, hreach, hout⟩ := h.goes_on full i
  obtain ⟨s', hs', haside, hhost, hback, out, hwire, hmap⟩ := hs.host hlight hreach
  rw [hout] at hmap
  have hnone : out.map (·.2) = [] := List.self_eq_append_right.mp hmap
  rw [List.map_eq_nil_iff.mp hnone, List.append_nil] at hwire
  exact ⟨s', hs', haside, hback, by rw [hhost]; exact hrest, hwire.trans hw⟩

/-- A response reaches its rank, which sends nothing. -/
theorem PairRun.receive (hs : PairRun full s) (hlight : s.Light) {k q : ℕ} {r : Response}
    (hk : s.back[k]? = some (q, i, r)) {w : Worker} {events : List Event}
    (hw : (s.host i).worker.step (.receive (responseFrame 0 r)) = some (w, events))
    (hsent : transmitted events = []) :
    ∃ s', PairRun full s' ∧ System.Aside i s s' ∧ s'.back = s.back.eraseIdx k ∧
      s'.host i = ⟨w, (s.host i).log ++ events⟩ ∧ s'.wire i = s.wire i := by
  obtain ⟨s', hrun, haside, hhost, hback, out, hwire, hout⟩ :=
    System.run_aside (s := { s with back := s.back.eraseIdx k }) hw
  rw [hsent] at hout
  rw [List.map_eq_nil_iff.mp hout, List.append_nil] at hwire
  have hstep : s.Step pairMatch.toTables (.receive k 0) s' := by
    rw [System.Step, System.step, hk]
    exact hrun
  have hdelayed : s.Delayed (pairPlan full) (.receive k 0) :=
    ⟨hlight.fits, fun _ _ he => by cases he⟩
  exact ⟨s', .step hs hdelayed hstep,
    ⟨haside.host, haside.wire, haside.regs, haside.recirc⟩, hback, hhost, hwire⟩

/-! ## 4. The switch -/

/-- **A first pass of packet `t`** of a rank. -/
theorem pair_firstPass (regs : Regs) {f : Frame} (hinc : f.inc = (pairPlan full).header i t) :
    let found := regs.ranksAt ((pairPlan full).addr t) ((pairPlan full).version t)
    let out := ingress pairMatch.toTables regs (packetOf f)
    (out.2.2 = if insert i.val found = Finset.range 2 then .recirculate 64 else .drop) ∧
      (insert i.val found = Finset.range 2 →
        out.2.1.internal = ⟨1, decide (i.val ∉ found)⟩) ∧
      out.1.ranksAt ((pairPlan full).addr t) ((pairPlan full).version t) = insert i.val found ∧
      (out.1.regBitmap ((pairPlan full).addr t)).version = (pairPlan full).version t ∧
      ∀ a ≠ (pairPlan full).addr t, out.1.regBitmap a = regs.regBitmap a := by
  have hp : (packetOf f).netccl = (pairPlan full).header i t := hinc
  have haddr : (packetOf f).netccl.aggAddr = (pairPlan full).addr t := by rw [hp]; rfl
  have hver : (packetOf f).netccl.version = (pairPlan full).version t := by rw [hp]; rfl
  have hgroup : (packetOf f).netccl.groupId = 1 := by rw [hp]; rfl
  have hrank : (packetOf f).netccl.rank.toNat = i := by
    rw [hp]
    exact rank_toNat (by decide)
  have hlt := i.isLt
  have hreg : Registered pairMatch.toTables (packetOf f).netccl.groupId 2 := by
    rw [hgroup]
    exact (pair_created full).registered
  intro found out
  obtain ⟨hverdict, hinternal⟩ := ingress_first_verdict regs (p := packetOf f) rfl hreg
    (by rw [hrank]; exact hlt)
  obtain ⟨hversion, hranks⟩ := ingress_first_slot pairMatch.toTables regs (p := packetOf f) rfl
    (by rw [hrank]; omega)
  rw [haddr, hver, hrank] at hverdict hinternal
  rw [haddr, hver, hrank] at hranks
  rw [haddr, hver] at hversion
  refine ⟨hverdict, hinternal, ?_, hversion, fun a ha => ?_⟩
  · rw [Regs.ranksAt, if_pos hversion, hranks]
  · exact (ingress_frame pairMatch.toTables regs (haddr ▸ ha)).1

/-- **The switch answers packet `t`** once it has come from both ranks. -/
theorem PairRun.answered (hs : PairRun full s) (hlight : s.Light) {q₀ q₁ : ℕ} {f₀ f₁ : Frame}
    (hw₀ : s.wire 0 = [(q₀, f₀)]) (hw₁ : s.wire 1 = [(q₁, f₁)])
    (hinc₀ : f₀.inc = (pairPlan full).header 0 t) (hinc₁ : f₁.inc = (pairPlan full).header 1 t)
    (hregs : Unseen (pairPlan full) s.regs t) (hrecirc : s.recirc = []) :
    ∃ s', ∃ r : Fin 2 → Response, PairRun full s' ∧ s'.host = s.host ∧ (∀ i, s'.wire i = []) ∧
      Unseen (pairPlan full) s'.regs (t + 1) ∧ s'.recirc = [] ∧
      s'.back = s.back ++ [(q₁, 0, r 0), (q₁, 1, r 1)] ∧
      ∀ i, (r i).netccl.groupId = 1 ∧ (r i).netccl.psn = BitVec.ofNat 32 t := by
  have hsilent : ∀ {s₁ : System 2} {a : Action 2}, s₁.host = s.host → (∀ i l, a ≠ .host i l) →
      s₁.Delayed (pairPlan full) a := fun hhost hno =>
    ⟨System.Light.fits fun i => by rw [hhost]; exact hlight i, fun i l he => absurd he (hno i l)⟩
  -- the packet of rank 0 is the first
  obtain ⟨hverdict, -, hranks, -, hframe₁⟩ := pair_firstPass (i := 0) s.regs hinc₀
  have hnone := hregs t (Nat.le_refl t) (Nat.lt_add_of_pos_right (by decide : 0 < 1024))
  rw [hnone, if_neg (by decide)] at hverdict
  rw [hnone] at hranks
  obtain ⟨s₁, hstep₁, hhost₁, hwire₁, hregs₁, hrecirc₁, hback₁⟩ := System.arrive_drop hw₀ hverdict
  rw [← hregs₁] at hranks hframe₁
  -- the packet of rank 1 completes the slot
  have hw₁' : s₁.wire 1 = [(q₁, f₁)] := by simpa [hwire₁] using hw₁
  obtain ⟨hverdict, hinternal, -, hversion, hframe₂⟩ := pair_firstPass (i := 1) s₁.regs hinc₁
  rw [hranks, if_pos (by decide)] at hverdict
  rw [hranks] at hinternal
  have hin := hinternal (by decide)
  obtain ⟨s₂, hstep₂, hhost₂, hwire₂, hregs₂, hrecirc₂, hback₂⟩ :=
    System.arrive_recirculate hw₁' hverdict
  rw [← hregs₂] at hversion hframe₂
  rw [hrecirc₁, hrecirc, List.nil_append] at hrecirc₂
  obtain ⟨s₃, r, hstep₃, hhost₃, hwire₃, hregs₃, hrecirc₃, hback₃, hr⟩ :=
    System.second_multicast hrecirc₂ (by rw [egressRecirculate, hin]; rfl)
      (by rw [egressRecirculate, hin]; rfl)
  have hheader : (egressRecirculate
      (ingress pairMatch.toTables s₁.regs (packetOf f₁)).2.1).netccl =
    (pairPlan full).header 1 t := hinc₁
  have hpsn : ((pairPlan full).header 1 t).psn = BitVec.ofNat 32 t := BitVec.zero_add _
  rw [hheader, hpsn] at hr
  have hsame₂ : s₂.host = s.host := hhost₂.trans hhost₁
  refine ⟨s₃, r, .step (.step (.step hs (hsilent rfl (by simp)) hstep₁)
    (hsilent hhost₁ (by simp)) hstep₂) (hsilent hsame₂ (by simp)) hstep₃, hhost₃.trans hsame₂,
    Fin.forall_fin_two.mpr ⟨?_, ?_⟩, ?_, hrecirc₃, by rw [hback₃, hback₂, hback₁]; rfl, hr⟩
  · rw [hwire₃, hwire₂, hwire₁]
    simp
  · rw [hwire₃, hwire₂]
    simp
  · rw [hregs₃]
    refine hregs.next (pair_created full).dvd (pair_created full).width (fun a ha => ?_) hversion
    rw [hframe₂ a ha, hframe₁ a ha]

/-! ## 5. Rounds -/

/-- A response to packet 0, whose first word is zero. -/
def Stale (r : Response) : Prop :=
  r.netccl.groupId = 1 ∧ r.netccl.psn = 0 ∧ ∃ payload, r.payload = some payload ∧ word payload 0 = 0

/-- Both ranks are between two sub-ops, and all that is on its way is a response to packet 0. -/
structure Quiet (full t : ℕ) (s : System 2) : Prop where
  rests : ∀ i, Resting t (s.host i)
  wire : ∀ i, s.wire i = []
  regs : Unseen (pairPlan full) s.regs t
  recirc : s.recirc = []
  back : ∃ q r, s.back = [(q, 0, r)] ∧ Stale r

/-- Both ranks send packet `t`. -/
theorem Quiet.send (hs : PairRun full s) (h : Quiet full t s) :
    ∃ s' p₀ p₁ q₀ q₁, PairRun full s' ∧ Sent full 0 t (s'.host 0) p₀ ∧
      Sent full 1 t (s'.host 1) p₁ ∧ s'.wire 0 = [(q₀, p₀.pkt)] ∧ s'.wire 1 = [(q₁, p₁.pkt)] ∧
      Unseen (pairPlan full) s'.regs t ∧ s'.recirc = [] ∧ s'.back = s.back := by
  have hlight : s.Light := by
    intro i
    exact (h.rests i).light
  obtain ⟨s₁, p₀, q₀, hs₁, haside₁, hback₁, hsent₀, hwire₀⟩ := hs.send hlight (h.rests 0) (h.wire 0)
  have hrest₁ : Resting t (s₁.host 1) := haside₁.host 1 (by decide) ▸ h.rests 1
  have hlight₁ : s₁.Light := Fin.forall_fin_two.mpr ⟨hsent₀.light, hrest₁.light⟩
  obtain ⟨s₂, p₁, q₁, hs₂, haside₂, hback₂, hsent₁, hwire₁⟩ :=
    PairRun.send hs₁ hlight₁ hrest₁ ((haside₁.wire 1 (by decide)).trans (h.wire 1))
  refine ⟨s₂, p₀, p₁, q₀, q₁, hs₂, ?_, hsent₁, ?_, hwire₁, ?_, ?_, hback₂.trans hback₁⟩
  · rw [haside₂.host 0 (by decide)]
    exact hsent₀
  · rw [haside₂.wire 0 (by decide), hwire₀]
  · rw [haside₂.regs, haside₁.regs]
    exact h.regs
  · rw [haside₂.recirc, haside₁.recirc, h.recirc]

/-- **A round**: both ranks send packet `t`, the switch answers it, and both go on.  The response
to packet 0 stays where it is. -/
theorem Quiet.round (hs : PairRun full s) (h : Quiet full t s) (hne : t ≠ full) :
    ∃ s', PairRun full s' ∧ Quiet full (t + 1) s' := by
  obtain ⟨q, stale, hstale, hzero⟩ := h.back
  obtain ⟨s₁, p₀, p₁, q₀, q₁, hs₁, hsent₀, hsent₁, hwire₀, hwire₁, hregs₁, hrecirc₁, hback₁⟩ :=
    h.send hs
  have hlight₁ : s₁.Light := Fin.forall_fin_two.mpr ⟨hsent₀.light, hsent₁.light⟩
  obtain ⟨s₂, r, hs₂, hhost₂, hwire₂, hregs₂, hrecirc₂, hback₂, hr⟩ :=
    PairRun.answered hs₁ hlight₁ hwire₀ hwire₁ hsent₀.inc hsent₁.inc hregs₁ hrecirc₁
  rw [hback₁, hstale] at hback₂
  have hlight₂ : s₂.Light := by
    intro i
    rw [hhost₂]; exact hlight₁ i
  rw [← hhost₂] at hsent₀ hsent₁
  -- rank 0 gets its response, then rank 1
  obtain ⟨w₀, events₀, hw₀, hout₀, -, -, -, -, -, hreceived₀⟩ :=
    hsent₀.receive (f := responseFrame 0 (r 0)) (hr 0).1 (hr 0).2
  obtain ⟨s₃, hs₃, haside₃, hback₃, hhost₃, hwire₃⟩ :=
    PairRun.receive hs₂ hlight₂ (k := 1) (q := q₁) (by rw [hback₂]; rfl) hw₀ hout₀
  have hgot₀ : Received t (s₃.host 0) := hhost₃ ▸ hreceived₀ hne
  rw [← haside₃.host 1 (by decide)] at hsent₁
  have hlight₃ : s₃.Light := Fin.forall_fin_two.mpr ⟨hgot₀.light, hsent₁.light⟩
  rw [hback₂] at hback₃
  obtain ⟨w₁, events₁, hw₁, hout₁, -, -, -, -, -, hreceived₁⟩ :=
    hsent₁.receive (f := responseFrame 0 (r 1)) (hr 1).1 (hr 1).2
  obtain ⟨s₄, hs₄, haside₄, hback₄, hhost₄, hwire₄⟩ :=
    PairRun.receive hs₃ hlight₃ (k := 1) (q := q₁) (by rw [hback₃]; rfl) hw₁ hout₁
  have hgot₁ : Received t (s₄.host 1) := hhost₄ ▸ hreceived₁ hne
  rw [← haside₄.host 0 (by decide)] at hgot₀
  have hlight₄ : s₄.Light := Fin.forall_fin_two.mpr ⟨hgot₀.light, hgot₁.light⟩
  rw [hback₃] at hback₄
  have hempty₀ : s₄.wire 0 = [] := (haside₄.wire 0 (by decide)).trans (hwire₃.trans (hwire₂ 0))
  have hempty₁ : s₄.wire 1 = [] := hwire₄.trans ((haside₃.wire 1 (by decide)).trans (hwire₂ 1))
  -- both go on
  obtain ⟨s₅, hs₅, haside₅, hback₅, hrest₀, hwire₅⟩ := PairRun.goes_on hs₄ hlight₄ hgot₀ hempty₀
  rw [← haside₅.host 1 (by decide)] at hgot₁
  have hlight₅ : s₅.Light := Fin.forall_fin_two.mpr ⟨hrest₀.light, hgot₁.light⟩
  obtain ⟨s₆, hs₆, haside₆, hback₆, hrest₁, hwire₆⟩ := PairRun.goes_on hs₅ hlight₅ hgot₁
    ((haside₅.wire 1 (by decide)).trans hempty₁)
  refine ⟨s₆, hs₆, Fin.forall_fin_two.mpr ⟨?_, hrest₁⟩, Fin.forall_fin_two.mpr ⟨?_, hwire₆⟩, ?_, ?_,
    q, stale, ?_, hzero⟩
  · rw [haside₆.host 0 (by decide)]
    exact hrest₀
  · rw [haside₆.wire 0 (by decide), hwire₅]
  · rw [haside₆.regs, haside₅.regs, haside₄.regs, haside₃.regs]
    exact hregs₂
  · rw [haside₆.recirc, haside₅.recirc, haside₄.recirc, haside₃.recirc, hrecirc₂]
  · rw [hback₆, hback₅, hback₄]
    rfl

/-- Packets 0 and 1 are answered everywhere, packet 0 of rank 0 twice. -/
def answeredTwice (full : ℕ) : List (Action 2) :=
  secondFirst full ++ [.receive 0 0, .receive 0 0] ++
    (List.finRange 2).flatMap fun i => [.endRx, .popResp, .popResp].map (.host i)

/-- What is to be checked of a rank. -/
theorem resting_iff : Resting t r ↔
    (r.worker.heap.length = t ∧ (built r.log).map PktState.subOp = List.range t ∧
      (∀ p ∈ built r.log, Light p) ∧ completed r.log = t ∧
      r.worker.window.toAck = t % maxWinLen ∧ Five r.worker.mem) ∧
    (r.worker.globalTs = 0 ∧ r.worker.window.lastAckTimeStamp = 0 ∧ r.worker.window.cc = .init ∧
      0 < r.worker.currentSwitchWindowLimit) ∧
    r.worker.pc = .tx ∧ r.worker.qp = .empty ∧ (∀ s ∈ r.worker.heap, s.op.group.groupId = 1) ∧
    r.worker.window.toAck < maxWinLen ∧ r.worker.window.toSend = r.worker.window.toAck ∧
    r.worker.gen.subOp = none ∧ r.worker.groupCtx 1 = BitVec.ofNat 32 t := by
  constructor
  · intro h
    exact ⟨⟨h.heap, h.subOps, h.light, h.completed, h.toAck, h.mem⟩,
      ⟨h.idle.globalTs, h.idle.lastAck, h.idle.cc, h.idle.limit⟩, h.idle.pc, h.idle.qp, h.idle.heap,
      h.idle.toAck, h.idle.toSend, h.idle.gen, h.idle.groupCtx⟩
  · rintro ⟨⟨hheap, hsubOps, hlight, hcompleted, htoAck, hmem⟩, ⟨hts, hack, hcc, hlimit⟩, hpc, hqp,
      hgroup, hlt, hempty, hgen, hctx⟩
    exact ⟨⟨hheap, hsubOps, hlight, hcompleted, htoAck, hmem⟩, ⟨⟨hts, hack, hcc, hlimit⟩, hpc, hqp,
      hgroup, hlt, hempty, hgen, hctx⟩⟩

instance (t : ℕ) (r : Run) : Decidable (Resting t r) := decidable_of_iff' _ resting_iff

/-- **The second answer stays on its way.** -/
theorem pair_quiet : ∃ s, PairRun (2 ^ 32) s ∧ Quiet (2 ^ 32) 2 s := by
  have hrun : (pairStart.exec pairMatch.toTables (admitted (2 ^ 32)) (answeredTwice (2 ^ 32))).map
      (fun s => decide ((∀ i, Resting 2 (s.host i) ∧ (s.wire i).length = 0) ∧
        (∀ q < 1024, s.regs.ranksAt ((pairPlan (2 ^ 32)).addr (2 + q))
          ((pairPlan (2 ^ 32)).version (2 + q)) = ∅) ∧ s.recirc.length = 0 ∧
        s.back.map (fun x => (x.2.1, x.2.2.netccl.groupId, x.2.2.netccl.psn,
          x.2.2.payload.map fun payload => word payload 0)) = [(0, 1, 0, some 0)])) =
      some true := by
    decide +kernel
  obtain ⟨s, hs, hview⟩ := Option.map_eq_some_iff.mp hrun
  obtain ⟨hhosts, hregs, hrecirc, hback⟩ := of_decide_eq_true hview
  obtain ⟨⟨q, i, r⟩, hone, hr⟩ := List.map_eq_singleton_iff.mp hback
  simp only [Prod.mk.injEq] at hr
  obtain ⟨rfl, hgroup, hpsn, hpayload⟩ := hr
  obtain ⟨payload, hpayload, hzero⟩ := Option.map_eq_some_iff.mp hpayload
  have hreach := System.exec_reach (admitted_promised (2 ^ 32)) _
    (.init (pairFrom_init (2 ^ 32) _)) hs
  refine ⟨s, hreach.mono fun _ _ h => ⟨h.fits, h.plan⟩, fun i => (hhosts i).1,
    fun i => List.length_eq_zero_iff.mp (hhosts i).2, fun q hle hlt => ?_,
    List.length_eq_zero_iff.mp hrecirc, q, r, hone, hgroup, hpsn, payload, hpayload, hzero⟩
  have hlt : q - 2 < 1024 := Nat.sub_lt_left_of_lt_add hle hlt
  rw [← Nat.add_sub_cancel' hle]
  exact hregs _ hlt

/-- **The PSN comes round.** -/
theorem quiet_reach {t : ℕ} (hlo : 2 ≤ t) (hhi : t ≤ 2 ^ 32) :
    ∃ s, PairRun (2 ^ 32) s ∧ Quiet (2 ^ 32) t s := by
  induction t, hlo using Nat.le_induction with
  | base => exact pair_quiet
  | succ t _ ih =>
    obtain ⟨s, hs, h⟩ := ih (Nat.le_of_succ_le hhi)
    exact h.round hs (Nat.ne_of_lt hhi)

/-! ## 6. The response arrives -/

/-- Rank 0 has taken the response to packet 0 for the one to packet 2^32, which both ranks have
sent, and of which nothing has reached the switch. -/
structure Taken (s : System 2) (p : PktState) (fr : Frame) : Prop where
  run : PairRun (2 ^ 32) s
  accepted : (p, fr) ∈ accepted (s.host 0).log
  needRx : needRx ((s.host 0).worker.subOp p.subOp).op = true
  packet : ∃ x, (built (s.host 0).log)[2 ^ 32]? = some x ∧ p = { x with acked := true }
  number : ∀ q x, (built (s.host 0).log)[q]? = some x → p.subOp = x.subOp → q = 2 ^ 32
  word : word (payloadOf fr.payload) 0 = 0
  five : ∀ k, NetCCL.word (s.contribution k (2 ^ 32)) 0 = 5
  acked : (s.host 0).Acked (2 ^ 32)
  lt : 2 ^ 32 < (built (s.host 1).log).length
  unacked : ¬ (s.host 1).Acked (2 ^ 32)
  slot : s.regs.ranksAt ((pairPlan (2 ^ 32)).addr (2 ^ 32))
    ((pairPlan (2 ^ 32)).version (2 ^ 32)) = ∅

/-- **The response is taken.** -/
theorem late_response : ∃ s p fr, Taken s p fr := by
  obtain ⟨s, hs, h⟩ := quiet_reach (by decide : 2 ≤ 2 ^ 32) (Nat.le_refl _)
  obtain ⟨q, r, hback, hgroup, hpsn, payload, hpayload, hzero⟩ := h.back
  obtain ⟨s₁, p₀, p₁, q₀, q₁, hs₁, hsent₀, hsent₁, -, -, hregs, -, hback₁⟩ := h.send hs
  have hlight : s₁.Light := Fin.forall_fin_two.mpr ⟨hsent₀.light, hsent₁.light⟩
  obtain ⟨w, events, hw, hout, hbuilt, hcompleted, haccepted, hheap, hacked, -⟩ :=
    hsent₀.receive (f := responseFrame 0 r) hgroup hpsn
  obtain ⟨s₂, hs₂, haside, -, hhost, -⟩ :=
    PairRun.receive hs₁ hlight (k := 0) (q := q) (by rw [hback₁, hback]; rfl) hw hout
  have hsame : s₂.host 1 = s₁.host 1 := haside.host 1 (by decide)
  have hbuilt₀ : built (s₂.host 0).log = built (s₁.host 0).log := by
    rw [hhost, built_append, hbuilt, List.append_nil]
  have hsub : p₀.subOp = 2 ^ 32 := hsent₀.toStands.subOp hsent₀.last
  refine ⟨s₂, { p₀ with acked := true }, responseFrame 0 r, hs₂, ?_, ?_,
    ⟨p₀, by rw [hbuilt₀]; exact hsent₀.last, rfl⟩, fun q x hx he => ?_, ?_,
    Fin.forall_fin_two.mpr ⟨?_, ?_⟩, Or.inr ⟨?_, ?_⟩, ?_, ?_, ?_⟩
  · rw [hhost, accepted_append, haccepted]
    exact List.mem_append_right _ List.mem_cons_self
  · rw [hhost]
    dsimp only
    rw [hsub, Worker.subOp_congr hheap, hsent₀.given]
    rfl
  · rw [hbuilt₀] at hx
    exact (hsent₀.toStands.subOp hx).symm.trans (he.symm.trans hsub)
  · rw [payloadOf_responseFrame 0 hpayload, hzero]
  · rw [System.contribution, hbuilt₀, hsent₀.last, Option.elim_some, hsent₀.word,
      if_pos ⟨rfl, rfl⟩]
  · rw [System.contribution, hsame, hsent₁.last, Option.elim_some, hsent₁.word,
      if_pos ⟨rfl, rfl⟩]
  · rw [hbuilt₀, hsent₀.toStands.length]
    exact Nat.lt_succ_self _
  · rw [hhost]
    exact hacked
  · rw [hsame, hsent₁.toStands.length]
    exact Nat.lt_succ_self _
  · rw [hsame]
    rintro (hlt | ⟨-, hack⟩)
    · rw [hsent₁.completed] at hlt
      exact absurd hlt (Nat.lt_irrefl _)
    · rw [Window.hasAcked, ← hsent₁.toAck, hsent₁.waiting.window.state,
        hsent₁.waiting.acked] at hack
      cases hack
  · rw [haside.regs]
    exact hregs _ (Nat.le_refl _) (Nat.lt_add_of_pos_right (by decide : 0 < 1024))

end NetCCL
