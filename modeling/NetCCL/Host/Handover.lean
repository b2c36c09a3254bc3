/-
# From hand to hand

Each thread moves one counter at a time: a worker takes a part or answers it, the daemon and
the load balancer pass an op on or back, the Python thread posts an op or takes one out.  One
lemma for each thread says that this keeps the invariant, and in particular that the push it
makes finds room and that no assertion of the thread fails.

There is one exception: `recv_all_resp` frees the copy buffer's oldest block, and when that
block ends at the last byte of the buffer, `fifo_free` takes it for one that had wrapped
(`ExactFit`).
-/
import NetCCL.Lib.Reach
import NetCCL.Host.Numbered

namespace NetCCL.Host

open Lib Frontend Backend

variable {nworker w u r b m : ℕ} {s s' : Pipeline}

/-! ## 1. The workers -/

/-- The load balancer only relies on responses being there. -/
theorem BalancerPc.Holds.mono {pc : BalancerPc} {ops : List Op} {qp qp' : ℕ → QueuePair Part}
    (hcq : ∀ i, (qp i).cq ≠ [] → (qp' i).cq ≠ []) (h : pc.Holds ops nworker qp r b) :
    pc.Holds ops nworker qp' r b := by
  cases pc with
  | checking k => exact fun i hi hin => hcq i (h i hi hin)
  | popping k parts => exact ⟨h.1, h.2.1, fun i hi hin => hcq i (h.2.2 i hi hin)⟩
  | responding op => exact h
  | post => exact h
  | dealing slot k offset => exact h

/-- **A worker takes a part.** -/
theorem Inv.take (h : Inv nworker s w u r b m) {i : ℕ} (hi : i < nworker)
    (hs : s.take i = some s') : Inv nworker s' w u r b m := by
  obtain ⟨part, hfront, rfl⟩ := Option.map_eq_some_iff.mp hs
  obtain ⟨c, t, hat, hbusy, hanswered⟩ := h.lanes i hi
  obtain ⟨htd, rfl⟩ := hat.frontReq hfront
  refine { h with lanes := fun j hj => ?_, balancer := h.balancer.mono fun j hj => ?_ }
  · dsimp only
    by_cases hji : j = i
    · subst hji
      rw [Function.update_self, Function.update_self]
      exact ⟨c, t + 1, hat.popReq htd, by rw [hbusy, stretch_snoc _ hat.held], hanswered⟩
    · rw [Function.update_of_ne hji, Function.update_of_ne hji]
      exact h.lanes j hj
  · dsimp only
    by_cases hji : j = i
    · subst hji; rw [Function.update_self]; exact hj
    · rw [Function.update_of_ne hji]; exact hj

/-- **A worker answers a part**, and there is room for the answer. -/
theorem Inv.answer (h : Inv nworker s w u r b m) {i : ℕ} (hi : i < nworker)
    (hs : s.answer i = some s') : Inv nworker s' w u r b m := by
  obtain ⟨c, t, hat, hbusy, hanswered⟩ := h.lanes i hi
  rcases Nat.lt_or_ge c t with hct | hct
  · obtain ⟨qp, hpush, hat'⟩ := hat.pushResp hct
    rw [stretch_cons _ hct] at hbusy
    simp only [Pipeline.answer, hbusy, hpush, Option.map_some, Pipeline.orAbort,
      Option.some.injEq] at hs
    subst hs
    have hposted : posted (s.log ++ [.answered i (partSeq (posted s.log) nworker i c)]) =
        posted s.log := by simp [posted]
    constructor
    case lanes =>
      intro j hj
      dsimp only
      rw [hposted, answeredBy_append]
      by_cases hji : j = i
      · subst hji
        rw [Function.update_self, Function.update_self]
        refine ⟨c + 1, t, hat', rfl, ?_⟩
        rw [hanswered, ← stretch_snoc _ (Nat.zero_le c)]
        simp [answeredBy]
      · rw [Function.update_of_ne hji, Function.update_of_ne hji]
        simpa [answeredBy, Ne.symm hji] using h.lanes j hj
    case balancer =>
      dsimp only
      rw [hposted]
      refine h.balancer.mono fun j hj => ?_
      by_cases hji : j = i
      · subst hji
        rw [Function.update_self, hat'.cq, ← stretch_snoc _ hat.resp]
        exact List.concat_ne_nil _ _
      · rw [Function.update_of_ne hji]; exact hj
    case alive => exact h.alive
    case memory => dsimp only; rw [hposted]; exact h.memory
    case py => dsimp only; rw [hposted]; exact h.py
    case shm => exact h.shm
    case front => exact h.front
    case daemon => exact h.daemon
    case received => simpa [Host.received] using h.received
    case gathered => simpa [hposted, gatherings] using h.gathered
    case refused => simpa using h.refused
  · rw [stretch, Nat.sub_eq_zero_of_le hct] at hbusy
    exact absurd hs (by simp [Pipeline.answer, hbusy])

/-! ## 2. The daemon -/

theorem DaemonPc.le_removed (pc : DaemonPc) (u : ℕ) : u ≤ pc.removed u := by
  cases pc <;> simp [DaemonPc.removed]

theorem DaemonPc.le_taken (pc : DaemonPc) (m : ℕ) : m ≤ pc.taken m := by
  cases pc <;> simp [DaemonPc.taken]

theorem BalancerPc.le_removed (pc : BalancerPc) (r i : ℕ) : r ≤ pc.removed r i := by
  cases pc with
  | popping k parts => simp only [BalancerPc.removed]; split <;> omega
  | _ => simp [BalancerPc.removed]

theorem BalancerPc.le_taken (pc : BalancerPc) (b : ℕ) : b ≤ pc.taken b := by
  cases pc <;> simp [BalancerPc.taken]

/-- How the levels are nested. -/
theorem Inv.nested (h : Inv nworker s w u r b m) :
    s.front.destroyed w ≤ u ∧ u ≤ r ∧ r ≤ m ∧ m ≤ (posted s.log).length := by
  refine ⟨?_, ?_, ?_, ?_⟩
  · have hwu := h.py.resp
    have hready := h.front
    cases hpc : s.front with
    | popping want => rw [hpc] at hready; exact hready.1
    | idle => exact hwu
    | receiving want => exact hwu
    | posting op => exact hwu
  · exact Nat.le_trans (s.daemon.le_removed u) h.shm.resp
  · exact Nat.le_trans h.shm.held h.shm.req
  · exact Nat.le_trans (s.daemon.le_taken m) h.py.req

/-- A live op is found in its slot. -/
theorem Inv.entry (h : Inv nworker s w u r b m) {k : ℕ} (hle : u ≤ k)
    (hlt : k < (posted s.log).length) :
    s.opBuffer.buffer (slotOf k) = ⟨(posted s.log).getD k default, k⟩ ∧
      (s.futs k).op = slotOf k := by
  refine h.memory.entry k _ (Nat.le_trans h.nested.1 hle) ?_
  rw [List.getD_eq_getElem?_getD, List.getElem?_eq_getElem hlt]
  rfl

theorem Pipeline.awaitCopy_op (futs : ℕ → OpWithFut) (h : ℕ) (need ready : Bool) (k : ℕ) :
    ((Pipeline.awaitCopy futs h need ready).2 k).op = (futs k).op := by
  unfold Pipeline.awaitCopy
  by_cases hk : k = h
  · subst hk; repeat' split
    all_goals simp
  · repeat' split
    all_goals simp [Function.update_of_ne hk]

/-- The copies leave the memory as it is. -/
theorem Memory.awaitCopy {ops : List Op} {opBuffer : OpBuffer} {copyBuffer : CopyBuffer}
    {news v : ℕ} {futs : ℕ → OpWithFut} (hm : Memory ops opBuffer copyBuffer news futs v)
    (h : ℕ) (need ready : Bool) :
    Memory ops opBuffer copyBuffer news (Pipeline.awaitCopy futs h need ready).2 v := by
  refine { hm with entry := fun k op hk hop => ?_ }
  rw [Pipeline.awaitCopy_op]
  exact hm.entry k op hk hop

/-- **The daemon** hands every op on, in both directions, and finds room for it. -/
theorem Inv.daemonStep (h : Inv nworker s w u r b m) (ready : Bool) :
    ∃ u' m', Inv nworker (s.daemonStep ready) w u' r b m' := by
  obtain ⟨hwu, hur, hrm, hmS⟩ := h.nested
  have hpy := h.py
  have hshm := h.shm
  have hholds := h.daemon
  cases hpc : s.daemon with
  | complete =>
    simp only [hpc, DaemonPc.removed, DaemonPc.taken] at hpy hshm
    simp only [Pipeline.daemonStep, hpc]
    cases hfront : s.shm.frontResp with
    | none =>
      dsimp only
      exact ⟨u, m, { h with py := hpy, shm := hshm, daemon := trivial }⟩
    | some slot =>
      obtain ⟨hlt, rfl⟩ := hshm.frontResp hfront
      obtain ⟨hentry, -⟩ := h.entry (Nat.le_refl u) (by omega)
      dsimp only
      rw [hentry]
      have hmem := h.memory.awaitCopy u (needRx ((posted s.log).getD u default)) ready
      split
      · exact ⟨u, m, { h with
          py := hpy, shm := hshm.popResp hlt, daemon := rfl, memory := hmem }⟩
      · exact ⟨u, m, { h with py := hpy, shm := hshm, daemon := trivial, memory := hmem }⟩
  | responding k =>
    simp only [hpc, DaemonPc.removed, DaemonPc.taken, DaemonPc.Holds] at hpy hshm hholds
    subst hholds
    have hkm : k < m := Nat.lt_of_lt_of_le hshm.resp (Nat.le_trans hshm.held hshm.req)
    obtain ⟨py, hpush, hat⟩ := hpy.pushResp hkm
    simp only [Pipeline.daemonStep, hpc]
    rw [id] at hpush
    rw [hpush]
    exact ⟨k + 1, m, { h with
      py := hat, shm := hshm, daemon := trivial
      front := h.front.mono (Nat.le_succ k) }⟩
  | post =>
    simp only [hpc, DaemonPc.removed, DaemonPc.taken] at hpy hshm
    simp only [Pipeline.daemonStep, hpc]
    cases hfront : s.py.frontReq with
    | none =>
      dsimp only
      exact ⟨u, m, { h with py := hpy, shm := hshm, daemon := trivial }⟩
    | some k =>
      obtain ⟨hlt, rfl⟩ := hpy.frontReq hfront
      dsimp only [id]
      obtain ⟨-, hslot⟩ := h.entry (Nat.le_trans hur hrm) hlt
      have hmem := h.memory.awaitCopy k (needTx (s.opOf k)) ready
      split
      · exact ⟨u, k, { h with
          py := hpy.popReq hlt, shm := hshm, daemon := hslot, memory := hmem }⟩
      · exact ⟨u, k, { h with py := hpy, shm := hshm, daemon := trivial, memory := hmem }⟩
  | requesting slot =>
    simp only [hpc, DaemonPc.removed, DaemonPc.taken, DaemonPc.Holds] at hpy hshm hholds
    subst hholds
    have hroom : m < u + queueSize := by
      have := hpy.req
      have := hpy.room
      have := hpy.resp
      omega
    obtain ⟨shm, hpush, hat⟩ := hshm.pushReq hroom
    simp only [Pipeline.daemonStep, hpc, hpush]
    exact ⟨u, m + 1, { h with py := hpy, shm := hat, daemon := trivial }⟩

/-! ## 3. The load balancer -/

/-- First loop of `try_complete_op`: a response that has been seen stays. -/
theorem Inv.checking (h : Inv nworker s w u r b m) {k : ℕ} (hpc : s.balancer = .checking k) :
    Inv nworker (s.balancerStep nworker) w u r b m := by
  have hshm := h.shm
  have hlanes := h.lanes
  have hholds := h.balancer
  have hgathered := h.gathered
  rw [hpc] at hshm hlanes hholds hgathered
  simp only [Pipeline.balancerStep, hpc]
  split
  · rename_i hk
    cases hfront : (s.qp k).frontResp with
    | none =>
      exact { h with shm := hshm, lanes := hlanes, balancer := trivial, gathered := hgathered }
    | some part =>
      refine { h with
        shm := hshm, lanes := hlanes, gathered := hgathered, balancer := fun i hi hin => ?_ }
      rcases Nat.lt_succ_iff_lt_or_eq.mp hi with hlt | rfl
      · exact hholds i hlt hin
      · intro hnil
        rw [QueuePair.frontResp, hnil] at hfront
        exact absurd hfront (by simp)
  · rename_i hk
    refine { h with shm := hshm, lanes := fun i hi => ?_, gathered := hgathered, balancer := ?_ }
    · simpa [BalancerPc.removed, BalancerPc.dealt] using hlanes i hi
    · exact ⟨Nat.zero_le _, rfl, fun i _ hi => hholds i (by omega) hi⟩

/-- Second loop: the responses that are removed are those to one op. -/
theorem Inv.popping (hn : 1 ≤ nworker) (h : Inv nworker s w u r b m) {k : ℕ} {parts : List Part}
    (hpc : s.balancer = .popping k parts) :
    Inv nworker (s.balancerStep nworker) w u r b m := by
  have hshm := h.shm
  have hlanes := h.lanes
  have hholds := h.balancer
  have hgathered := h.gathered
  rw [hpc] at hshm hlanes hholds hgathered
  obtain ⟨hkn, hparts, hcq⟩ := hholds
  simp only [Pipeline.balancerStep, hpc]
  split
  · rename_i hk
    obtain ⟨c, t, hat, hbusy, hanswered⟩ := hlanes k hk
    simp only [BalancerPc.removed, BalancerPc.dealt, Nat.lt_irrefl, if_false] at hat
    obtain ⟨part, hfront⟩ := Option.isSome_iff_exists.mp
      (List.isSome_head?.mpr (hcq k (Nat.le_refl k) hk))
    obtain ⟨hlt, rfl⟩ := hat.frontResp hfront
    rw [QueuePair.frontResp, hfront]
    refine { h with shm := hshm, gathered := hgathered, lanes := fun i hi => ?_, balancer := ?_ }
    · dsimp only
      by_cases hik : i = k
      · subst hik
        rw [Function.update_self]
        refine ⟨c, t, ?_, hbusy, hanswered⟩
        simpa [BalancerPc.removed, BalancerPc.dealt] using hat.popResp hlt
      · rw [Function.update_of_ne hik]
        have hiff : i < k + 1 ↔ i < k := by omega
        simpa [BalancerPc.removed, BalancerPc.dealt, hiff] using hlanes i hi
    · refine ⟨hk, by rw [hparts, List.range_succ, List.map_append]; rfl, fun i hi hin => ?_⟩
      dsimp only
      rw [Function.update_of_ne (by omega)]
      exact hcq i (by omega) hin
  · rename_i hk
    obtain rfl : k = nworker := by omega
    obtain ⟨k, rfl⟩ := Nat.exists_eq_add_of_le' hn
    have hlast : parts.getLast? = some (partSeq (posted s.log) (k + 1) k r) := by
      rw [hparts, List.range_succ, List.map_append, List.map_singleton, List.getLast?_concat]
    have hposted : posted (s.log ++ [.gathered parts]) = posted s.log := by simp [posted]
    rw [hlast]
    constructor
    case lanes =>
      intro i hi
      dsimp only
      rw [hposted]
      simpa [BalancerPc.removed, BalancerPc.dealt, hi, answeredBy] using hlanes i hi
    case gathered =>
      dsimp only
      rw [gatherings_append, hgathered, hposted]
      simp only [BalancerPc.gathered]
      rw [← stretch_snoc _ (Nat.zero_le r), hparts]
      rfl
    case balancer => exact rfl
    case alive => exact h.alive
    case memory => dsimp only; rw [hposted]; exact h.memory
    case py => dsimp only; rw [hposted]; exact h.py
    case shm => exact hshm
    case front => exact h.front
    case daemon => exact h.daemon
    case received => simpa [Host.received] using h.received
    case refused => simpa using h.refused

/-- End of `try_complete_op`: there is room for the answer. -/
theorem Inv.responding (hn : 1 ≤ nworker) (h : Inv nworker s w u r b m) {op : ℕ}
    (hpc : s.balancer = .responding op) :
    Inv nworker (s.balancerStep nworker) w u (r + 1) b m := by
  have hshm := h.shm
  have hlanes := h.lanes
  have hholds := h.balancer
  have hgathered := h.gathered
  rw [hpc] at hshm hlanes hholds hgathered
  have hop : op = slotOf r := hholds
  have hrb : r < b := by
    obtain ⟨c, t, hat, -, -⟩ := hlanes 0 hn
    exact Nat.le_trans hat.resp (Nat.le_trans hat.held hat.req)
  obtain ⟨shm, hpush, hat⟩ := hshm.pushResp hrb
  simp only [Pipeline.balancerStep, hpc, hop, hpush, Option.map_some, Pipeline.orAbort]
  exact { h with shm := hat, lanes := hlanes, balancer := trivial, gathered := hgathered }

/-- Top of `try_post_op`. -/
theorem Inv.post (h : Inv nworker s w u r b m) (hpc : s.balancer = .post) :
    Inv nworker (s.balancerStep nworker) w u r b m := by
  have hshm := h.shm
  have hlanes := h.lanes
  have hgathered := h.gathered
  rw [hpc] at hshm hlanes hgathered
  simp only [Pipeline.balancerStep, hpc]
  cases hfront : s.shm.frontReq with
  | none =>
    exact { h with
      shm := hshm, lanes := hlanes, gathered := hgathered
      balancer := fun i hi => absurd hi (Nat.not_lt_zero i) }
  | some slot =>
    obtain ⟨hlt, rfl⟩ := hshm.frontReq hfront
    have hlt : b < m := hlt
    obtain ⟨-, hur, -, hmS⟩ := h.nested
    have hrb : r ≤ b := hshm.held
    have hbS : b < (posted s.log).length := by omega
    obtain ⟨hentry, -⟩ := h.entry (Nat.le_trans hur hrb) hbS
    have hpromised : Promised ((posted s.log).getD b default) := by
      rw [List.getD_eq_getElem?_getD, List.getElem?_eq_getElem hbS]
      exact h.memory.promised _ (List.getElem_mem hbS)
    simp only [BalancerPc.taken, hentry]
    rw [if_neg fun hbad => hbad.2 (hpromised.2 hbad.1)]
    refine { h with
      shm := hshm.popReq hlt, lanes := fun i hi => ?_, gathered := hgathered, balancer := ?_ }
    · simpa [BalancerPc.removed, BalancerPc.dealt] using hlanes i hi
    · exact ⟨Nat.zero_le _, rfl, fun _ => by simp [subOffset]⟩

/-- The loop of `try_post_op`: no worker's queue is full. -/
theorem Inv.dealing (h : Inv nworker s w u r b m) {slot k offset : ℕ}
    (hpc : s.balancer = .dealing slot k offset) :
    ∃ b', Inv nworker (s.balancerStep nworker) w u r b' m := by
  have hshm := h.shm
  have hlanes := h.lanes
  have hholds := h.balancer
  have hgathered := h.gathered
  rw [hpc] at hshm hlanes hholds hgathered
  obtain ⟨hkn, rfl, hoffset⟩ := hholds
  simp only [Pipeline.balancerStep, hpc]
  split
  · rename_i hk
    obtain ⟨hwu, hur, -, hmS⟩ := h.nested
    have hbm : b < m := hshm.req
    obtain ⟨c, t, hat, hbusy, hanswered⟩ := hlanes k hk
    simp only [BalancerPc.removed, BalancerPc.dealt, Nat.lt_irrefl, if_false] at hat
    have hrb : r ≤ b := Nat.le_trans hat.resp (Nat.le_trans hat.held hat.req)
    have hroom : b < r + queueSize := by
      have := h.py.room
      have := h.py.resp
      omega
    obtain ⟨qp, hpush, hat'⟩ := hat.pushReq hroom
    obtain ⟨hentry, -⟩ := h.entry (Nat.le_trans hur hrb) (Nat.lt_of_lt_of_le hbm hmS)
    have hpart : (⟨slotOf b, subOp (s.opBuffer.buffer (slotOf b)).op nworker k offset⟩ : Part) =
        partSeq (posted s.log) nworker k b := by rw [hentry, hoffset hk]; rfl
    rw [hpart, hpush]
    refine ⟨b, { h with
      shm := hshm, gathered := hgathered, lanes := fun i hi => ?_, balancer := ?_ }⟩
    · dsimp only
      by_cases hik : i = k
      · subst hik
        rw [Function.update_self]
        refine ⟨c, t, ?_, hbusy, hanswered⟩
        simpa [BalancerPc.removed, BalancerPc.dealt] using hat'
      · rw [Function.update_of_ne hik]
        have hiff : i < k + 1 ↔ i < k := by omega
        simpa [BalancerPc.removed, BalancerPc.dealt, hiff] using hlanes i hi
    · refine ⟨hk, rfl, fun hk' => ?_⟩
      dsimp only
      rw [hentry, hoffset hk]
      exact subOffset_succ _ hk'
  · rename_i hk
    obtain rfl : k = nworker := by omega
    refine ⟨b + 1, { h with
      shm := hshm, gathered := hgathered, lanes := fun i hi => ?_
      balancer := fun i hi => absurd hi (Nat.not_lt_zero i) }⟩
    simpa [BalancerPc.removed, BalancerPc.dealt, hi] using hlanes i hi

/-- **The load balancer** deals every op to every worker and collects the answers to it, and
finds room for both. -/
theorem Inv.balancerStep (hn : 1 ≤ nworker) (h : Inv nworker s w u r b m) :
    ∃ r' b', Inv nworker (s.balancerStep nworker) w u r' b' m := by
  cases hpc : s.balancer with
  | checking k => exact ⟨r, b, h.checking hpc⟩
  | popping k parts => exact ⟨r, b, h.popping hn hpc⟩
  | responding op => exact ⟨r + 1, b, h.responding hn hpc⟩
  | post => exact ⟨r, b, h.post hpc⟩
  | dealing slot k offset =>
    obtain ⟨b', h'⟩ := h.dealing hpc
    exact ⟨r, b', h'⟩

/-! ## 4. The Python thread -/

/-- `recv_all_resp` frees a block that ends exactly at the last byte of the copy buffer. -/
def Pipeline.ExactFit (s : Pipeline) : Action → Prop
  | .front => ∃ want h, s.front = .receiving want ∧ s.py.frontResp = some h ∧
      s.copyBuffer.tail + (s.opOf h).size = shmCopyBufferSize + 1
  | _ => False

section Memory

variable {ops : List Op} {opBuffer : OpBuffer} {copyBuffer : CopyBuffer} {news v : ℕ}
  {futs : ℕ → OpWithFut}

/-- **`create_op`** puts an op into the next slot, and no live op is in it. -/
theorem Memory.create (h : Memory ops opBuffer copyBuffer news futs v) {op : Op}
    (hop : Promised op) (hslot : 0 < opBuffer.available) (hsize : op.size ≤ copyBuffer.available) :
    ∃ opBuffer' offset copyBuffer',
      opBuffer.fifoAllocate = some (slotOf ops.length, opBuffer') ∧
      copyBuffer.fifoAllocate op.size = some (offset, copyBuffer') ∧
      Memory (ops ++ [{ op with shmBuffer := offset }])
        (opBuffer'.write (slotOf ops.length) ⟨{ op with shmBuffer := offset }, news⟩) copyBuffer'
        (news + 1) (Function.update futs news ⟨false, slotOf ops.length⟩) v := by
  have hcnt := h.cnt
  rw [OpBuffer.available] at hslot
  obtain ⟨ring, hcall, hring⟩ := h.ring.allocate ⟨hop.1, hsize⟩
  obtain ⟨⟨offset, copyBuffer'⟩, halloc, rfl⟩ := Option.map_eq_some_iff.mp hcall
  refine ⟨{ opBuffer with head := slotOf (ops.length + 1), cnt := opBuffer.cnt + 1 }, offset,
    copyBuffer', ?_, halloc, ?_⟩
  · rw [OpBuffer.fifoAllocate, if_neg (by omega), h.head]
    simp only [slotOf_succ]
  constructor
  case head => rw [List.length_append, List.length_singleton]; rfl
  case cnt => simp only [OpBuffer.write, List.length_append, List.length_singleton]; omega
  case news => rw [h.news, List.length_append, List.length_singleton]
  case entry =>
    intro k op' hk hget
    rcases Nat.lt_or_ge k ops.length with hlt | hge
    · rw [List.getElem?_append_left hlt] at hget
      have hne : slotOf k ≠ slotOf ops.length := slotOf_ne hlt (by omega)
      dsimp only [OpBuffer.write]
      rw [Function.update_of_ne hne, Function.update_of_ne (by rw [h.news]; omega)]
      exact h.entry k op' hk hget
    · have hlt := (List.getElem?_eq_some_iff.mp hget).1
      rw [List.length_append, List.length_singleton] at hlt
      obtain rfl : k = ops.length := by omega
      rw [List.getElem?_concat_length] at hget
      dsimp only [OpBuffer.write]
      rw [Function.update_self, h.news, Function.update_self, Option.some.inj hget]
      exact ⟨rfl, rfl⟩
  case promised =>
    intro op' hmem
    rcases List.mem_append.mp hmem with hmem | hmem
    · exact h.promised op' hmem
    · rw [List.mem_singleton.mp hmem]; exact hop
  case ring =>
    rw [List.drop_append_of_le_length (by omega), List.map_append]
    exact hring

/-- **`destroy_op`** releases the oldest live op and the oldest live block, unless that block
ends at the last byte. -/
theorem Memory.destroy (h : Memory ops opBuffer copyBuffer news futs v) {op : Op}
    (hget : ops[v]? = some op) (hfit : copyBuffer.tail + op.size ≠ shmCopyBufferSize + 1) :
    ∃ copyBuffer' opBuffer', copyBuffer.fifoFree op.size = some copyBuffer' ∧
      opBuffer.fifoFree = some opBuffer' ∧ Memory ops opBuffer' copyBuffer' news futs (v + 1) := by
  have hcnt := h.cnt
  obtain ⟨hlt, rfl⟩ := List.getElem?_eq_some_iff.mp hget
  have hring := h.ring
  rw [List.drop_eq_getElem_cons hlt, List.map_cons] at hring
  obtain ⟨block, rest, copyBuffer', hlive, hfree, -, hring'⟩ := hring.free (by simp [Ring.Guard])
    (by rintro ⟨block, hhead, hend⟩
        rw [List.head?_cons, Option.some.injEq] at hhead
        subst hhead
        exact hfit hend)
  obtain ⟨rfl, rfl⟩ := List.cons.inj hlive
  refine ⟨copyBuffer', { opBuffer with cnt := opBuffer.cnt - 1 }, hfree, ?_, ?_⟩
  · rw [OpBuffer.fifoFree, if_neg (by omega)]
  · exact { h with
      cnt := by dsimp only; omega
      entry := fun k op' hk => h.entry k op' (by omega)
      ring := hring' }

end Memory

theorem Lane.snoc {ops : List Op} {i g d : ℕ} {qp : QueuePair Part} {busy answered : List Part}
    (h : Lane ops nworker i qp busy answered g d) (hd : d ≤ ops.length) (op : Op) :
    Lane (ops ++ [op]) nworker i qp busy answered g d := by
  obtain ⟨c, t, hat, hbusy, hanswered⟩ := h
  have hheld := hat.held
  have hreq := hat.req
  have hsame : ∀ k, k < d → partSeq ops nworker i k = partSeq (ops ++ [op]) nworker i k :=
    fun k hk => (partSeq_snoc (by omega) op nworker i).symm
  exact ⟨c, t, hat.congr fun k _ hk => hsame k hk,
    hbusy.trans (stretch_congr fun k _ hk => hsame k (by omega)),
    hanswered.trans (stretch_congr fun k _ hk => hsame k (by omega))⟩

theorem Lane.le {ops : List Op} {i g d : ℕ} {qp : QueuePair Part} {busy answered : List Part}
    (h : Lane ops nworker i qp busy answered g d) : g ≤ d := by
  obtain ⟨c, t, hat, -, -⟩ := h
  exact Nat.le_trans hat.resp (Nat.le_trans hat.held hat.req)

theorem BalancerPc.dealt_le (pc : BalancerPc) (b i : ℕ) : pc.dealt b i ≤ pc.taken b := by
  cases pc with
  | dealing slot k offset => simp only [BalancerPc.dealt, BalancerPc.taken]; split <;> omega
  | _ => exact Nat.le_refl b

theorem BalancerPc.gathered_le (pc : BalancerPc) (r i : ℕ) : pc.gathered r ≤ pc.removed r i := by
  cases pc with
  | popping k parts => simp only [BalancerPc.gathered, BalancerPc.removed]; split <;> omega
  | _ => exact Nat.le_refl _

theorem BalancerPc.Holds.snoc {pc : BalancerPc} {ops : List Op} {qp : ℕ → QueuePair Part}
    (h : pc.Holds ops nworker qp r b) (hr : ∀ i < nworker, pc.removed r i ≤ ops.length)
    (hb : pc.taken b ≤ ops.length) (op : Op) : pc.Holds (ops ++ [op]) nworker qp r b := by
  cases pc with
  | popping k parts =>
    refine ⟨h.1, h.2.1.trans (List.map_congr_left fun i hi => ?_), h.2.2⟩
    have hik : i < k := List.mem_range.mp hi
    have hri := hr i (Nat.lt_of_lt_of_le hik h.1)
    rw [BalancerPc.removed, if_pos hik] at hri
    exact (partSeq_snoc hri op nworker i).symm
  | dealing slot k offset =>
    have hlt : b < ops.length := hb
    refine ⟨h.1, h.2.1, fun hk => ?_⟩
    rw [List.getD_eq_getElem?_getD, List.getElem?_append_left hlt, ← List.getD_eq_getElem?_getD]
    exact h.2.2 hk
  | checking k => exact h
  | responding slot => exact h
  | post => exact h

theorem partsSeq_snoc {ops : List Op} {h : ℕ} (hlt : h < ops.length) (op : Op) (nworker : ℕ) :
    partsSeq (ops ++ [op]) nworker h = partsSeq ops nworker h :=
  List.map_congr_left fun i _ => partSeq_snoc hlt op nworker i

/-- `recv_all_resp` meets a response: it is the one to the oldest live op. -/
theorem Inv.destroyOp (h : Inv nworker s w u r b m) {want : Option Op}
    (hpc : s.front = .receiving want) {k : ℕ} (hfront : s.py.frontResp = some k)
    (hfit : ¬ s.ExactFit .front) :
    ∃ t, s.destroyOp k = some t ∧
      Inv nworker { t with front := .popping want, log := t.log ++ [.received k] } w u r b m := by
  obtain ⟨hwu, hk⟩ := h.py.frontResp hfront
  obtain ⟨-, hur, hrm, hmS⟩ := h.nested
  have hmem := h.memory
  have hready := h.front
  have hreceived := h.received
  rw [hpc] at hmem hready hreceived
  have hlt : w < (posted s.log).length := by omega
  obtain ⟨op, hget⟩ : ∃ op, (posted s.log)[w]? = some op := ⟨_, List.getElem?_eq_getElem hlt⟩
  obtain ⟨hbuffer, hslot⟩ := hmem.entry w op (Nat.le_refl w) hget
  have hop : s.opOf k = op := by rw [hk, Pipeline.opOf, id, hslot, hbuffer]
  obtain ⟨copyBuffer, opBuffer, hfree, hcnt, hmem'⟩ := hmem.destroy hget fun hend =>
    hfit ⟨want, k, hpc, hfront, by rw [hop]; exact hend⟩
  refine ⟨{ s with copyBuffer, opBuffer }, ?_, ?_⟩
  · rw [Pipeline.destroyOp, hop, hfree, hcnt]; rfl
  have hposted : posted (s.log ++ [.received k]) = posted s.log := by simp [posted]
  constructor
  case memory => dsimp only; rw [hposted]; exact hmem'
  case front => exact ⟨hwu, hready⟩
  case received =>
    dsimp only
    rw [received_append, hreceived, hk]
    exact List.range_succ.symm
  case alive => exact h.alive
  case py => dsimp only; rw [hposted]; exact h.py
  case shm => exact h.shm
  case lanes => intro i hi; dsimp only; rw [hposted]; simpa [answeredBy] using h.lanes i hi
  case daemon => exact h.daemon
  case balancer => dsimp only; rw [hposted]; exact h.balancer
  case gathered => simpa [hposted, gatherings] using h.gathered
  case refused => simpa using h.refused

/-- `post_sub_collective` has room in both buffers, and so in the queue. -/
theorem Inv.postOp (hn : 1 ≤ nworker) (h : Inv nworker s w u r b m) {op : Op} (hpc : s.front = .posting op) :
    ∃ t, s.postOp op = some t ∧ Inv nworker t w u r b m := by
  obtain ⟨-, hur, hrm, hmS⟩ := h.nested
  have hmem := h.memory
  have hready := h.front
  have hreceived := h.received
  rw [hpc] at hmem hready hreceived
  obtain ⟨hop, hslot, hsize⟩ := hready
  obtain ⟨opBuffer, offset, copyBuffer, hfifo, halloc, hmem'⟩ := hmem.create hop hslot hsize
  have hroom : (posted s.log).length < w + queueSize := by
    have hcnt : s.opBuffer.cnt + w = (posted s.log).length := hmem.cnt
    rw [OpBuffer.available] at hslot
    omega
  obtain ⟨py, hpush, hat⟩ := h.py.pushReq hroom
  rw [id, ← hmem.news] at hpush
  let new := { op with shmBuffer := offset }
  have hposted : posted (s.log ++ [.posted new]) = posted s.log ++ [new] := by simp [posted]
  have htaken : s.balancer.taken b ≤ (posted s.log).length := Nat.le_trans h.shm.req hmS
  have hdealt : ∀ i, s.balancer.dealt b i ≤ (posted s.log).length := fun i =>
    Nat.le_trans (s.balancer.dealt_le b i) htaken
  have hremoved : ∀ i < nworker, s.balancer.removed r i ≤ (posted s.log).length := fun i hi =>
    Nat.le_trans (h.lanes i hi).le (hdealt i)
  refine ⟨{ s with
    opBuffer := opBuffer.write (slotOf (posted s.log).length) ⟨new, s.news⟩
    copyBuffer, news := s.news + 1
    futs := Function.update s.futs s.news ⟨false, slotOf (posted s.log).length⟩
    py, front := .idle, log := s.log ++ [.posted new] }, ?_, ?_⟩
  · simp only [Pipeline.postOp, Pipeline.createOp, hfifo, halloc, hpush, Pipeline.opOf,
      Function.update_self, OpBuffer.write, bind, Option.bind, pure]
    rfl
  constructor
  case memory => dsimp only; rw [hposted]; exact hmem'
  case py => dsimp only; rw [hposted, List.length_append, List.length_singleton]; exact hat
  case lanes =>
    intro i hi
    dsimp only
    rw [hposted]
    simpa [answeredBy] using (h.lanes i hi).snoc (hdealt i) new
  case balancer =>
    dsimp only
    rw [hposted]
    exact BalancerPc.Holds.snoc h.balancer hremoved htaken new
  case gathered =>
    dsimp only
    rw [gatherings_append, h.gathered, hposted]
    simp only [gatherings, List.filterMap_cons, List.filterMap_nil, List.append_nil]
    refine stretch_congr fun k _ hk => (partsSeq_snoc ?_ new nworker).symm
    exact Nat.lt_of_lt_of_le hk (Nat.le_trans (s.balancer.gathered_le r 0) (hremoved 0 hn))
  case front => trivial
  case received => simpa [Host.received, FrontPc.destroyed] using hreceived
  case alive => exact h.alive
  case shm => exact h.shm
  case daemon => exact h.daemon
  case refused => simpa using h.refused

/-- **The Python thread** takes the ops out in the order it put them in, and frees the memory
of the oldest. -/
theorem Inv.frontStep (hn : 1 ≤ nworker) (h : Inv nworker s w u r b m)
    (hfit : ¬ s.ExactFit .front) (hs : s.frontStep = some s') :
    ∃ w', Inv nworker s' w' u r b m := by
  have hmem := h.memory
  have hready := h.front
  have hreceived := h.received
  cases hpc : s.front with
  | idle => exact absurd hs (by simp [Pipeline.frontStep, hpc])
  | receiving want =>
    rw [hpc] at hmem hready hreceived
    cases hfront : s.py.frontResp with
    | some k =>
      obtain ⟨t, ht, hinv⟩ := h.destroyOp hpc hfront hfit
      simp only [Pipeline.frontStep, hpc, hfront, ht, Option.map_some, Pipeline.orAbort,
        Option.some.injEq] at hs
      exact ⟨w, hs ▸ hinv⟩
    | none =>
      cases want with
      | none =>
        simp only [Pipeline.frontStep, hpc, hfront, Option.some.injEq] at hs
        exact ⟨w, hs ▸ { h with memory := hmem, front := trivial, received := hreceived }⟩
      | some op =>
        simp only [Pipeline.frontStep, hpc, hfront] at hs
        split at hs
        · rename_i hroom
          have hop : Promised op := hready op rfl
          rw [Option.some.injEq] at hs
          exact ⟨w, hs ▸ { h with
            memory := hmem, front := ⟨hop, hroom⟩, received := hreceived }⟩
        · exact ⟨w, Option.some.inj hs ▸ h⟩
  | popping want =>
    rw [hpc] at hmem hready hreceived
    simp only [Pipeline.frontStep, hpc, Option.some.injEq] at hs
    exact ⟨w + 1, hs ▸ { h with
      memory := hmem, front := hready.2, received := hreceived, py := h.py.popResp hready.1 }⟩
  | posting op =>
    obtain ⟨t, ht, hinv⟩ := h.postOp hn hpc
    simp only [Pipeline.frontStep, hpc, ht, Pipeline.orAbort, Option.some.injEq] at hs
    exact ⟨w, hs ▸ hinv⟩

/-! ## 5. Whole runs -/

/-- **One operation of one thread keeps the invariant**, outside the exact fit. -/
theorem Inv.step (hn : 1 ≤ nworker) (h : Inv nworker s w u r b m) {a : Action}
    (hfit : ¬ s.ExactFit a) (hs : s.Step nworker a s') :
    ∃ w' u' r' b' m', Inv nworker s' w' u' r' b' m' := by
  cases a with
  | call want =>
    simp only [Pipeline.Step, Pipeline.step, h.alive, Bool.false_eq_true, if_false] at hs
    split at hs
    · rename_i hcall
      have hmem := h.memory
      have hreceived := h.received
      rw [hcall.1] at hmem hreceived
      rw [← Option.some.inj hs]
      exact ⟨w, u, r, b, m, { h with
        alive := rfl, memory := hmem, front := hcall.2, received := hreceived }⟩
    · exact absurd hs (by simp)
  | front =>
    simp only [Pipeline.Step, Pipeline.step, h.alive, Bool.false_eq_true, if_false] at hs
    obtain ⟨w', h'⟩ := h.frontStep hn hfit hs
    exact ⟨w', u, r, b, m, h'⟩
  | daemon ready =>
    simp only [Pipeline.Step, Pipeline.step, h.alive, Bool.false_eq_true, if_false] at hs
    obtain ⟨u', m', h'⟩ := h.daemonStep ready
    exact ⟨w, u', r, b, m', Option.some.inj hs ▸ h'⟩
  | balancer =>
    simp only [Pipeline.Step, Pipeline.step, h.alive, Bool.false_eq_true, if_false] at hs
    obtain ⟨r', b', h'⟩ := h.balancerStep hn
    exact ⟨w, u, r', b', m, Option.some.inj hs ▸ h'⟩
  | take i =>
    simp only [Pipeline.Step, Pipeline.step, h.alive, Bool.false_eq_true, if_false] at hs
    split at hs
    · exact ⟨w, u, r, b, m, h.take ‹_› hs⟩
    · exact absurd hs (by simp)
  | answer i =>
    simp only [Pipeline.Step, Pipeline.step, h.alive, Bool.false_eq_true, if_false] at hs
    split at hs
    · exact ⟨w, u, r, b, m, h.answer ‹_› hs⟩
    · exact absurd hs (by simp)

/-- **The invariant holds in every run without an exact fit.** -/
theorem inv_reach (hn : 1 ≤ nworker)
    (h : Reach Pipeline.Init (Pipeline.Step nworker) (fun s a => ¬ s.ExactFit a) s) :
    ∃ w u r b m, Inv nworker s w u r b m :=
  h.invariant (P := fun s => ∃ w u r b m, Inv nworker s w u r b m)
    (fun _ hs => ⟨0, 0, 0, 0, 0, Inv.init hs⟩)
    fun _ _ _ ⟨_, _, _, _, _, hinv⟩ hfit hs => hinv.step hn hfit hs

end NetCCL.Host
