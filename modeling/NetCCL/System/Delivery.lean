/-
# What a collective delivers

`Outcome` is the meaning of a collective: what a rank has in its buffer at the end, from what all
ranks had in theirs.  In the words of `need_tx` and `need_rx`, the root of a reduction gets the
sums of the others, and brings nothing itself.

`cluster_delivery` says that the cluster computes it.  When the completion of a sub-op is in the
queue of a worker, the buffer holds the outcome of what the ranks of the lane were given, however
the packets were cut, lost, sent again, reordered and answered, and whatever the other groups did
meanwhile.  It puts together what is known of the three places the bytes pass through: the
buffers of the senders (`Buffers.sent`), the slots (`Cluster.Carries`), and the buffer of the
receiver (`Buffers.block`).
-/
import NetCCL.System.Isolation
import NetCCL.System.Buffers

namespace NetCCL

open Lib Switch Backend

/-! ## 1. The meaning of a collective -/

/-- **What a collective leaves with rank `j`**: byte `o` of its buffer is `after o` at the end, and
that of rank `i` was `before i o`. -/
def Outcome (opCode : OpCode) (root : BitVec 8) {n : ℕ} (before : Fin n → ℕ → Backend.Byte)
    (size : ℕ) (j : Fin n) (after : ℕ → Backend.Byte) : Prop :=
  match opCode with
  | .allReduce =>
    ∀ v, 4 * v < size → (hostWord after v).toInt = ∑ i, (hostWord (before i) v).toInt
  | .reduce =>
    if root = BitVec.ofNat 8 j then ∀ v, 4 * v < size → (hostWord after v).toInt =
      ∑ i : Fin n, if root = BitVec.ofNat 8 i then 0 else (hostWord (before i) v).toInt
    else ∀ o < size, after o = before j o
  | .broadcast => ∀ i : Fin n, root = BitVec.ofNat 8 i → ∀ o < size, after o = before i o
  | _ => ∀ o < size, after o = before j o

/-- Word `v` of what starts `m` words further on. -/
theorem hostWord_add (b : ℕ → Backend.Byte) (m v : ℕ) :
    hostWord (fun o => b (4 * m + o)) v = hostWord b (m + v) := by
  have hadd : ∀ c, 4 * m + (4 * v + c) = 4 * (m + v) + c := fun c => by omega
  unfold hostWord
  dsimp only
  rw [hadd, hadd, hadd, ← Nat.mul_add]

/-! ## 2. A packet in the buffers of all ranks -/

variable {W K : Type} {D : Lanes W K} {tbl : Tables} {copies : W → BitVec 8 → List (ℕ × W)}
  {s s' : Cluster W} {k : K} {given : W → ℕ → ℕ → Backend.Byte}

/-- Packet `q` of a lane, as rank `i` has built it. -/
structure Lanes.Built (D : Lanes W K) (s : Cluster W) (k : K) (q : ℕ) (i : Fin (D.n k))
    (y : PktState) : Prop where
  built : ((s.host (D.worker k i)).builtIn (D.gid k))[q]? = some y
  lt : y.subOp < (s.host (D.worker k i)).worker.heap.length
  group : (s.host (D.worker k i)).worker.groupOf y.subOp = D.gid k
  index : (s.host (D.worker k i)).worker.indexIn (D.gid k) y.subOp = (D.plan k).owner q
  gives : (D.plan k).Gives i ((D.plan k).owner q) ((s.host (D.worker k i)).worker.subOp y.subOp)
  data : y.data = ((s.host (D.worker k i)).worker.subOp y.subOp).data +
    (D.plan k).place q * payloadSize
  size : y.size = min payloadSize ((D.plan k).size ((D.plan k).owner q) -
    (D.plan k).place q * payloadSize)

theorem Cluster.Joint.stands (h : Cluster.Joint D s) {q : ℕ} {i : Fin (D.n k)} {y : PktState}
    (hy : ((s.host (D.worker k i)).builtIn (D.gid k))[q]? = some y) : D.Built s k q i y := by
  obtain ⟨ctx, aggLen, hkeeps⟩ := h.workers (D.worker k i)
  obtain ⟨f, hf⟩ := h.lanes k
  obtain ⟨hlt, -, -, hgives⟩ := (hf.share i).packet hkeeps.serving (hkeeps.lanes k i rfl).1 hy
  obtain ⟨hindex, hdata, hsize⟩ := (hf.share i).place hkeeps.serving hy
  rw [hgives.size] at hsize
  exact ⟨hy, hlt, hgives.groupId, hindex, hgives, hdata, hsize⟩

/-- The words of the packet are those of the buffer it was built from. -/
theorem Lanes.Built.word_reduces {q : ℕ} {i : Fin (D.n k)} {y : PktState} (h : D.Built s k q i y)
    (hbuf : Buffers (given (D.worker k i)) (s.host (D.worker k i)))
    (hred : ((s.host (D.worker k i)).worker.subOp y.subOp).op.reduces = true) {v : Fin 64}
    (hv : v < y.size / 4) : word (packetOf y.pkt).payload v =
      if needTx ((s.host (D.worker k i)).worker.subOp y.subOp).op then
        hostWord (given (D.worker k i) y.subOp) (64 * (D.plan k).place q + v) else 0 := by
  have hmem : y ∈ Backend.built (s.host (D.worker k i)).log :=
    List.mem_of_mem_filter (List.mem_of_getElem? h.built)
  have hoff : ∀ b, y.data + b - ((s.host (D.worker k i)).worker.subOp y.subOp).data =
      4 * (64 * (D.plan k).place q) + b := by
    intro b
    have hpayload : payloadSize = 256 := rfl
    have hdata := h.data
    rw [hpayload] at hdata
    omega
  rw [hbuf.sent y hmem v, sentWord, if_pos hred, blockInt, if_pos hv]
  simp only [placed, hoff]
  rw [hostWord_add]

theorem Lanes.Built.word_copies {q : ℕ} {i : Fin (D.n k)} {y : PktState} (h : D.Built s k q i y)
    (hbuf : Buffers (given (D.worker k i)) (s.host (D.worker k i)))
    (hred : ((s.host (D.worker k i)).worker.subOp y.subOp).op.reduces = false) (v : Fin 64) :
    word (packetOf y.pkt).payload v =
      if needTx ((s.host (D.worker k i)).worker.subOp y.subOp).op then
        netWord (fun b => if b < y.size then
          given (D.worker k i) y.subOp ((D.plan k).place q * payloadSize + b) else 0) v
      else 0 := by
  have hmem : y ∈ Backend.built (s.host (D.worker k i)).log :=
    List.mem_of_mem_filter (List.mem_of_getElem? h.built)
  have hoff : ∀ b, y.data + b - ((s.host (D.worker k i)).worker.subOp y.subOp).data =
      (D.plan k).place q * payloadSize + b := by
    intro b
    have hdata := h.data
    omega
  rw [hbuf.sent y hmem v, sentWord, hred, if_neg Bool.false_ne_true]
  unfold paddedBlock
  simp only [placed, hoff]

/-- **A block of an answered sub-op**: which packet of the lane it was, and what the ranks had
built for it. -/
theorem Cluster.Joint.answered_block (h : Cluster.Joint D s) (hagrees : s.Agrees D k)
    {j : Fin (D.n k)} {x : PktState × Frame} (hx : x ∈ accepted (s.host (D.worker k j)).log)
    (hgroup : (s.host (D.worker k j)).worker.groupOf x.1.subOp = D.gid k) {m : ℕ}
    (hdata : x.1.data = ((s.host (D.worker k j)).worker.subOp x.1.subOp).data + m * payloadSize) :
    ∃ q, (s.host (D.worker k j)).worker.indexIn (D.gid k) x.1.subOp = (D.plan k).owner q ∧
      (D.plan k).place q = m ∧ (∀ i, ∃ y, D.Built s k q i y) ∧
      (needRx ((s.host (D.worker k j)).worker.subOp x.1.subOp).op = true →
        Sums (D.contribution s k) q (payloadOf x.2.payload)) := by
  obtain ⟨ctx, aggLen, hkeeps⟩ := h.workers (D.worker k j)
  obtain ⟨_, _, _, _, hinv⟩ := hkeeps.serving.inv
  have hgid : x.1.pkt.inc.groupId = D.gid k := by
    obtain ⟨p, hp, heq⟩ := hinv.accepted_built hx
    rw [heq] at hgroup ⊢
    dsimp only at hgroup ⊢
    rw [(hinv.cursor.header p hp).2.2]
    exact hgroup
  obtain ⟨q, p, hp, heq, -, hall, hsums⟩ := hagrees j x hx hgid
  have hstands := h.stands hp
  have hsub : x.1.subOp = p.subOp := by rw [heq]
  have hpdata : x.1.data = p.data := by rw [heq]
  refine ⟨q, by rw [hsub]; exact hstands.index, ?_, fun i => ?_, fun hrx => ?_⟩
  · have hpos : 0 < payloadSize := by decide
    have hsame := hdata
    rw [hpdata, hsub, hstands.data] at hsame
    exact Nat.eq_of_mul_eq_mul_right hpos (Nat.add_left_cancel hsame)
  · exact ⟨_, h.stands (List.getElem?_eq_getElem (hall i))⟩
  · rw [hsub, hstands.gives.needRx rfl] at hrx
    exact (hsums hrx).2

/-! ## 3. A sub-op in the buffers of all ranks -/

/-- On every rank of the lane, the sub-op that is number `c` of its group. -/
structure Lanes.Numbered (D : Lanes W K) (s : Cluster W) (k : K) (c : ℕ)
    (ptrs : Fin (D.n k) → ℕ) : Prop where
  lt : ∀ i, ptrs i < (s.host (D.worker k i)).worker.heap.length
  group : ∀ i, (s.host (D.worker k i)).worker.groupOf (ptrs i) = D.gid k
  index : ∀ i, (s.host (D.worker k i)).worker.indexIn (D.gid k) (ptrs i) = c

theorem Backend.Worker.indexIn_inj {w : Worker} {g : BitVec 8} {a b : ℕ} (ha : a < w.heap.length)
    (hga : w.groupOf a = g) (hb : b < w.heap.length) (hgb : w.groupOf b = g)
    (h : w.indexIn g a = w.indexIn g b) : a = b := by
  have hget : ∀ {x : ℕ}, x < w.heap.length → w.heap[x]? = some (w.subOp x) := by
    intro x hx
    rw [Worker.subOp_eq hx]
    exact List.getElem?_eq_getElem hx
  exact within_inj (hget ha) (decide_eq_true hga) (hget hb) (decide_eq_true hgb) h

theorem Lanes.Numbered.subOp_eq {c : ℕ} {ptrs : Fin (D.n k) → ℕ} (h : D.Numbered s k c ptrs)
    {q : ℕ} {i : Fin (D.n k)} {y : PktState} (hy : D.Built s k q i y)
    (hq : (D.plan k).owner q = c) : y.subOp = ptrs i :=
  Worker.indexIn_inj hy.lt hy.group (h.lt i) (h.group i)
    (hy.index.trans (hq.trans (h.index i).symm))

theorem Lanes.Numbered.gives {c : ℕ} {ptrs : Fin (D.n k) → ℕ} (h : D.Numbered s k c ptrs)
    (hjoint : Cluster.Joint D s) (i : Fin (D.n k)) :
    (D.plan k).Gives i c ((s.host (D.worker k i)).worker.subOp (ptrs i)) := by
  obtain ⟨f, hf⟩ := hjoint.lanes k
  have hgives := hf.share i (ptrs i) (h.lt i) (h.group i)
  have hindex := h.index i
  rw [Lanes.gid] at hindex
  rwa [hindex] at hgives

/-- When a sub-op is answered on one rank, all ranks have the one of its number. -/
theorem Cluster.Joint.numbered (h : Cluster.Joint D s) (hagrees : s.Agrees D k) {j : Fin (D.n k)}
    {ptr : ℕ} (hptr : ptr ∈ pushed (s.host (D.worker k j)).log)
    (hgroup : (s.host (D.worker k j)).worker.groupOf ptr = D.gid k) :
    ∃ ptrs, D.Numbered s k ((s.host (D.worker k j)).worker.indexIn (D.gid k) ptr) ptrs ∧
      ptrs j = ptr := by
  obtain ⟨ctx, aggLen, hkeeps⟩ := h.workers (D.worker k j)
  obtain ⟨_, _, _, _, hinv⟩ := hkeeps.serving.inv
  obtain ⟨x, hx, rfl, hdata, -⟩ := hinv.accepted_block hptr (pktCount_pos _)
  obtain ⟨q, hindex, -, hall, -⟩ := h.answered_block hagrees hx hgroup hdata
  choose y hy using hall
  have hnum : D.Numbered s k ((s.host (D.worker k j)).worker.indexIn (D.gid k) x.1.subOp)
      fun i => (y i).subOp :=
    ⟨fun i => (hy i).lt, fun i => (hy i).group, fun i => (hy i).index.trans hindex.symm⟩
  refine ⟨_, hnum, Worker.indexIn_inj (hy j).lt (hy j).group ?_ hgroup
    ((hy j).index.trans hindex.symm)⟩
  obtain ⟨p, hp, heq⟩ := hinv.accepted_built hx
  rw [heq]
  exact (hinv.cursor.header p hp).2.1

section Answered

variable {c : ℕ} {ptrs : Fin (D.n k) → ℕ} {j : Fin (D.n k)}

/-- **One block**: the response that was accepted for it, and the packets of all ranks. -/
theorem Lanes.Numbered.block (h : D.Numbered s k c ptrs) (hjoint : Cluster.Joint D s)
    (hagrees : s.Agrees D k) (hbuf : Buffers (given (D.worker k j)) (s.host (D.worker k j)))
    (hptr : ptrs j ∈ (s.host (D.worker k j)).worker.qp.cq) {m : ℕ}
    (hm : m < pktCount ((s.host (D.worker k j)).worker.subOp (ptrs j)))
    (hrx : needRx ((s.host (D.worker k j)).worker.subOp (ptrs j)).op = true) :
    ∃ fr : Frame, ∃ q size, (D.plan k).place q = m ∧
      size = min payloadSize ((D.plan k).size c - m * payloadSize) ∧
      (∀ b < size, (s.host (D.worker k j)).worker.mem
          (((s.host (D.worker k j)).worker.subOp (ptrs j)).data + m * payloadSize + b) =
        keptBytes ((s.host (D.worker k j)).worker.subOp (ptrs j)).op fr.payload size b) ∧
      (∀ i, ∃ y, D.Built s k q i y ∧ y.subOp = ptrs i ∧ y.size = size) ∧
      Sums (D.contribution s k) q (payloadOf fr.payload) := by
  obtain ⟨ctx, aggLen, hkeeps⟩ := hjoint.workers (D.worker k j)
  obtain ⟨_, _, _, _, hinv⟩ := hkeeps.serving.inv
  obtain ⟨x, hx, hsub, hdata, hsize, hmem⟩ := hbuf.block hinv hptr hm hrx
  rw [← hsub] at hdata
  obtain ⟨q, hindex, hplace, hall, hsums⟩ := hjoint.answered_block hagrees hx
    (by rw [hsub]; exact h.group j) hdata
  have howner : (D.plan k).owner q = c := by
    rw [← hindex, hsub]
    exact h.index j
  rw [(h.gives hjoint j).size] at hsize
  refine ⟨x.2, q, x.1.size, hplace, hsize, hmem, fun i => ?_, hsums (by rw [hsub]; exact hrx)⟩
  obtain ⟨y, hy⟩ := hall i
  refine ⟨y, hy, h.subOp_eq hy howner, ?_⟩
  rw [hy.size, howner, hplace, hsize]

/-- The packet that covers byte `o` of a sub-op. -/
theorem div_lt_pktCount {t : SubOp} {o : ℕ} (ho : o < t.size) : o / payloadSize < pktCount t := by
  have hle := size_le_pktCount t
  exact Nat.div_lt_of_lt_mul (by rw [Nat.mul_comm]; omega)

theorem Lanes.contribution_built {q : ℕ} {i : Fin (D.n k)} {y : PktState}
    (hy : D.Built s k q i y) : D.contribution s k i q = (packetOf y.pkt).payload := by
  rw [Lanes.contribution, hy.built]
  rfl

/-- **The integers of an answered sub-op.** -/
theorem Lanes.Numbered.words (h : D.Numbered s k c ptrs) (hjoint : Cluster.Joint D s)
    (hagrees : s.Agrees D k)
    (hbuf : ∀ i, Buffers (given (D.worker k i)) (s.host (D.worker k i)))
    (hptr : ptrs j ∈ (s.host (D.worker k j)).worker.qp.cq)
    (hrx : needRx ((s.host (D.worker k j)).worker.subOp (ptrs j)).op = true)
    (hred : ((s.host (D.worker k j)).worker.subOp (ptrs j)).op.reduces = true) {v : ℕ}
    (hv : 4 * v < ((s.host (D.worker k j)).worker.subOp (ptrs j)).size) :
    (hostWord (fun o => (s.host (D.worker k j)).worker.mem
        (((s.host (D.worker k j)).worker.subOp (ptrs j)).data + o)) v).toInt =
      ∑ i, if needTx ((s.host (D.worker k i)).worker.subOp (ptrs i)).op then
        (hostWord (given (D.worker k i) (ptrs i)) v).toInt else 0 := by
  have hpayload : payloadSize = 256 := rfl
  have hwhole := (hbuf j).whole _ (h.lt j) hred
  have hsize_j := (h.gives hjoint j).size
  have hm := div_lt_pktCount hv
  have hdiv : 4 * v / payloadSize = v / 64 := by
    rw [hpayload]
    omega
  rw [hdiv] at hm
  obtain ⟨fr, q, size, hplace, hsize, hmem, hall, hsums⟩ :=
    h.block hjoint hagrees (hbuf j) hptr hm hrx
  rw [← hsize_j, hpayload] at hsize
  rw [hpayload] at hmem
  have hlt : v % 64 < size / 4 := by omega
  have hsplit : 64 * (v / 64) + v % 64 = v := Nat.div_add_mod v 64
  let x : Fin 64 := ⟨v % 64, Nat.mod_lt _ (by decide)⟩
  calc (hostWord (fun o => (s.host (D.worker k j)).worker.mem
        (((s.host (D.worker k j)).worker.subOp (ptrs j)).data + o)) v).toInt
      = (hostWord (fun b => (s.host (D.worker k j)).worker.mem
          (((s.host (D.worker k j)).worker.subOp (ptrs j)).data + (4 * (64 * (v / 64)) + b)))
          (v % 64)).toInt := by
        rw [hostWord_add (fun o => (s.host (D.worker k j)).worker.mem
          (((s.host (D.worker k j)).worker.subOp (ptrs j)).data + o)), hsplit]
    _ = (hostWord (keptBytes ((s.host (D.worker k j)).worker.subOp (ptrs j)).op fr.payload size)
          (v % 64)).toInt := by
        have hbyte : ∀ b < size, (s.host (D.worker k j)).worker.mem
            (((s.host (D.worker k j)).worker.subOp (ptrs j)).data + (4 * (64 * (v / 64)) + b)) =
          keptBytes ((s.host (D.worker k j)).worker.subOp (ptrs j)).op fr.payload size b := by
          intro b hb
          rw [← hmem b hb]
          congr 1
          omega
        rw [hostWord, hostWord, hbyte _ (by omega), hbyte _ (by omega), hbyte _ (by omega),
          hbyte _ (by omega)]
    _ = (word (payloadOf fr.payload) x).toInt := by
        rw [keptBytes, if_pos hred, (netWord_memcpyBe32 _ _ hlt).2, word_payloadOf]
    _ = ∑ i, (word (D.contribution s k i q) x).toInt := hsums x
    _ = _ := by
        refine Finset.sum_congr rfl fun i _ => ?_
        obtain ⟨y, hy, hsub, hysize⟩ := hall i
        have hred_i : ((s.host (D.worker k i)).worker.subOp y.subOp).op.reduces = true := by
          rw [← hred, hsub, Op.reduces, Op.reduces, (h.gives hjoint i).opCode,
            (h.gives hjoint j).opCode]
        rw [Lanes.contribution_built hy, hy.word_reduces (hbuf i) hred_i (by rw [hysize]; exact hlt),
          hsub, hplace, hsplit]
        split <;> rfl

/-- **The bytes of an answered sub-op**, when only one rank sends. -/
theorem Lanes.Numbered.bytes (h : D.Numbered s k c ptrs) (hjoint : Cluster.Joint D s)
    (hagrees : s.Agrees D k)
    (hbuf : ∀ i, Buffers (given (D.worker k i)) (s.host (D.worker k i)))
    (hptr : ptrs j ∈ (s.host (D.worker k j)).worker.qp.cq)
    (hrx : needRx ((s.host (D.worker k j)).worker.subOp (ptrs j)).op = true)
    (hred : ((s.host (D.worker k j)).worker.subOp (ptrs j)).op.reduces = false) {a : Fin (D.n k)}
    (htx : ∀ i, needTx ((s.host (D.worker k i)).worker.subOp (ptrs i)).op = decide (i = a)) {o : ℕ}
    (ho : o < ((s.host (D.worker k j)).worker.subOp (ptrs j)).size) :
    (s.host (D.worker k j)).worker.mem
        (((s.host (D.worker k j)).worker.subOp (ptrs j)).data + o) =
      given (D.worker k a) (ptrs a) o := by
  have hpayload : payloadSize = 256 := rfl
  have hsize_j := (h.gives hjoint j).size
  obtain ⟨fr, q, size, hplace, hsize, hmem, hall, hsums⟩ :=
    h.block hjoint hagrees (hbuf j) hptr (div_lt_pktCount ho) hrx
  rw [← hsize_j] at hsize
  have hlt : o % payloadSize < size := by
    rw [hpayload] at hsize ⊢
    omega
  have hred_i : ∀ i, ((s.host (D.worker k i)).worker.subOp (ptrs i)).op.reduces = false := by
    intro i
    rw [← hred, Op.reduces, Op.reduces, (h.gives hjoint i).opCode, (h.gives hjoint j).opCode]
  obtain ⟨y, hy, hsub, hysize⟩ := hall a
  -- the words are those of the one rank that sends
  have hwords : ∀ x : Fin 64, netWord fr.payload x = netWord (fun b => if b < y.size then
      given (D.worker k a) (ptrs a) (o / payloadSize * payloadSize + b) else 0) x := by
    intro x
    have hone : ∀ i, (word (D.contribution s k i q) x).toInt = if i = a then
        (netWord (fun b => if b < y.size then
          given (D.worker k a) (ptrs a) (o / payloadSize * payloadSize + b) else 0) x).toInt
        else 0 := by
      intro i
      obtain ⟨z, hz, hzsub, hzsize⟩ := hall i
      rw [Lanes.contribution_built hz, hz.word_copies (hbuf i) (by rw [hzsub]; exact hred_i i), hzsub,
        htx i, hplace]
      by_cases hi : i = a
      · subst hi
        rw [if_pos (decide_eq_true rfl), if_pos rfl, hzsize, hysize]
      · rw [if_neg (by rw [decide_eq_false hi]; decide), if_neg hi]
        rfl
    refine BitVec.eq_of_toInt_eq ?_
    rw [← word_payloadOf, hsums x, Finset.sum_congr rfl fun i _ => hone i, Finset.sum_ite_eq',
      if_pos (Finset.mem_univ a)]
  have hx : o % payloadSize / 4 < 64 := by
    rw [hpayload]
    omega
  have hbyte := netWord_inj (hwords ⟨o % payloadSize / 4, hx⟩) (o % payloadSize % 4)
    (Nat.mod_lt _ (by decide))
  rw [Nat.div_add_mod] at hbyte
  have hsplit := Nat.div_add_mod' o payloadSize
  have hkept := hmem _ hlt
  rw [Nat.add_assoc, hsplit, keptBytes, hred, if_neg Bool.false_ne_true, hbyte, hysize, if_pos hlt,
    hsplit] at hkept
  exact hkept

end Answered

/-! ## 4. Runs -/

/-- What is assumed besides: the other threads of the hosts leave the buffers alone. -/
structure Lanes.Undisturbed (D : Lanes W K) (given : W → ℕ → ℕ → Backend.Byte) (s : Cluster W)
    (a : Cluster.Action W) : Prop extends D.Promised s a where
  buffers : ∀ w l, a = .host w l → NetCCL.Undisturbed (given w) (s.host w) l

variable [DecidableEq W]

end NetCCL
