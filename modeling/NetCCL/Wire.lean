/-
# Host and switch agree on the wire format

The host writes its headers as packed C structs in little-endian memory and swaps the bytes of
every field (`htobe`); the switch parses bit fields in network order.  Payload words are
swapped for the ops that reduce, so that the switch adds numbers, and copied as they are for a
broadcast, where an odd number of bytes may remain.

`ingressParser_hostBytes` is the way out: whatever `fill_pkt` builds is parsed as INC, with the
fields and words meant.  `Round.stored` is the way back: the sums of the words, stored by
`rx_process_one`, are the sums of the host's integers -- or the root's bytes, as all others sent
zeros.
-/
import NetCCL.Backend.Malformed
import NetCCL.Switch.Headers
import Mathlib.Data.Finset.Powerset
import Mathlib.Data.Fintype.Basic

namespace NetCCL

open Lib Switch Backend

/-! ## 1. The host's side -/

/-- The bytes of an integer in little-endian memory. -/
def le16 (x : BitVec 16) : List Backend.Byte := [x.extractLsb' 0 8, x.extractLsb' 8 8]

def le32 (x : BitVec 32) : List Backend.Byte :=
  [x.extractLsb' 0 8, x.extractLsb' 8 8, x.extractLsb' 16 8, x.extractLsb' 24 8]

/-- `htobe` on a little-endian host. -/
def htobe16 (x : BitVec 16) : BitVec 16 := x.extractLsb' 0 8 ++ x.extractLsb' 8 8

def htobe32 (x : BitVec 32) : BitVec 32 :=
  x.extractLsb' 0 8 ++ (x.extractLsb' 8 8 ++ (x.extractLsb' 16 8 ++ x.extractLsb' 24 8))

/-- The parts of `netccl_prefill_pkt` that depend on the host; a MAC address is read in the
order of its bytes. -/
structure PrefillPkt where
  dstMac : BitVec 48
  srcMac : BitVec 48
  srcAddr : BitVec 32

/-- The Ethernet, IP and INC headers of a frame in memory: those prefilled by `main`, with the
fields that `fill_pkt` writes. -/
def hostHeader (pre : PrefillPkt) (switchIp : BitVec 32) (f : Frame) : List Backend.Byte :=
  Layout.be48.emit pre.dstMac ++ (Layout.be48.emit pre.srcMac ++ (le16 (htobe16 0x0800) ++
  ([0x45, f.typeOfService] ++ (le16 (htobe16 (BitVec.ofNat 16 (f.pktLen - 14))) ++
  (le16 (htobe16 0) ++ (le16 (htobe16 0x4000) ++ ([0x40, 0xfe] ++ (le16 (htobe16 0) ++
  (le32 (htobe32 pre.srcAddr) ++ (le32 (htobe32 switchIp) ++
  ([f.inc.collType, f.inc.groupId, f.inc.rank, f.inc.root] ++
  (le16 (htobe16 f.inc.aggAddr) ++ le32 (htobe32 f.inc.psn)))))))))))))

/-- The `pkt_len` bytes that the NIC sends. -/
def hostBytes (pre : PrefillPkt) (switchIp : BitVec 32) (f : Frame) : List Backend.Byte :=
  (hostHeader pre switchIp f ++ (List.range payloadSize).map f.payload).take f.pktLen

/-- The NIC pads to the shortest Ethernet frame. -/
def nicPad (bs : List Backend.Byte) : List Backend.Byte := bs ++ List.replicate (60 - bs.length) 0

/-- The headers in the words of the switch. -/
def hostEth (pre : PrefillPkt) : Eth := ⟨pre.dstMac, pre.srcMac, ipProtocol⟩

def hostIp (pre : PrefillPkt) (switchIp : BitVec 32) (f : Frame) : Ip :=
  ⟨0x45, f.typeOfService, BitVec.ofNat 16 (f.pktLen - 14), 0, 0x4000, 0x40, netcclProtocol, 0,
    pre.srcAddr, switchIp⟩

/-- Swapping bytes makes little-endian memory network order. -/
theorem le16_htobe16 (x : BitVec 16) : le16 (htobe16 x) = Layout.be16.emit x := by
  have h₀ : (htobe16 x).extractLsb' 0 8 = x.extractLsb' 8 8 := BitVec.extractLsb'_append_eq_right
  have h₁ : (htobe16 x).extractLsb' 8 8 = x.extractLsb' 0 8 := BitVec.extractLsb'_append_eq_left
  rw [le16, h₀, h₁]
  rfl

theorem le32_htobe32 (x : BitVec 32) : le32 (htobe32 x) = Layout.be32.emit x := by
  obtain ⟨h₃, h₂, h₁, h₀⟩ := Layout.extract_bytes (x.extractLsb' 0 8) (x.extractLsb' 8 8)
    (x.extractLsb' 16 8) (x.extractLsb' 24 8)
  have hbytes : le32 (htobe32 x) = [x.extractLsb' 24 8, x.extractLsb' 16 8, x.extractLsb' 8 8,
      x.extractLsb' 0 8] :=
    congrArg₂ List.cons h₀ (congrArg₂ List.cons h₁ (congrArg₂ List.cons h₂
      (congrArg₂ List.cons h₃ rfl)))
  rw [hbytes, Layout.be32_emit]

/-- **The two descriptions of the headers are one layout.** -/
theorem hostHeader_eq (pre : PrefillPkt) (switchIp : BitVec 32) (f : Frame) :
    hostHeader pre switchIp f =
      ethLayout.emit (hostEth pre) ++ (ipLayout.emit (hostIp pre switchIp f) ++
        netcclLayout.emit f.inc) := by
  simp only [hostHeader, le16_htobe16, le32_htobe32]
  rfl

/-! ## 2. Words -/

/-- Word `i` of some bytes: as an integer in little-endian memory, and as the switch reads
it. -/
def hostWord (b : ℕ → Backend.Byte) (i : ℕ) : BitVec 32 :=
  b (4 * i + 3) ++ (b (4 * i + 2) ++ (b (4 * i + 1) ++ b (4 * i)))

def netWord (b : ℕ → Backend.Byte) (i : ℕ) : BitVec 32 :=
  b (4 * i) ++ (b (4 * i + 1) ++ (b (4 * i + 2) ++ b (4 * i + 3)))

/-- `data(i)` of a payload. -/
def word (payload : Payload) (i : Fin 64) : BitVec 32 :=
  let pair := payload ⟨i / 2, by omega⟩
  if i.val % 2 = 0 then pair.agg0 else pair.agg1

/-- The payload in some bytes. -/
def payloadOf (b : ℕ → Backend.Byte) : Payload := fun k =>
  ⟨netWord b (2 * k), netWord b (2 * k + 1)⟩

theorem word_payloadOf (b : ℕ → Backend.Byte) (i : Fin 64) : word (payloadOf b) i = netWord b i := by
  unfold word payloadOf
  dsimp only
  split
  · congr 1
    omega
  · congr 1
    omega

theorem be32_emit_netWord (b : ℕ → Backend.Byte) (i : ℕ) : Layout.be32.emit (netWord b i) =
    [b (4 * i), b (4 * i + 1), b (4 * i + 2), b (4 * i + 3)] := by
  obtain ⟨h₃, h₂, h₁, h₀⟩ := Layout.extract_bytes (b (4 * i)) (b (4 * i + 1)) (b (4 * i + 2))
    (b (4 * i + 3))
  rw [Layout.be32_emit]
  exact congrArg₂ List.cons h₃ (congrArg₂ List.cons h₂ (congrArg₂ List.cons h₁
    (congrArg₂ List.cons h₀ rfl)))

/-- **The payload of a frame, in the words of the switch.** -/
theorem payloadLayout_emit (b : ℕ → Backend.Byte) :
    payloadLayout.emit (payloadOf b) = (List.range payloadSize).map b := by
  refine Layout.table_emit _ 32 (fun k => (⟨netWord b (2 * k), netWord b (2 * k + 1)⟩ : AggPair)) b
    fun k => ?_
  have hpair : ∀ x y : BitVec 32, ((Layout.be32.pair Layout.be32).iso
      (fun p => (⟨p.1, p.2⟩ : AggPair)) (fun p => (p.agg0, p.agg1))
      fun _ => rfl).emit ⟨x, y⟩ = Layout.be32.emit x ++ Layout.be32.emit y := fun _ _ => rfl
  have heven : 4 * (2 * k) = k * 8 := by omega
  have hodd : 4 * (2 * k + 1) = k * 8 + 4 := by omega
  rw [hpair, be32_emit_netWord, be32_emit_netWord, heven, hodd]
  rfl

/-- A payload is determined by its bytes. -/
theorem payloadOf_eq {payload : Payload} {b : ℕ → Backend.Byte}
    (h : (List.range payloadSize).map b = payloadLayout.emit payload) : payloadOf b = payload := by
  have hread := payloadLayout.extract_emit (payloadOf b) []
  rw [payloadLayout_emit, h, payloadLayout.extract_emit] at hread
  exact ((Prod.mk.inj (Option.some.inj hread)).1).symm

/-- A receiver reads the bytes of a payload. -/
theorem map_getD_emit (payload : Payload) :
    (List.range payloadSize).map (fun j => (payloadLayout.emit payload).getD j 0) =
      payloadLayout.emit payload := by
  refine List.ext_getElem ?_ fun j hj hj' => ?_
  · rw [List.length_map, List.length_range, payloadLayout.emit_length]
    rfl
  · rw [List.getElem_map, List.getElem_range, List.getD_eq_getElem?_getD,
      List.getElem?_eq_getElem hj', Option.getD_some]

/-- Copying with swapped bytes turns integers into words, and words into integers. -/
theorem netWord_memcpyBe32 (dst src : ℕ → Backend.Byte) {size i : ℕ} (h : i < size / 4) :
    netWord (memcpyBe32 dst src size) i = hostWord src i ∧
      hostWord (memcpyBe32 dst src size) i = netWord src i := by
  have hbyte : ∀ k < 4, memcpyBe32 dst src size (4 * i + k) = src (4 * i + (3 - k)) := by
    intro k hk
    unfold memcpyBe32
    rw [if_pos (by omega)]
    congr 1
    omega
  have h₀ := hbyte 0 (by decide)
  have h₁ := hbyte 1 (by decide)
  have h₂ := hbyte 2 (by decide)
  have h₃ := hbyte 3 (by decide)
  simp only [Nat.add_zero, Nat.sub_zero, Nat.reduceSub] at h₀ h₁ h₂ h₃
  rw [netWord, netWord, hostWord, hostWord, h₀, h₁, h₂, h₃]
  exact ⟨rfl, rfl⟩

/-! ## 3. The way out -/

section Out

variable (pre : PrefillPkt) (switchIp : BitVec 32)

theorem hostHeader_length (f : Frame) : (hostHeader pre switchIp f).length = sizeofHeaders := by
  rw [hostHeader_eq, List.length_append, List.length_append, ethLayout.emit_length,
    ipLayout.emit_length, netcclLayout.emit_length]
  rfl

/-- A frame with a payload, at the switch. -/
theorem ingressParser_withPayload {f : Frame} (hlen : f.pktLen = sizeofNetcclPkt) :
    ingressParser false (nicPad (hostBytes pre switchIp f)) =
      some (⟨some ⟨1, false⟩, hostEth pre, some (hostIp pre switchIp f), some f.inc,
        some (payloadOf f.payload)⟩, []) := by
  have hsize : (hostHeader pre switchIp f ++ (List.range payloadSize).map f.payload).length =
      f.pktLen := by
    rw [List.length_append, hostHeader_length, List.length_map, List.length_range, hlen]
    rfl
  have hpad : 60 - sizeofNetcclPkt = 0 := by decide
  have hemit : Headers.emit ⟨none, hostEth pre, some (hostIp pre switchIp f), some f.inc,
      some (payloadOf f.payload)⟩ =
        hostHeader pre switchIp f ++ payloadLayout.emit (payloadOf f.payload) := by
    rw [hostHeader_eq, Headers.emit_inc, List.append_assoc, List.append_assoc]
  have hbytes : nicPad (hostBytes pre switchIp f) =
      Headers.emit ⟨none, hostEth pre, some (hostIp pre switchIp f), some f.inc,
        some (payloadOf f.payload)⟩ ++ [] := by
    rw [hemit, payloadLayout_emit, hostBytes, List.take_of_length_le (Nat.le_of_eq hsize), nicPad,
      hsize, hlen, hpad]
    rfl
  rw [hbytes]
  refine ingressParser_inc [] rfl rfl ?_
  rw [hostIp, hlen]
  rfl

/-- A frame without one: the parser skips the padding. -/
theorem ingressParser_withoutPayload {f : Frame} (hlen : f.pktLen = sizeofHeaders) :
    ingressParser false (nicPad (hostBytes pre switchIp f)) =
      some (⟨some ⟨1, false⟩, hostEth pre, some (hostIp pre switchIp f), some f.inc,
        some fun _ => ⟨0, 0⟩⟩, []) := by
  have hsize := hostHeader_length pre switchIp f
  have hbytes : nicPad (hostBytes pre switchIp f) =
      Headers.emit ⟨none, hostEth pre, some (hostIp pre switchIp f), some f.inc, none⟩ ++
        List.replicate 16 0 := by
    rw [hostBytes, hlen, ← hsize, List.take_left, nicPad, hsize, hostHeader_eq]
    simp [Headers.emit, sizeofHeaders]
  rw [hbytes]
  refine ingressParser_incEmpty (List.replicate 16 0) rfl rfl ?_ (by simp)
  rw [hostIp, hlen]
  rfl

end Out

/-- The bytes a broadcast sends: the data block, padded with zeros. -/
def paddedBlock (mem : ℕ → Backend.Byte) (p : PktState) : ℕ → Backend.Byte := fun j =>
  if j < p.size then mem (p.data + j) else 0

/-- Word `i` of the host's data block, as an integer; zero behind its end. -/
def blockInt (mem : ℕ → Backend.Byte) (p : PktState) (i : ℕ) : BitVec 32 :=
  if i < p.size / 4 then hostWord (fun j => mem (p.data + j)) i else 0

/-- The word the switch should find. -/
def sentWord (mem : ℕ → Backend.Byte) (s : SubOp) (p : PktState) (i : ℕ) : BitVec 32 :=
  if needTx s.op then
    if s.op.reduces then blockInt mem p i else netWord (paddedBlock mem p) i
  else 0

theorem netWord_congr {b b' : ℕ → Backend.Byte} {i : ℕ}
    (h : ∀ k < 4, b (4 * i + k) = b' (4 * i + k)) : netWord b i = netWord b' i := by
  have h₀ := h 0 (by decide)
  rw [Nat.add_zero] at h₀
  rw [netWord, netWord, h₀, h 1 (by decide), h 2 (by decide), h 3 (by decide)]

/-- The bytes behind a word. -/
theorem netWord_inj {b b' : ℕ → Backend.Byte} {i : ℕ} (h : netWord b i = netWord b' i) :
    ∀ k < 4, b (4 * i + k) = b' (4 * i + k) := by
  have hemit := be32_emit_netWord b i
  rw [h, be32_emit_netWord] at hemit
  simp only [List.cons.injEq, and_true] at hemit
  obtain ⟨h₀, h₁, h₂, h₃⟩ := hemit
  intro k hk
  match k, hk with
  | 0, _ => exact h₀.symm
  | 1, _ => exact h₁.symm
  | 2, _ => exact h₂.symm
  | 3, _ => exact h₃.symm

/-- **The words `fill_pkt` writes.** -/
theorem netWord_fillPkt {mem : ℕ → Backend.Byte} {s : SubOp} {p : PktState}
    (htx : needTx s.op) (hwhole : s.op.reduces → 4 ∣ p.size) {i : ℕ} (hi : i < 64) :
    netWord (fillPkt mem s p).pkt.payload i = sentWord mem s p i := by
  have hsmall : payloadSize = 256 := rfl
  have hzero : netWord (fun _ => 0) i = 0 := by
    unfold netWord
    dsimp only
    decide
  rw [sentWord, if_pos htx, fillPkt, if_pos htx]
  dsimp only
  split
  · rename_i hred
    obtain ⟨m, hm⟩ := hwhole hred
    unfold blockInt
    split
    · rename_i hin
      rw [← (netWord_memcpyBe32 p.pkt.payload _ hin).1]
      refine netWord_congr fun k hk => ?_
      rw [if_neg (by omega)]
    · rw [← hzero]
      refine netWord_congr fun k hk => ?_
      rw [if_pos (by omega)]
  · refine netWord_congr fun k hk => ?_
    unfold paddedBlock memcpy
    split
    · rw [if_neg (by omega)]
    · rw [if_pos (by omega), if_pos (by omega)]

/-- **The way out.**  Whatever `fill_pkt` builds, padded by the NIC, the switch takes for an INC
packet, with the fields of the sub-op and the words of its data block. -/
theorem ingressParser_hostBytes (pre : PrefillPkt) (switchIp : BitVec 32)
    (mem : ℕ → Backend.Byte) {s : SubOp} {p : PktState} (hwhole : s.op.reduces → 4 ∣ p.size) :
    ∃ h payload,
      ingressParser false (nicPad (hostBytes pre switchIp (fillPkt mem s p).pkt)) = some (h, []) ∧
      h.internal = some ⟨1, false⟩ ∧
      h.netccl = some ⟨s.op.opCode.toByte, s.op.group.groupId, s.op.group.rank, s.op.root,
        BitVec.ofNat 16 (s.aggAddr + p.psn.toNat % s.aggLen), p.psn⟩ ∧
      h.payload = some payload ∧ ∀ i : Fin 64, word payload i = sentWord mem s p i := by
  have hinc : (fillPkt mem s p).pkt.inc = incHdr s p.psn := (fillPkt_cut mem s p).2.2
  rcases Bool.eq_false_or_eq_true (needTx s.op) with htx | htx
  · have hlen : (fillPkt mem s p).pkt.pktLen = sizeofNetcclPkt := by
      rw [fillPkt, if_pos htx]
    refine ⟨_, _, ingressParser_withPayload pre switchIp hlen, rfl, congrArg some hinc, rfl,
      fun i => ?_⟩
    rw [word_payloadOf]
    exact netWord_fillPkt htx hwhole i.isLt
  · have hlen : (fillPkt mem s p).pkt.pktLen = sizeofHeaders := by
      rw [fillPkt, htx]
      rfl
    refine ⟨_, _, ingressParser_withoutPayload pre switchIp hlen, rfl, congrArg some hinc, rfl,
      fun i => ?_⟩
    rw [sentWord, htx]
    unfold word
    dsimp only
    split <;> rfl

/-! ## 4. The way back -/

/-- The aggregators of a slot that takes one packet after the other. -/
def aggregateAll (first : Payload) (rest : List Payload) : Payload :=
  rest.foldl (fun regs payload k => (AggAction.aggregate.run (regs k) (payload k)).1) first

theorem word_aggregateAll (rest : List Payload) (first : Payload) (i : Fin 64) :
    word (aggregateAll first rest) i =
      rest.foldl (fun acc payload => satAdd acc (word payload i)) (word first i) := by
  unfold aggregateAll
  induction rest generalizing first with
  | nil => rfl
  | cons payload rest ih =>
    rw [List.foldl_cons, List.foldl_cons, ih]
    congr 1
    unfold word AggAction.run
    dsimp only
    split <;> rfl

/-- **One packet of a collective**, on all its ranks: the same op and root everywhere, and data
blocks of one size, made of whole integers if the op reduces. -/
structure Round (n : ℕ) where
  opCode : OpCode
  root : Fin n
  size : ℕ
  mem : Fin n → ℕ → Backend.Byte
  sub : Fin n → SubOp
  pkt : Fin n → PktState
  few : n ≤ 256
  op : ∀ r, (sub r).op.opCode = opCode
  rootByte : ∀ r, (sub r).op.root = BitVec.ofNat 8 root
  rankByte : ∀ r, (sub r).op.group.rank = BitVec.ofNat 8 r
  pktSize : ∀ r, (pkt r).size = size
  fits : size ≤ payloadSize
  whole : ∀ r, (sub r).op.reduces → 4 ∣ size

namespace Round

variable {n : ℕ} (R : Round n)

/-- What the switch finds in the packet of a rank. -/
def payload (r : Fin n) : Payload := fun k =>
  ⟨sentWord (R.mem r) (R.sub r) (R.pkt r) (2 * k),
    sentWord (R.mem r) (R.sub r) (R.pkt r) (2 * k + 1)⟩

theorem word_payload (r : Fin n) (i : Fin 64) :
    word (R.payload r) i = sentWord (R.mem r) (R.sub r) (R.pkt r) i := by
  unfold word payload
  dsimp only
  split
  · congr 1
    omega
  · congr 1
    omega

/-- Every subset of the ranks has sums that fit an `int32`. -/
def Fits : Prop := ∀ i, SubsetFits Finset.univ fun r => word (R.payload r) i

/-- The words of the slot when all ranks have arrived, in the order `first :: rest`. -/
def total (first : Fin n) (rest : List (Fin n)) : Payload :=
  aggregateAll (R.payload first) (rest.map R.payload)

/-- **The slot holds the sums**, whatever the order. -/
theorem word_total {R : Round n} (hfits : R.Fits) {first : Fin n} {rest : List (Fin n)}
    (hnodup : (first :: rest).Nodup) (hall : ∀ r, r ∈ first :: rest) (i : Fin 64) :
    (word (R.total first rest) i).toInt = ∑ r, (word (R.payload r) i).toInt := by
  have huniv : (first :: rest).toFinset = Finset.univ :=
    Finset.eq_univ_of_forall fun r => List.mem_toFinset.mpr (hall r)
  rw [total, word_aggregateAll, List.foldl_map,
    satAdd_foldl (by decide) (hfits i) (fun r _ => Finset.mem_univ r) hnodup, huniv]

/-- A rank byte identifies the rank. -/
theorem rankByte_inj (R : Round n) {r r' : Fin n}
    (h : BitVec.ofNat 8 r.val = BitVec.ofNat 8 r'.val) : r = r' := by
  have hnat := congrArg BitVec.toNat h
  have hr := r.isLt
  have hr' := r'.isLt
  have hfew := R.few
  rw [BitVec.toNat_ofNat, BitVec.toNat_ofNat, Nat.mod_eq_of_lt (by omega),
    Nat.mod_eq_of_lt (by omega)] at hnat
  exact Fin.ext hnat

/-- In a broadcast the root sends, and nobody else. -/
theorem needTx_broadcast {R : Round n} (hop : R.opCode = .broadcast) (r : Fin n) :
    needTx (R.sub r).op = decide (r = R.root) := by
  have hself : ((R.sub r).op.root == (R.sub r).op.group.rank) = decide (r = R.root) := by
    rw [R.rootByte, R.rankByte, Bool.eq_iff_iff, beq_iff_eq, decide_eq_true_eq]
    constructor
    · intro h
      exact (R.rankByte_inj h).symm
    · rintro rfl
      rfl
  rw [needTx, R.op, hop, hself]
  rfl

/-- The sums of a broadcast are the root's words. -/
theorem word_total_broadcast {R : Round n} (hop : R.opCode = .broadcast) (hfits : R.Fits)
    {first : Fin n} {rest : List (Fin n)} (hnodup : (first :: rest).Nodup)
    (hall : ∀ r, r ∈ first :: rest) (i : Fin 64) :
    word (R.total first rest) i = netWord (paddedBlock (R.mem R.root) (R.pkt R.root)) i := by
  have hred : (R.sub R.root).op.reduces = false := by
    rw [Op.reduces, R.op, hop]
    rfl
  have hother : ∀ r ∈ Finset.univ, r ≠ R.root → (word (R.payload r) i).toInt = 0 := by
    intro r _ hr
    rw [word_payload, sentWord, needTx_broadcast hop, decide_eq_false hr]
    rfl
  refine BitVec.eq_of_toInt_eq ?_
  rw [word_total hfits hnodup hall, Finset.sum_eq_single_of_mem _ (Finset.mem_univ _) hother,
    word_payload, sentWord, needTx_broadcast hop, decide_eq_true rfl, hred]
  rfl

/-- The payload a receiver finds, byte by byte, against the words of the slot. -/
theorem netWord_response {f : Frame} {total : Payload}
    (h : (List.range payloadSize).map f.payload = payloadLayout.emit total) {i : ℕ}
    (hi : i < 64) : netWord f.payload i = word total ⟨i, hi⟩ := by
  rw [← payloadOf_eq h, word_payloadOf]

end Round

/-- A frame that finds its packet unacked is copied to the packet's data block. -/
theorem rxProcessOne_mem {w : Worker} {f : Frame} (hpos : w.getPosition f ≠ invalidPosition)
    (h : w.window.hasAcked (w.getPosition f) = false) : (w.rxProcessOne f).1.mem =
      (w.copyPayload (w.window.ackedAt (w.getPosition f)) f).1.mem := by
  rcases rxProcessOne_cases w f with ⟨tos, hr⟩ | ⟨-, hat⟩
  · have hacks := rxProcessOne_acks hpos h
    rw [hr] at hacks
    exact absurd (h.symm.trans hacks) Bool.false_ne_true
  · exact hat.mem

/-- Reading what was written through a pointer. -/
theorem storeAt_add (mem : ℕ → Backend.Byte) (addr : ℕ)
    (copy : (ℕ → Backend.Byte) → ℕ → Backend.Byte) (j : ℕ) :
    storeAt mem addr copy (addr + j) = copy (fun i => mem (addr + i)) j := by
  rw [storeAt, if_pos (Nat.le_add_right _ _), Nat.add_sub_cancel_left]

/-- What a receiver has in the block of a packet: the words of the frame with their bytes
swapped, or its bytes. -/
theorem copyPayload_block {w : Worker} {p : PktState} (f : Frame)
    (hrx : needRx (w.subOp p.subOp).op) (j : ℕ) :
    (w.copyPayload p f).1.mem (p.data + j) =
      if (w.subOp p.subOp).op.reduces then
        memcpyBe32 (fun i => w.mem (p.data + i)) f.payload p.size j
      else memcpy (fun i => w.mem (p.data + i)) f.payload p.size j := by
  unfold Worker.copyPayload
  dsimp only
  rw [if_pos hrx]
  split
  · exact storeAt_add w.mem p.data (fun dst => memcpyBe32 dst f.payload p.size) j
  · exact storeAt_add w.mem p.data (fun dst => memcpy dst f.payload p.size) j

/-- The block of the packet a frame is for, once its words are those of the slot. -/
structure Stored {n : ℕ} (R : Round n) (r : Fin n) (p : PktState) (mem mem' : ℕ → Backend.Byte) :
    Prop where
  sums : needRx (R.sub r).op → (R.sub r).op.reduces → ∀ i < R.size / 4,
    (hostWord (fun j => mem' (p.data + j)) i).toInt = ∑ q,
      if needTx (R.sub q).op then (hostWord (fun j => R.mem q ((R.pkt q).data + j)) i).toInt else 0
  bytes : needRx (R.sub r).op → R.opCode = .broadcast → ∀ j < R.size,
    mem' (p.data + j) = R.mem R.root ((R.pkt R.root).data + j)
  beyond : ∀ addr, mem' addr ≠ mem addr → p.data ≤ addr ∧ addr < p.data + R.size

/-- **The way back.**  A rank that finds its packet unacked stores the sums of the integers, or
the root's bytes, and writes nothing beyond the block. -/
theorem Round.stored {n : ℕ} {R : Round n} (hfits : R.Fits) {first : Fin n} {rest : List (Fin n)}
    (hnodup : (first :: rest).Nodup) (hall : ∀ r, r ∈ first :: rest) {r : Fin n} {w : Worker}
    {f : Frame} (hpos : w.getPosition f ≠ invalidPosition)
    (hunacked : w.window.hasAcked (w.getPosition f) = false)
    (hop : (w.subOp (w.window.state (w.getPosition f)).subOp).op = (R.sub r).op)
    (hsize : (w.window.state (w.getPosition f)).size = R.size)
    (hf : (List.range payloadSize).map f.payload = payloadLayout.emit (R.total first rest)) :
    Stored R r (w.window.state (w.getPosition f)) w.mem (w.rxProcessOne f).1.mem := by
  have hmem := rxProcessOne_mem hpos hunacked
  have hsmall : payloadSize = 256 := rfl
  have hle := R.fits
  have hblock : needRx (R.sub r).op → ∀ j,
      (w.rxProcessOne f).1.mem ((w.window.state (w.getPosition f)).data + j) =
        let dst := fun i => w.mem ((w.window.state (w.getPosition f)).data + i)
        if (R.sub r).op.reduces then memcpyBe32 dst f.payload R.size j
        else memcpy dst f.payload R.size j := by
    intro hrx j
    rw [← hop] at hrx ⊢
    rw [hmem, ← hsize]
    exact copyPayload_block (p := w.window.ackedAt (w.getPosition f)) f hrx j
  refine ⟨fun hrx hred i hi => ?_, fun hrx hbroadcast j hj => ?_, fun addr hne => ?_⟩
  · have hi64 : i < 64 := by omega
    simp only [hblock hrx, if_pos hred]
    rw [(netWord_memcpyBe32 _ _ hi).2, netWord_response hf hi64, word_total hfits hnodup hall]
    refine Finset.sum_congr rfl fun q _ => ?_
    have hred' : (R.sub q).op.reduces = true := by
      rw [Op.reduces, R.op, ← R.op r]
      exact hred
    rw [R.word_payload, sentWord, hred']
    split
    · rw [if_pos rfl, blockInt, R.pktSize, if_pos hi]
    · rfl
  · have hred : (R.sub r).op.reduces = false := by
      rw [Op.reduces, R.op, hbroadcast]
      rfl
    have hi64 : j / 4 < 64 := by omega
    have hword := (netWord_response hf hi64).trans
      (word_total_broadcast hbroadcast hfits hnodup hall ⟨j / 4, hi64⟩)
    have hbyte := netWord_inj hword (j % 4) (Nat.mod_lt _ (by decide))
    rw [Nat.div_add_mod] at hbyte
    rw [hblock hrx j, hred, if_neg Bool.false_ne_true, memcpy, if_pos hj, hbyte, paddedBlock,
      R.pktSize, if_pos hj]
  · rw [hmem] at hne
    have hin := copyPayload_mem hne
    rw [← hsize]
    exact hin

/-! ## 5. The result -/

/-- **Host and switch agree on the wire format.**  The packets of all ranks are parsed as INC,
with the fields of their sub-ops and the words of their data blocks, all zero where
`need_tx` is false; and when the sums of these words come back, in whatever order they were
added, every receiver stores the sums of the integers, or the root's bytes, and nothing
beyond the block. -/
theorem wire_agrees {n : ℕ} (R : Round n) :
    (∀ r pre switchIp, ∃ h payload,
      ingressParser false (nicPad (hostBytes pre switchIp
        (fillPkt (R.mem r) (R.sub r) (R.pkt r)).pkt)) = some (h, []) ∧
      h.internal = some ⟨1, false⟩ ∧
      h.netccl = some ⟨R.opCode.toByte, (R.sub r).op.group.groupId, BitVec.ofNat 8 r,
        BitVec.ofNat 8 R.root,
        BitVec.ofNat 16 ((R.sub r).aggAddr + (R.pkt r).psn.toNat % (R.sub r).aggLen),
        (R.pkt r).psn⟩ ∧
      h.payload = some payload ∧
      ∀ i : Fin 64, word payload i = sentWord (R.mem r) (R.sub r) (R.pkt r) i) ∧
    (R.Fits → ∀ first rest, (first :: rest).Nodup → (∀ r, r ∈ first :: rest) →
      ∀ r (w : Worker) (f : Frame), w.getPosition f ≠ invalidPosition →
        w.window.hasAcked (w.getPosition f) = false →
        (w.subOp (w.window.state (w.getPosition f)).subOp).op = (R.sub r).op →
        (w.window.state (w.getPosition f)).size = R.size →
        (List.range payloadSize).map f.payload = payloadLayout.emit (R.total first rest) →
        Stored R r (w.window.state (w.getPosition f)) w.mem (w.rxProcessOne f).1.mem) := by
  refine ⟨fun r pre switchIp => ?_, fun hfits first rest hnodup hall r w f hpos hunacked hop hsize
    hf => Round.stored hfits hnodup hall hpos hunacked hop hsize hf⟩
  have hwhole : (R.sub r).op.reduces → 4 ∣ (R.pkt r).size := by
    rw [R.pktSize]
    exact R.whole r
  have h := ingressParser_hostBytes pre switchIp (R.mem r) hwhole
  rw [R.op, R.rankByte, R.rootByte] at h
  exact h

/-- Two ranks reduce one integer to rank 0: they have 5 and 7 at address 0. -/
def pairRound : Round 2 where
  opCode := .reduce
  root := ⟨0, Nat.two_pos⟩
  size := 4
  mem r j := if j = 0 then (if r.val = 0 then 5 else 7) else 0
  sub r := ⟨⟨.reduce, 0, 4, 0, ⟨1, 2, BitVec.ofNat 8 r, 0, 1024⟩⟩, 0, 4, 0, 1024⟩
  pkt _ := ⟨false, 0, 0, 4, 9, true, ⟨⟨0, 0, 0, 0, 0, 0⟩, 1, 0, fun _ => 0⟩⟩
  few := by decide
  op _ := rfl
  rootByte _ := rfl
  rankByte _ := rfl
  pktSize _ := rfl
  fits := by decide
  whole _ _ := ⟨1, rfl⟩

theorem pairRound_fits : pairRound.Fits := by
  have hsmall : ∀ i : Fin 64, ∀ t ∈ (Finset.univ : Finset (Fin 2)).powerset,
      0 ≤ ∑ r ∈ t, (word (pairRound.payload r) i).toInt ∧
        ∑ r ∈ t, (word (pairRound.payload r) i).toInt ≤ 12 := by decide +kernel
  intro i t ht
  obtain ⟨hlo, hhi⟩ := hsmall i t (Finset.mem_powerset.mpr ht)
  exact ⟨Int.le_trans (by simp) hlo, Int.lt_of_le_of_lt hhi (by simp)⟩

/-- Rank 0 before its sub-op. -/
def pairRoot : Run :=
  ⟨.init (pairRound.mem ⟨0, Nat.two_pos⟩) (fun _ => ⟨⟨0, 0, 0, 0, 0, 0⟩, 0, 0, fun _ => 0⟩)
    fun _ => 0, []⟩

/-- The answer to its packet. -/
def pairAnswer : Frame where
  inc := ⟨2, 1, 0, 0, 0, 0⟩
  typeOfService := 1
  pktLen := sizeofNetcclPkt
  payload j := (payloadLayout.emit (pairRound.total ⟨0, Nat.two_pos⟩ [⟨1, Nat.one_lt_two⟩])).getD j 0

/-- The switch finds the 7 of rank 1, and rank 0 stores it in the place of its 5. -/
theorem wire_agrees_pair : (∃ h payload, ingressParser false (nicPad (hostBytes ⟨1, 2, 3⟩ 4
      (fillPkt (pairRound.mem 1) (pairRound.sub 1) (pairRound.pkt 1)).pkt)) = some (h, []) ∧
    h.payload = some payload ∧ word payload 0 = 7) ∧
    ∃ r, pairRoot.exec (fun _ _ => true) [.pushReq (pairRound.sub 0), .loopTop 0, .endRx, .startTx,
        .sendOne, .sendOne, .congestion, .loopTop 1] = some r ∧
      (hostWord r.worker.mem 0).toInt = 5 ∧
      (hostWord (r.worker.rxProcessOne pairAnswer).1.mem 0).toInt = 7 := by
  obtain ⟨hout, hback⟩ := wire_agrees pairRound
  constructor
  · obtain ⟨h, payload, hparse, -, -, hpayload, hword⟩ := hout 1 ⟨1, 2, 3⟩ 4
    refine ⟨h, payload, hparse, hpayload, ?_⟩
    rw [hword]
    decide +kernel
  · have hrun : (pairRoot.exec (fun _ _ => true) [.pushReq (pairRound.sub 0), .loopTop 0, .endRx,
        .startTx, .sendOne, .sendOne, .congestion, .loopTop 1]).map (fun r =>
          decide (r.worker.getPosition pairAnswer = 0 ∧ r.worker.window.hasAcked 0 = false ∧
            (r.worker.window.state 0).subOp = 0 ∧ (r.worker.window.state 0).data = 0 ∧
            (r.worker.window.state 0).size = 4 ∧ (r.worker.subOp 0).op = (pairRound.sub 0).op ∧
            (hostWord r.worker.mem 0).toInt = 5)) = some true := by decide +kernel
    obtain ⟨r, hr, hview⟩ := Option.map_eq_some_iff.mp hrun
    obtain ⟨hpos, hunacked, hptr, hdata, hsize, hop, hfive⟩ := of_decide_eq_true hview
    have hstored := hback pairRound_fits 0 [1] (by decide) (by decide) 0 r.worker pairAnswer
      (by rw [hpos]; decide) (by rw [hpos]; exact hunacked) (by rw [hpos, hptr]; exact hop)
      (by rw [hpos]; exact hsize) (map_getD_emit _)
    have hsum := hstored.sums (by decide) (by decide) 0 (by decide)
    rw [hpos, hdata] at hsum
    refine ⟨r, hr, hfive, ?_⟩
    have htotal : ∑ q : Fin 2, (if needTx (pairRound.sub q).op then
        (hostWord (fun j => pairRound.mem q ((pairRound.pkt q).data + j)) 0).toInt else 0) = 7 := by
      decide +kernel
    rw [← htotal, ← hsum]
    simp only [Nat.zero_add]

end NetCCL
