/-
# The switch pipeline for INC packets

`switch/ingress.p4`, `aggregator.p4`, `forward.p4` and `egress.p4`, for the packets the
parser recognises as INC.  Such a packet crosses the pipeline twice: the FIRST pass updates
the slot its `agg_addr` names and reads the even words, and if the slot is then complete the
packet is recirculated for a SECOND pass, which reads the odd words and leaves for the
servers.

A slot is one entry of `reg_bitmap` -- a version and a bitmap of ranks -- together with the
32 pairs of aggregator words at the same address.  The bitmap, the version test, the ternary
match on the old bitmap and the prioritised action table are separate stages of the P4
program and separate definitions here; `ingress_first_agg` is what they come to for the words
of the slot, and the rest of the development cites it instead of the stages:

* the rank is new to an empty or overwritten slot: the words are OVERWRITTEN;
* the rank is new to the slot: the words are ADDED, saturating;
* the rank is in the slot already: the words are READ.

The registers have `REGISTER_LEN = 2^14` entries, while `agg_addr` has 16 bits.  They are
functions of the 16-bit address here: the controller hands out no address beyond the
registers (`slot_lt_registerLen`), so what an access past their end would do plays no part.
-/
import NetCCL.Lib.Words

namespace NetCCL.Switch

open Lib

/-! ## 1. Packets, registers and tables -/

/-- `agg_pair_t`. -/
structure AggPair where
  agg0 : BitVec 32
  agg1 : BitVec 32
  deriving DecidableEq

/-- `payload_t`: the 64 words, by the pairs that `AllAggregatorAccess` hands out -- pair `k`
is `data(2k)` and `data(2k+1)`. -/
abbrev Payload := Fin 32 → AggPair

/-- `COLL_TYPE_*`. -/
def collTypeAllreduce : BitVec 8 := 1
def collTypeReduce : BitVec 8 := 2
def collTypeBroadcast : BitVec 8 := 3

/-- `netccl_t`. -/
structure Netccl where
  collType : BitVec 8
  groupId : BitVec 8
  rank : BitVec 8
  root : BitVec 8
  aggAddr : BitVec 16
  psn : BitVec 32
  deriving DecidableEq

/-- `internal_t`. -/
structure Internal where
  passCnt : BitVec 8
  enableMulticast : Bool
  deriving DecidableEq

/-- An INC packet inside the switch: the headers the two controls read or write.  A packet
without a payload is given an all-zero one by the parser. -/
structure Packet where
  internal : Internal
  netccl : Netccl
  payload : Payload

/-- `bitmap_pair`. -/
structure BitmapPair where
  version : BitVec 32
  bitmap : BitVec 32
  deriving DecidableEq

/-- `REGISTER_LEN`. -/
def registerLen : ℕ := 16384

/-- The registers of the ingress pipeline; only the first `registerLen` addresses are there. -/
structure Regs where
  regBitmap : BitVec 16 → BitmapPair
  aggregatorArray : BitVec 16 → Payload

/-- The match tables the controller fills: `metadata_table` and `recirculate_table`, by group
id.  A miss is `none`. -/
structure Tables where
  metadataTable : BitVec 8 → Option (BitVec 32)
  recirculateTable : BitVec 8 → Option ℕ

/-! ## 2. The stages of the ingress control -/

/-- `set_version`: `group_id ++ psn[23:0]`. -/
def Netccl.version (h : Netccl) : BitVec 32 := h.groupId ++ h.psn.extractLsb' 0 24

theorem version_eq_iff {h₁ h₂ : Netccl} : h₁.version = h₂.version ↔
    h₁.groupId = h₂.groupId ∧ h₁.psn.extractLsb' 0 24 = h₂.psn.extractLsb' 0 24 := by
  constructor
  · intro h
    have hg := congrArg (BitVec.extractLsb' 24 8) h
    have hp := congrArg (BitVec.extractLsb' 0 24) h
    rw [Netccl.version, Netccl.version, BitVec.extractLsb'_append_eq_left,
      BitVec.extractLsb'_append_eq_left] at hg
    rw [Netccl.version, Netccl.version, BitVec.extractLsb'_append_eq_right,
      BitVec.extractLsb'_append_eq_right] at hp
    exact ⟨hg, hp⟩
  · rintro ⟨hg, hp⟩
    rw [Netccl.version, Netccl.version, hg, hp]

/-- `bitmap_table`: the bit of a rank; metadata is zero where no entry matches. -/
def bitmapTable (rank : BitVec 8) : BitVec 32 :=
  if rank.toNat < 32 then 1#32 <<< rank.toNat else 0#32

/-- `reg_bitmap_update`: the new register and the value it returns. -/
def regBitmapUpdate (version bitmap : BitVec 32) (reg : BitmapPair) : BitmapPair × BitVec 32 :=
  if reg.version = version then ({ reg with bitmap := reg.bitmap ||| bitmap }, reg.bitmap)
  else (⟨version, bitmap⟩, 0#32)

/-- `check_new_packet`: entry `k` matches a rank `k` whose bit is clear in `bitmap_old`. -/
def checkNewPacket (bitmapOld : BitVec 32) (rank : BitVec 8) : Bool :=
  decide (rank.toNat < 32) && bitmapOld &&& 1#32 <<< rank.toNat == 0#32

/-- The actions of the table `agg_action`. -/
inductive AggAction
  | overwrite
  | aggregate
  | read0
  | read1
  deriving DecidableEq

/-- The entries of `agg_action`, in their order of priority. -/
def aggAction (passCnt : BitVec 8) (firstPacket newPacket : Bool) : AggAction :=
  if passCnt = 2 then .read1
  else if firstPacket then .overwrite
  else if newPacket then .aggregate
  else .read0

/-- The register action behind each of them: the new register pair, and the packet's pair
with what the action wrote into it. -/
def AggAction.run (reg pkt : AggPair) : AggAction → AggPair × AggPair
  | .overwrite => (pkt, pkt)
  | .aggregate =>
    let reg := ⟨satAdd reg.agg0 pkt.agg0, satAdd reg.agg1 pkt.agg1⟩
    (reg, { pkt with agg0 := reg.agg0 })
  | .read0 => (reg, { pkt with agg0 := reg.agg0 })
  | .read1 => (reg, { pkt with agg1 := reg.agg1 })

/-- `ingress_metadata`, as far as the later stages read it. -/
structure Metadata where
  bitmapMask : BitVec 32
  bitmapOld : BitVec 32
  bitmapFlip : BitVec 32
  firstPacket : Bool
  newPacket : Bool
  deriving DecidableEq

/-- Where the ingress control sends a packet.  `l2Forward` stands for `l2_forward_table`,
which returns the packet to its sender: `set_dmac` has put the sender's address there. -/
inductive Verdict
  | drop
  | recirculate (port : ℕ)
  | multicast (group : BitVec 8)
  | l2Forward
  deriving DecidableEq

/-- `Forward.apply`: the verdict, and `enable_multicast` as it leaves it. -/
def forward (tbl : Tables) (h : Netccl) (i : Internal) (md : Metadata) : Verdict × Internal :=
  let full := md.bitmapOld = md.bitmapFlip ∨ md.bitmapOld = md.bitmapMask
  let verdict :=
    if i.passCnt = 2 ∧ i.enableMulticast = true then .multicast h.groupId
    else if i.passCnt = 1 then
      if full then (tbl.recirculateTable h.groupId).elim .drop .recirculate else .drop
    else .l2Forward
  (verdict, if i.passCnt = 1 ∧ full then { i with enableMulticast := md.newPacket } else i)

/-- `Ingress.apply` on an INC packet. -/
def ingress (tbl : Tables) (regs : Regs) (p : Packet) : Regs × Packet × Verdict :=
  let h := p.netccl
  let bitmapMask := (tbl.metadataTable h.groupId).getD 0#32
  let bitmap := bitmapTable h.rank
  let (slot, bitmapOld) :=
    if p.internal.passCnt = 1 then regBitmapUpdate h.version bitmap (regs.regBitmap h.aggAddr)
    else (regs.regBitmap h.aggAddr, 0#32)
  let md : Metadata :=
    { bitmapMask, bitmapOld, bitmapFlip := bitmap ^^^ bitmapMask
      firstPacket := bitmapOld == 0#32
      newPacket := checkNewPacket bitmapOld h.rank }
  let action := aggAction p.internal.passCnt md.firstPacket md.newPacket
  let agg := fun k => action.run (regs.aggregatorArray h.aggAddr k) (p.payload k)
  let (verdict, internal) := forward tbl h p.internal md
  ({ regBitmap := Function.update regs.regBitmap h.aggAddr slot
     aggregatorArray := Function.update regs.aggregatorArray h.aggAddr fun k => (agg k).1 },
    { p with internal, payload := fun k => (agg k).2 }, verdict)

/-! ## 3. The egress control -/

/-- A packet as a server receives it; a packet without a payload has `none`. -/
structure Response where
  netccl : Netccl
  payload : Option Payload

/-- `Egress.apply` after the first pass: the packet as it comes back on the recirculation
port. -/
def egressRecirculate (p : Packet) : Packet :=
  { p with internal.passCnt := p.internal.passCnt + 1 }

/-- `Egress.apply` after the second pass, for the copy with replication id `rid`.  A
multicast copy takes its rank from the replication id; REDUCE keeps the payload at the root
only, BROADCAST everywhere else. -/
def egressRespond (p : Packet) (rid : BitVec 8) : Response :=
  let h := if p.internal.enableMulticast then { p.netccl with rank := rid } else p.netccl
  let payload :=
    if h.collType = collTypeReduce then if h.rank = h.root then some p.payload else none
    else if h.collType = collTypeBroadcast then if h.rank = h.root then none else some p.payload
    else some p.payload
  ⟨h, payload⟩

/-! ## 4. What the first pass does to its slot -/

/-- The set of ranks in a slot. -/
def Regs.ranks (regs : Regs) (a : BitVec 16) : Finset ℕ := bits (regs.regBitmap a).bitmap

/-- The ranks the first pass finds: those of the slot, if it holds the packet's version. -/
def Regs.ranksAt (regs : Regs) (a : BitVec 16) (version : BitVec 32) : Finset ℕ :=
  if (regs.regBitmap a).version = version then regs.ranks a else ∅

/-- A first-pass packet: `pass_cnt` is 1, as the parser sets it on a server port. -/
def Packet.First (p : Packet) : Prop := p.internal.passCnt = 1

theorem bitmapTable_of_lt {rank : BitVec 8} (h : rank.toNat < 32) :
    bitmapTable rank = 1#32 <<< rank.toNat := if_pos h

/-- The value `reg_bitmap_update` returns is the bitmap of the ranks found. -/
theorem bits_regBitmapUpdate_old (regs : Regs) (a : BitVec 16) (v b : BitVec 32) :
    bits (regBitmapUpdate v b (regs.regBitmap a)).2 = regs.ranksAt a v := by
  simp only [regBitmapUpdate, Regs.ranksAt, Regs.ranks]
  split <;> simp

/-- The register it leaves has the packet's version, and the packet's rank besides those
found. -/
theorem regBitmapUpdate_reg (regs : Regs) (a : BitVec 16) (v b : BitVec 32) :
    (regBitmapUpdate v b (regs.regBitmap a)).1.version = v ∧
      bits (regBitmapUpdate v b (regs.regBitmap a)).1.bitmap = regs.ranksAt a v ∪ bits b := by
  simp only [regBitmapUpdate, Regs.ranksAt, Regs.ranks]
  split
  · exact ⟨‹_›, bits_or _ _⟩
  · exact ⟨rfl, by simp⟩

variable (tbl : Tables) (regs : Regs) {p : Packet}

/-- **The slot's version and ranks after a first pass.** -/
theorem ingress_first_slot (hp : p.First) (hr : p.netccl.rank.toNat < 32) :
    ((ingress tbl regs p).1.regBitmap p.netccl.aggAddr).version = p.netccl.version ∧
      (ingress tbl regs p).1.ranks p.netccl.aggAddr =
        insert p.netccl.rank.toNat (regs.ranksAt p.netccl.aggAddr p.netccl.version) := by
  have h := regBitmapUpdate_reg regs p.netccl.aggAddr p.netccl.version (bitmapTable p.netccl.rank)
  rw [bitmapTable_of_lt hr, bits_one_shiftLeft hr] at h
  have hpass : p.internal.passCnt = 1 := hp
  simp only [ingress, Regs.ranks, Function.update_self, if_pos hpass, bitmapTable_of_lt hr]
  refine ⟨h.1, h.2.trans ?_⟩
  rw [Finset.union_comm, ← Finset.insert_eq]

/-- **The frame.**  No pass touches a slot other than the one the packet names. -/
theorem ingress_frame {a : BitVec 16} (ha : a ≠ p.netccl.aggAddr) :
    (ingress tbl regs p).1.regBitmap a = regs.regBitmap a ∧
      (ingress tbl regs p).1.aggregatorArray a = regs.aggregatorArray a := by
  simp only [ingress]
  exact ⟨Function.update_of_ne ha _ _, Function.update_of_ne ha _ _⟩

/-- `md.new_packet`, by the ranks found. -/
theorem checkNewPacket_eq {rank : BitVec 8} (hr : rank.toNat < 32) (old : BitVec 32) :
    checkNewPacket old rank = decide (rank.toNat ∉ bits old) := by
  rw [checkNewPacket, decide_eq_true hr, Bool.true_and, Bool.eq_iff_iff, beq_iff_eq,
    decide_eq_true_eq, and_one_shiftLeft_eq_zero hr]

/-- On the first pass the table picks its action by the ranks found. -/
theorem aggAction_first {rank : BitVec 8} (hr : rank.toNat < 32) (old : BitVec 32) :
    aggAction 1 (old == 0#32) (checkNewPacket old rank) =
      if bits old = ∅ then .overwrite
      else if rank.toNat ∈ bits old then .read0 else .aggregate := by
  rw [aggAction, if_neg (by decide), checkNewPacket_eq hr]
  simp only [beq_iff_eq, bits_eq_empty, decide_eq_true_eq]
  split
  · rfl
  · rw [ite_not]

/-- **The words of the slot after a first pass**, and those the packet carries on. -/
theorem ingress_first_agg (hp : p.First) (hr : p.netccl.rank.toNat < 32) (k : Fin 32) :
    let found := regs.ranksAt p.netccl.aggAddr p.netccl.version
    let old := regs.aggregatorArray p.netccl.aggAddr k
    let new := (ingress tbl regs p).1.aggregatorArray p.netccl.aggAddr k
    let out := (ingress tbl regs p).2.1.payload k
    new = (if found = ∅ then p.payload k
        else if p.netccl.rank.toNat ∈ found then old
        else ⟨satAdd old.agg0 (p.payload k).agg0, satAdd old.agg1 (p.payload k).agg1⟩) ∧
      out = { p.payload k with agg0 := new.agg0 } := by
  have hpass : p.internal.passCnt = 1 := hp
  have haction := aggAction_first hr (regBitmapUpdate p.netccl.version
    (bitmapTable p.netccl.rank) (regs.regBitmap p.netccl.aggAddr)).2
  rw [bits_regBitmapUpdate_old] at haction
  simp only [ingress, Function.update_self, hpass, if_pos, haction]
  split
  · exact ⟨rfl, rfl⟩
  · split <;> exact ⟨rfl, rfl⟩

end NetCCL.Switch
