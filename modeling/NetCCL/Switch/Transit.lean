/-
# Traffic that is not INC

The switch also carries ordinary IPv4 traffic.  Such a packet crosses both pipelines with an
internal header in front, which is gone when it leaves; the egress pipeline may mark it, and
computes its checksum anew in any case.

**The residual, exactly.**  `EgressChecksum` adds up the fixed 20 bytes of the IP header.  The
options of a longer header stay in the packet but not in the sum, so a copy is correct when,
and only when, the options add up to zero (`transit_intact_iff`); a packet without options
always is.  `transit_options_fails` is a packet with the router alert option.
-/
import NetCCL.Switch.Pipeline

namespace NetCCL.Switch

open Lib

/-! ## 1. IPv4 frames -/

/-- The header checksum of an IPv4 header with options is correct. -/
def HeaderCorrect (ip : Ip) (options : List Byte) : Prop :=
  Verifies (wordsOf (ipLayout.emit ip ++ options))

instance (ip : Ip) (options : List Byte) : Decidable (HeaderCorrect ip options) :=
  inferInstanceAs (Decidable (Verifies _))

/-- A frame with an IPv4 packet: version 4, and a header as long as it says. -/
structure Ipv4Frame where
  eth : Eth
  ip : Ip
  options : List Byte
  payload : List Byte
  isIp : eth.protocol = ipProtocol
  version : ip.verHl.extractLsb' 4 4 = 4
  headerLength : 20 + options.length = 4 * (ip.verHl.extractLsb' 0 4).toNat

namespace Ipv4Frame

/-- The bytes of a frame with another IP header. -/
def bytesWith (f : Ipv4Frame) (ip : Ip) : List Byte :=
  ethLayout.emit f.eth ++ (ipLayout.emit ip ++ (f.options ++ f.payload))

def bytes (f : Ipv4Frame) : List Byte := f.bytesWith f.ip

/-- What `IngressParser` recognises as an INC packet. -/
def IsNetccl (f : Ipv4Frame) : Prop :=
  f.ip.protocol = netcclProtocol ∧
    (f.ip.length = lengthWithPayload ∨ f.ip.length = lengthWithoutPayload)

/-- The bytes are those of the frame but for the two ECN bits and the checksum. -/
def Resembles (f : Ipv4Frame) (ip : Ip) : Prop :=
  ∃ (ecn : BitVec 2) (checksum : BitVec 16),
    ip = { f.ip with dscpEcn := f.ip.dscpEcn.extractLsb' 2 6 ++ ecn, checksum }

/-- **An intact copy**: the bytes of the frame but for the ECN bits and the checksum, with
nothing in front, and a correct header again. -/
def Intact (f : Ipv4Frame) (out : List Byte) : Prop :=
  ∃ ip, out = f.bytesWith ip ∧ f.Resembles ip ∧ HeaderCorrect ip f.options

/-- **The frame crosses the switch intact**, from a server port: the registers stay as they
are, and whatever `wred` says, every copy is intact. -/
def CrossesIntact (m : Match) (regs : Regs) (f : Ipv4Frame) : Prop :=
  ∃ bs copies, ingressPass m regs false f.bytes = some (regs, bs, copies) ∧
    ∀ c ∈ copies, ∀ wred, ∃ out, egressPass m c.rid wred bs = some out ∧ f.Intact out

/-! ## 2. The checksum of a header with options -/

/-- The words of the fixed part: the listed fields, and the checksum. -/
theorem natSum_ip (ip : Ip) :
    natSum (wordsOf (ipLayout.emit ip)) = natSum ip.fields + ip.checksum.toNat := by
  have hword : ∀ x : BitVec 16, x.extractLsb' 8 8 ++ x.extractLsb' 0 8 = x := by
    intro x
    exact BitVec.extractLsb'_append_extractLsb'
  have hemit : wordsOf (ipLayout.emit ip) =
      ([ip.verHl ++ ip.dscpEcn, ip.length.extractLsb' 8 8 ++ ip.length.extractLsb' 0 8,
        ip.id.extractLsb' 8 8 ++ ip.id.extractLsb' 0 8,
        ip.flagOffset.extractLsb' 8 8 ++ ip.flagOffset.extractLsb' 0 8, ip.ttl ++ ip.protocol,
        ip.checksum.extractLsb' 8 8 ++ ip.checksum.extractLsb' 0 8,
        (ip.sip.extractLsb' 16 16).extractLsb' 8 8 ++ (ip.sip.extractLsb' 16 16).extractLsb' 0 8,
        (ip.sip.extractLsb' 0 16).extractLsb' 8 8 ++ (ip.sip.extractLsb' 0 16).extractLsb' 0 8,
        (ip.dip.extractLsb' 16 16).extractLsb' 8 8 ++ (ip.dip.extractLsb' 16 16).extractLsb' 0 8,
        (ip.dip.extractLsb' 0 16).extractLsb' 8 8 ++ (ip.dip.extractLsb' 0 16).extractLsb' 0 8] :
        List Word) := rfl
  rw [hemit]
  simp only [hword]
  simp only [Ip.fields, natSum_cons, natSum_nil]
  omega

/-- **What a checksum over the fixed part achieves** depends on the options only. -/
theorem headerCorrect_updateChecksum {ip : Ip} {options : List Byte}
    (hversion : ip.verHl.extractLsb' 4 4 = 4) :
    HeaderCorrect ip.updateChecksum options ↔ 2 ^ 16 - 1 ∣ natSum (wordsOf options) := by
  have hlen : (ipLayout.emit ip.updateChecksum).length % 2 = 0 := by
    rw [ipLayout.emit_length]
    rfl
  have hpos : 0 < natSum ip.fields := by
    have hhead : ip.verHl ≠ 0 := by
      intro h0
      rw [h0] at hversion
      exact absurd hversion (by decide)
    have hver : 0 < ip.verHl.toNat := Nat.pos_of_ne_zero fun h0 => hhead (BitVec.eq_of_toNat_eq h0)
    have hword : 0 < (ip.verHl ++ ip.dscpEcn).toNat := by
      rw [BitVec.toNat_append, Nat.shiftLeft_eq]
      exact Nat.lt_of_lt_of_le (Nat.mul_pos hver (by decide)) Nat.left_le_or
    rw [Ip.fields, natSum_cons]
    exact Nat.lt_of_lt_of_le hword (Nat.le_add_right _ _)
  refine verifies_with_checksum ?_ hpos
  rw [wordsOf_append hlen, natSum_append, natSum_ip]
  rfl

/-! ## 3. Crossing the switch -/

theorem bytes_eq (f : Ipv4Frame) (ip : Ip) :
    f.bytesWith ip = Headers.emit ⟨none, f.eth, some ip, none, none⟩ ++ (f.options ++ f.payload) := by
  simp [bytesWith, Headers.emit]

/-- Marking sets the ECN bits, or leaves them. -/
theorem dcqcn_resembles (f : Ipv4Frame) (wred : Bool) :
    f.Resembles (dcqcn wred f.ip).updateChecksum := by
  have hkeep : ∀ x : BitVec 8, x.extractLsb' 2 6 ++ x.extractLsb' 0 2 = x := by decide
  have hmark : ∀ x : BitVec 8, x.extractLsb' 2 6 ++ (3 : BitVec 2) = x ||| 3 := by decide
  unfold dcqcn
  split
  · exact ⟨f.ip.dscpEcn.extractLsb' 0 2, _, by rw [hkeep]; rfl⟩
  · split
    · exact ⟨3, _, by rw [hmark]; rfl⟩
    · exact ⟨f.ip.dscpEcn.extractLsb' 0 2, _, by rw [hkeep]; rfl⟩

/-- What leaves the switch, for every copy. -/
theorem egressPass_bytes (m : Match) (f : Ipv4Frame) (rid : BitVec 16) (wred : Bool) :
    egressPass m rid wred
      (Headers.emit ⟨some ⟨invalidPasscnt, false⟩, f.eth, some f.ip, none, none⟩ ++
        (f.options ++ f.payload)) =
      some (f.bytesWith (dcqcn wred f.ip).updateChecksum) := by
  rw [egressPass_ipv4 m (f.options ++ f.payload) f.isIp, f.bytes_eq]

theorem bytesWith_inj {f : Ipv4Frame} {ip ip' : Ip} (h : f.bytesWith ip = f.bytesWith ip') :
    ip = ip' := by
  have hip := List.append_cancel_left h
  have hread := ipLayout.extract_emit ip (f.options ++ f.payload)
  rw [hip, ipLayout.extract_emit] at hread
  exact ((Prod.mk.inj (Option.some.inj hread)).1).symm

/-- **Traffic that is not INC crosses the switch intact exactly when its options add up to
zero**, or it is not forwarded at all.  In any case no register changes, and every copy
resembles the frame. -/
theorem transit_intact_iff (m : Match) (regs : Regs) (f : Ipv4Frame) (hother : ¬ f.IsNetccl) :
    (f.CrossesIntact m regs ↔ 2 ^ 16 - 1 ∣ natSum (wordsOf f.options) ∨
      m.copies (m.l2Forward f.eth.dmac) = []) ∧
    ∃ bs, ingressPass m regs false f.bytes =
        some (regs, bs, m.copies (m.l2Forward f.eth.dmac)) ∧
      ∀ rid wred, ∃ ip, egressPass m rid wred bs = some (f.bytesWith ip) ∧ f.Resembles ip := by
  have hin : ingressPass m regs false f.bytes = some (regs,
      Headers.emit ⟨some ⟨invalidPasscnt, false⟩, f.eth, some f.ip, none, none⟩ ++
        (f.options ++ f.payload), m.copies (m.l2Forward f.eth.dmac)) := by
    rw [bytes, f.bytes_eq]
    exact ingressPass_ipv4 m regs _ f.isIp hother
  have hout := egressPass_bytes m f
  have hversion : ∀ wred, (dcqcn wred f.ip).verHl = f.ip.verHl := by
    intro wred
    unfold dcqcn
    split
    · rfl
    · split <;> rfl
  refine ⟨⟨?_, ?_⟩, _, hin, fun rid wred => ⟨_, hout rid wred, f.dcqcn_resembles wred⟩⟩
  · rintro ⟨bs, copies, hpass, hall⟩
    obtain ⟨-, hrest⟩ := Prod.mk.inj (Option.some.inj (hin.symm.trans hpass))
    obtain ⟨rfl, rfl⟩ := Prod.mk.inj hrest
    rcases List.eq_nil_or_concat (m.copies (m.l2Forward f.eth.dmac)) with hnil | ⟨l, c, hc⟩
    · exact Or.inr hnil
    · left
      obtain ⟨out, hpass', ip, rfl, -, hok⟩ := hall c (by rw [hc]; simp) false
      have hip := bytesWith_inj (Option.some.inj ((hout c.rid false).symm.trans hpass'))
      rw [← hip] at hok
      exact (headerCorrect_updateChecksum ((hversion false).symm ▸ f.version)).mp hok
  · intro h
    refine ⟨_, _, hin, fun c hc wred => ⟨_, hout c.rid wred, _, rfl, f.dcqcn_resembles wred, ?_⟩⟩
    rcases h with hdvd | hnil
    · exact (headerCorrect_updateChecksum ((hversion wred).symm ▸ f.version)).mpr hdvd
    · rw [hnil] at hc
      exact absurd hc List.not_mem_nil

/-! ## 4. Two frames -/

/-- A switch that sends everything out of port 1. -/
def onePort : Match where
  metadataTable _ := none
  recirculateTable _ := none
  l2ForwardTable _ := .forward 1
  restoreTable _ _ := none
  restoreSmacTable _ := none
  restoreDmacTable _ := none
  mgid _ := []

/-- An empty UDP packet from 10.0.0.1 to 10.0.0.2, with or without the router alert option. -/
def udpFrame (verHl : Byte) (checksum : BitVec 16) (options : List Byte)
    (h : verHl.extractLsb' 4 4 = 4 := by decide)
    (h' : 20 + options.length = 4 * (verHl.extractLsb' 0 4).toNat := by decide) : Ipv4Frame where
  eth := ⟨2, 1, 0x0800⟩
  ip := ⟨verHl, 0, 28 + BitVec.ofNat 16 options.length, 1, 0, 64, 0x11, checksum, 0x0a000001,
    0x0a000002⟩
  options
  payload := [0, 1, 0, 2, 0, 8, 0, 0]
  isIp := rfl
  version := h
  headerLength := h'

def plainUdp : Ipv4Frame := udpFrame 0x45 0x66ce []
def routerAlert : Ipv4Frame := udpFrame 0x46 0xd1c5 [0x94, 0x04, 0, 0]

def blankRegs : Regs := ⟨fun _ => ⟨0, 0⟩, fun _ _ => ⟨0, 0⟩⟩

/-- **A header with the router alert option leaves the switch with a wrong checksum.** -/
theorem transit_options_fails : ¬ routerAlert.IsNetccl ∧
    HeaderCorrect routerAlert.ip routerAlert.options ∧
    ¬ routerAlert.CrossesIntact onePort blankRegs := by
  refine ⟨by unfold IsNetccl; decide, by decide +kernel, ?_⟩
  rintro ⟨bs, copies, hpass, hall⟩
  have hin : ingressPass onePort blankRegs false routerAlert.bytes = some (blankRegs,
      Headers.emit ⟨some ⟨invalidPasscnt, false⟩, routerAlert.eth, some routerAlert.ip, none, none⟩
        ++ (routerAlert.options ++ routerAlert.payload), [⟨1, 0⟩]) := by
    rw [bytes, bytes_eq]
    exact ingressPass_ipv4 onePort blankRegs _ rfl (by decide)
  obtain ⟨-, hrest⟩ := Prod.mk.inj (Option.some.inj (hin.symm.trans hpass))
  obtain ⟨rfl, rfl⟩ := Prod.mk.inj hrest
  obtain ⟨out, hout, ip, rfl, -, hok⟩ := hall ⟨1, 0⟩ (List.mem_singleton_self _) false
  rw [egressPass_bytes] at hout
  rw [← bytesWith_inj (Option.some.inj hout)] at hok
  exact absurd ((headerCorrect_updateChecksum rfl).mp hok) (by decide)

/-- A packet without options crosses the switch intact. -/
theorem transit_intact_plain : plainUdp.CrossesIntact onePort blankRegs :=
  (transit_intact_iff onePort blankRegs plainUdp (by unfold IsNetccl; decide)).1.mpr
    (Or.inl (by decide))

end Ipv4Frame

end NetCCL.Switch
