/-
# The pipeline around the INC controls

`ingress` and `egressRespond` are what the two controls do to an INC packet.  Here are the
same controls on whole headers, for every packet the parsers accept, and the parts around
them: addresses and lengths, the L2 table, the traffic manager that makes copies, the
restored addresses, ECN marking, and the IP checksum the egress deparser computes.

`ingressPass` and `egressPass` take bytes to bytes, as the hardware does.  The lemmas say what
they are on emitted headers; with them no later proof looks at a parser again.
-/
import NetCCL.Switch.Headers
import NetCCL.Lib.OnesComplement

namespace NetCCL.Switch

open Lib

/-! ## 1. Tables and the traffic manager -/

/-- The actions of `l2_forward_table`; `drop` is also its default. -/
inductive L2Action
  | forward (port : ℕ)
  | multicast (group : BitVec 16)
  | drop
  deriving DecidableEq

/-- A copy of a packet on its way to an egress port, with its replication id. -/
structure Copy where
  port : ℕ
  rid : BitVec 16
  deriving DecidableEq

/-- All match tables of the program, and the multicast groups of the traffic manager. -/
structure Match extends Tables where
  l2ForwardTable : BitVec 48 → L2Action
  restoreTable : BitVec 8 → BitVec 8 → Option (BitVec 32 × BitVec 32)
  restoreSmacTable : BitVec 32 → Option (BitVec 48)
  restoreDmacTable : BitVec 32 → Option (BitVec 48)
  mgid : BitVec 16 → List Copy

/-- What the ingress control tells the traffic manager. -/
structure Forwarding where
  dropCtl : Bool
  ucastEgressPort : Option ℕ
  mcastGrpA : Option (BitVec 16)

/-- The actions `drop`, `forward` and `multicast`. -/
def Forwarding.drop : Forwarding := ⟨true, none, none⟩
def Forwarding.forward (port : ℕ) : Forwarding := ⟨false, some port, none⟩
def Forwarding.multicast (group : BitVec 16) : Forwarding := ⟨false, none, some group⟩

/-- `l2_forward_table.apply`. -/
def Match.l2Forward (m : Match) (dmac : BitVec 48) : Forwarding :=
  match m.l2ForwardTable dmac with
  | .forward port => .forward port
  | .multicast group => .multicast group
  | .drop => .drop

/-- A verdict on an INC packet; `dmac` is its destination by then. -/
def Match.verdict (m : Match) (dmac : BitVec 48) : Verdict → Forwarding
  | .drop => .drop
  | .recirculate port => .forward port
  | .multicast group => .multicast (group.setWidth 16)
  | .l2Forward => m.l2Forward dmac

/-- The traffic manager: the copies a packet leaves the ingress pipeline in. -/
def Match.copies (m : Match) (f : Forwarding) : List Copy :=
  if f.dropCtl then []
  else (f.ucastEgressPort.map fun port => ⟨port, 0⟩).toList ++ (f.mcastGrpA.elim [] m.mgid)

@[simp] theorem copies_drop (m : Match) : m.copies .drop = [] := rfl

@[simp] theorem copies_forward (m : Match) (port : ℕ) :
    m.copies (.forward port) = [⟨port, 0⟩] := rfl

@[simp] theorem copies_multicast (m : Match) (group : BitVec 16) :
    m.copies (.multicast group) = m.mgid group := rfl

/-! ## 2. The ingress control -/

/-- `set_dmac`: an INC packet goes back to where it came from. -/
def Eth.setDmac (eth : Eth) : Eth := { eth with dmac := eth.smac }

/-- `adjust_ip_length`. -/
def Ip.adjustLength (ip : Ip) : Ip := { ip with length := lengthWithPayload }

/-- `Ingress.apply`.  A packet without a NetCCL header has `pass_cnt` 0xff: it updates no
register and reaches the last branch of `Forward`. -/
def ingressApply (m : Match) (regs : Regs) (h : Headers) : Regs × Headers × Forwarding :=
  match h.internal, h.netccl, h.payload with
  | some internal, some netccl, some payload =>
    let eth := h.eth.setDmac
    let (regs, p, verdict) := ingress m.toTables regs ⟨internal, netccl, payload⟩
    (regs,
      { internal := some p.internal, eth, ip := h.ip.map Ip.adjustLength
        netccl := some p.netccl, payload := some p.payload },
      m.verdict eth.dmac verdict)
  | _, _, _ => (regs, h, m.l2Forward h.eth.dmac)

/-- A packet through the ingress pipeline: the registers, the packet and its copies. -/
def ingressPass (m : Match) (regs : Regs) (isRecirculatePort : Bool) (bs : List Byte) :
    Option (Regs × List Byte × List Copy) :=
  (ingressParser isRecirculatePort bs).map fun (h, rest) =>
    let (regs, h, f) := ingressApply m regs h
    (regs, h.emit ++ rest, m.copies f)

/-! ## 3. The egress control -/

/-- The addresses of a response: the copies of a multicast take their rank from the
replication id, and the tables give the addresses of that rank. -/
def Match.restore (m : Match) (rid : BitVec 16) (h : Headers) : Headers :=
  match h.internal, h.ip, h.netccl with
  | some internal, some ip, some netccl =>
    let netccl := if internal.enableMulticast then { netccl with rank := rid.setWidth 8 } else netccl
    let ip := (m.restoreTable netccl.groupId netccl.rank).elim ip fun (sip, dip) =>
      { ip with sip, dip }
    let eth := (m.restoreSmacTable ip.sip).elim h.eth fun smac => { h.eth with smac }
    let eth := (m.restoreDmacTable ip.dip).elim eth fun dmac => { eth with dmac }
    { h with eth, ip := some ip, netccl := some netccl }
  | _, _, _ => h

/-- `invalidate_payload`. -/
def invalidatePayload (h : Headers) : Headers :=
  { h with payload := none, ip := h.ip.map fun ip => { ip with length := lengthWithoutPayload } }

/-- Reduce keeps the payload for the root, broadcast for all others. -/
def removePayload (h : Headers) : Headers :=
  match h.netccl with
  | none => h
  | some netccl =>
    if netccl.collType = collTypeReduce then
      if netccl.rank = netccl.root then h else invalidatePayload h
    else if netccl.collType = collTypeBroadcast then
      if netccl.rank = netccl.root then invalidatePayload h else h
    else h

/-- The internal header goes, or counts one pass more. -/
def removeInternal (h : Headers) : Headers :=
  match h.netccl, h.internal with
  | none, _ => { h with internal := none }
  | some _, some internal =>
    if internal.passCnt = 2 then { h with internal := none }
    else { h with internal := some { internal with passCnt := internal.passCnt + 1 } }
  | some _, none => h

/-- `dcqcn`, with what `wred.execute` returned: a packet that may be marked is marked. -/
def dcqcn (wred : Bool) (ip : Ip) : Ip :=
  if ip.dscpEcn &&& 3 = 0 then ip
  else if wred then { ip with dscpEcn := ip.dscpEcn ||| 3 } else ip

/-- `Egress.apply`. -/
def egressApply (m : Match) (rid : BitVec 16) (wred : Bool) (h : Headers) : Headers :=
  let h := if h.internal.map Internal.passCnt = some 2 then removePayload (m.restore rid h) else h
  let h := removeInternal h
  { h with ip := h.ip.map (dcqcn wred) }

/-- The fields `EgressChecksum` lists, as 16-bit words. -/
def Ip.fields (ip : Ip) : List Word :=
  [ip.verHl ++ ip.dscpEcn, ip.length, ip.id, ip.flagOffset, ip.ttl ++ ip.protocol,
    ip.sip.extractLsb' 16 16, ip.sip.extractLsb' 0 16, ip.dip.extractLsb' 16 16,
    ip.dip.extractLsb' 0 16]

/-- `EgressChecksum`: `Checksum.update` over the fixed part of the header. -/
def Ip.updateChecksum (ip : Ip) : Ip := { ip with checksum := onesChecksum ip.fields }

/-- A packet through the egress pipeline. -/
def egressPass (m : Match) (rid : BitVec 16) (wred : Bool) (bs : List Byte) :
    Option (List Byte) :=
  (egressParser bs).map fun (h, rest) =>
    let h := egressApply m rid wred h
    { h with ip := h.ip.map Ip.updateChecksum }.emit ++ rest

/-! ## 4. IPv4 packets that are not INC -/

variable (m : Match) (regs : Regs) {eth : Eth} {ip : Ip} (rest : List Byte)

/-- **Such a packet in the ingress pipeline** gets an internal header, and goes where the L2
table sends its destination. -/
theorem ingressPass_ipv4 (heth : eth.protocol = ipProtocol)
    (hother : ¬ (ip.protocol = netcclProtocol ∧
      (ip.length = lengthWithPayload ∨ ip.length = lengthWithoutPayload))) :
    ingressPass m regs false (Headers.emit ⟨none, eth, some ip, none, none⟩ ++ rest) =
      some (regs, Headers.emit ⟨some ⟨invalidPasscnt, false⟩, eth, some ip, none, none⟩ ++ rest,
        m.copies (m.l2Forward eth.dmac)) := by
  rw [ingressPass, ingressParser_ipv4 rest heth hother]
  rfl

/-- **And in the egress pipeline** it loses that header again. -/
theorem egressPass_ipv4 (heth : eth.protocol = ipProtocol) (rid : BitVec 16) (wred : Bool) :
    egressPass m rid wred
      (Headers.emit ⟨some ⟨invalidPasscnt, false⟩, eth, some ip, none, none⟩ ++ rest) =
      some (Headers.emit ⟨none, eth, some (dcqcn wred ip).updateChecksum, none, none⟩ ++ rest) := by
  have hpass : ¬ (invalidPasscnt = 2#8) := by decide
  rw [egressPass, egressParser_ipv4 rest heth rfl]
  simp [egressApply, removeInternal, hpass]

/-! ## 5. INC packets -/

/-- The headers of an INC packet. -/
def Packet.headers (p : Packet) (eth : Eth) (ip : Ip) : Headers :=
  ⟨some p.internal, eth, some ip, some p.netccl, some p.payload⟩

/-- **An INC packet in the ingress control.** -/
theorem ingressApply_headers (p : Packet) (eth : Eth) (ip : Ip) :
    ingressApply m regs (p.headers eth ip) =
      ((ingress m.toTables regs p).1,
        (ingress m.toTables regs p).2.1.headers eth.setDmac ip.adjustLength,
        m.verdict eth.smac (ingress m.toTables regs p).2.2) := rfl

/-- **An INC packet that comes back**, in the ingress pipeline. -/
theorem ingressPass_recirculate (p : Packet) (eth : Eth) {ip : Ip}
    (hlen : ip.length = lengthWithPayload) :
    ingressPass m regs true ((p.headers eth ip).emit ++ rest) =
      some ((ingress m.toTables regs p).1,
        ((ingress m.toTables regs p).2.1.headers eth.setDmac ip.adjustLength).emit ++ rest,
        m.copies (m.verdict eth.smac (ingress m.toTables regs p).2.2)) := by
  rw [ingressPass, Packet.headers, ingressParser_recirculate rest hlen]
  rfl

/-- **The first pass of a recirculated packet** ends with `pass_cnt` 2. -/
theorem egressPass_recirculate {p : Packet} (hp : p.internal.passCnt = 1) (eth : Eth) (ip : Ip)
    (rid : BitVec 16) (wred : Bool) :
    egressPass m rid wred ((p.headers eth ip).emit ++ rest) =
      some (((egressRecirculate p).headers eth (dcqcn wred ip).updateChecksum).emit ++ rest) := by
  have hne : p.internal.passCnt ≠ invalidPasscnt := by rw [hp]; decide
  rw [egressPass, Packet.headers, egressParser_inc rest hne]
  simp [egressApply, removeInternal, hp, Packet.headers, egressRecirculate]

end NetCCL.Switch
