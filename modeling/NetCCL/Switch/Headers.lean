/-
# Headers on the wire, and the two parsers

`switch/std_header.p4` and `custom_header.p4` give the headers; `ingress.p4` and `egress.p4`
parse them.  A packet crosses both pipelines as BYTES: each parser extracts the headers it
knows, the control changes them, and the deparser emits those that are valid in front of the
rest, which the parser never looked at.

* A packet from a server gets an `internal` header in front.  It is INC when its IP protocol
  and length say so, and then has a payload header -- an all-zero one if it came without.
* A packet from a recirculation port brings its `internal` header along.
* The egress parser tells the two kinds apart by `pass_cnt`.

`ingressParser_inc`, `ingressParser_ipv4`, `ingressParser_recirculate` and their egress
counterparts say what each parser makes of emitted headers.
-/
import NetCCL.Switch.Ingress
import NetCCL.Lib.Layout

namespace NetCCL.Switch

open Lib

/-! ## 1. Headers -/

abbrev Byte := BitVec 8

/-- `eth_t`. -/
structure Eth where
  dmac : BitVec 48
  smac : BitVec 48
  protocol : BitVec 16
  deriving DecidableEq

/-- `ip_t`. -/
structure Ip where
  verHl : BitVec 8
  dscpEcn : BitVec 8
  length : BitVec 16
  id : BitVec 16
  flagOffset : BitVec 16
  ttl : BitVec 8
  protocol : BitVec 8
  checksum : BitVec 16
  sip : BitVec 32
  dip : BitVec 32
  deriving DecidableEq

/-- `IP_PROTOCOL`, `NETCCL_PROTOCOL` and `INVALID_PASSCNT`. -/
def ipProtocol : BitVec 16 := 0x0800
def netcclProtocol : BitVec 8 := 0xfe
def invalidPasscnt : BitVec 8 := 0xff

/-- The two lengths of an INC packet from its IP header on: with and without payload. -/
def lengthWithPayload : BitVec 16 := 20 + 10 + 256
def lengthWithoutPayload : BitVec 16 := 20 + 10

/-- `headers`: a header is `none` while it is not valid.  The Ethernet header always is. -/
structure Headers where
  internal : Option Internal
  eth : Eth
  ip : Option Ip
  netccl : Option Netccl
  payload : Option Payload

open Layout in
def ethLayout : Layout Eth :=
  (be48.pair (be48.pair be16)).iso (fun (dmac, smac, protocol) => ⟨dmac, smac, protocol⟩)
    (fun h => (h.dmac, h.smac, h.protocol)) fun _ => rfl

open Layout in
def ipLayout : Layout Ip :=
  (byte.pair (byte.pair (be16.pair (be16.pair (be16.pair (byte.pair (byte.pair (be16.pair
    (be32.pair be32))))))))).iso
    (fun (verHl, dscpEcn, length, id, flagOffset, ttl, protocol, checksum, sip, dip) =>
      ⟨verHl, dscpEcn, length, id, flagOffset, ttl, protocol, checksum, sip, dip⟩)
    (fun h => (h.verHl, h.dscpEcn, h.length, h.id, h.flagOffset, h.ttl, h.protocol, h.checksum,
      h.sip, h.dip)) fun _ => rfl

open Layout in
def netcclLayout : Layout Netccl :=
  (byte.pair (byte.pair (byte.pair (byte.pair (be16.pair be32))))).iso
    (fun (collType, groupId, rank, root, aggAddr, psn) =>
      ⟨collType, groupId, rank, root, aggAddr, psn⟩)
    (fun h => (h.collType, h.groupId, h.rank, h.root, h.aggAddr, h.psn)) fun _ => rfl

/-- `enable_multicast` and its padding. -/
def multicastByte (enableMulticast : Bool) : Byte := if enableMulticast then 0x80 else 0

theorem getMsbD_multicastByte : ∀ m, (multicastByte m).getMsbD 0 = m := by decide

open Layout in
/-- One bit of the second byte is used; the padding is emitted as zeros. -/
def internalLayout : Layout Internal :=
  (byte.pair byte).iso (fun (passCnt, b) => ⟨passCnt, b.getMsbD 0⟩)
    (fun h => (h.passCnt, multicastByte h.enableMulticast))
    fun h => congrArg (Internal.mk h.passCnt) (getMsbD_multicastByte h.enableMulticast)

open Layout in
def payloadLayout : Layout Payload :=
  ((be32.pair be32).iso (fun (agg0, agg1) => (⟨agg0, agg1⟩ : AggPair))
    (fun p => (p.agg0, p.agg1)) fun _ => rfl).table 32

/-! ## 2. The ingress parser -/

/-- `parse_payload`. -/
def parsePayload (h : Headers) (bs : List Byte) : Option (Headers × List Byte) :=
  (payloadLayout.extract bs).map fun (payload, bs) => ({ h with payload := some payload }, bs)

/-- `alloc_payload`: the padding up to the shortest Ethernet frame is skipped, and the packet
gets a payload of zeros. -/
def allocPayload (h : Headers) (bs : List Byte) : Option (Headers × List Byte) :=
  let skip := 64 - 4 - ethLayout.size - ipLayout.size - netcclLayout.size
  if bs.length < skip then none
  else some ({ h with payload := some fun _ => ⟨0, 0⟩ }, bs.drop skip)

/-- `parse_other`: not an INC packet. -/
def parseOther (h : Headers) (bs : List Byte) : Option (Headers × List Byte) :=
  some ({ h with internal := some ⟨invalidPasscnt, false⟩ }, bs)

/-- `alloc_internal_parse_payload` and `alloc_internal_alloc_payload`. -/
def allocInternal (next : Headers → List Byte → Option (Headers × List Byte)) (h : Headers)
    (bs : List Byte) : Option (Headers × List Byte) :=
  (netcclLayout.extract bs).bind fun (netccl, bs) =>
    next { h with internal := some ⟨1, false⟩, netccl := some netccl } bs

/-- `parse_ip`. -/
def parseIp (h : Headers) (bs : List Byte) : Option (Headers × List Byte) :=
  (ipLayout.extract bs).bind fun (ip, bs) =>
    let h := { h with ip := some ip }
    if ip.protocol = netcclProtocol ∧ ip.length = lengthWithPayload then
      allocInternal parsePayload h bs
    else if ip.protocol = netcclProtocol ∧ ip.length = lengthWithoutPayload then
      allocInternal allocPayload h bs
    else parseOther h bs

/-- `parse_ethernet`, for a port of a server. -/
def parseEthernet (bs : List Byte) : Option (Headers × List Byte) :=
  (ethLayout.extract bs).bind fun (eth, bs) =>
    let h : Headers := ⟨none, eth, none, none, none⟩
    if eth.protocol = ipProtocol then parseIp h bs else parseOther h bs

/-- `parse_recirculate`, for a recirculation port. -/
def parseRecirculate (bs : List Byte) : Option (Headers × List Byte) :=
  (internalLayout.extract bs).bind fun (internal, bs) =>
  (ethLayout.extract bs).bind fun (eth, bs) =>
  (ipLayout.extract bs).bind fun (ip, bs) =>
  (netcclLayout.extract bs).bind fun (netccl, bs) =>
    let h : Headers := ⟨some internal, eth, some ip, some netccl, none⟩
    if ip.length = lengthWithPayload then parsePayload h bs
    else if ip.length = lengthWithoutPayload then allocPayload h bs
    else none

/-- `IngressParser`; `none` is a parser error, on which the packet is lost.  The port metadata
say whether the packet came in on a recirculation port. -/
def ingressParser (isRecirculatePort : Bool) (bs : List Byte) : Option (Headers × List Byte) :=
  if isRecirculatePort then parseRecirculate bs else parseEthernet bs

/-! ## 3. The egress parser and the deparsers -/

/-- `EgressParser`. -/
def egressParser (bs : List Byte) : Option (Headers × List Byte) :=
  (internalLayout.extract bs).bind fun (internal, bs) =>
  (ethLayout.extract bs).bind fun (eth, bs) =>
    if internal.passCnt = invalidPasscnt then
      if eth.protocol = ipProtocol then
        (ipLayout.extract bs).map fun (ip, bs) => (⟨some internal, eth, some ip, none, none⟩, bs)
      else some (⟨some internal, eth, none, none, none⟩, bs)
    else
      (ipLayout.extract bs).bind fun (ip, bs) =>
      (netcclLayout.extract bs).bind fun (netccl, bs) =>
      (payloadLayout.extract bs).map fun (payload, bs) =>
        (⟨some internal, eth, some ip, some netccl, some payload⟩, bs)

/-- `packet.emit(hdr)`: the valid headers, in the order of `headers`. -/
def Headers.emit (h : Headers) : List Byte :=
  internalLayout.emitOpt h.internal ++ (ethLayout.emit h.eth ++ (ipLayout.emitOpt h.ip ++
    (netcclLayout.emitOpt h.netccl ++ payloadLayout.emitOpt h.payload)))

/-! ## 4. What the parsers make of emitted headers -/

variable {eth : Eth} {ip : Ip} {netccl : Netccl} {payload : Payload} {internal : Internal}
  (rest : List Byte)

/-- The bytes a server sends as an INC packet with a payload. -/
theorem Headers.emit_inc : Headers.emit ⟨none, eth, some ip, some netccl, some payload⟩ =
    ethLayout.emit eth ++ (ipLayout.emit ip ++
      (netcclLayout.emit netccl ++ payloadLayout.emit payload)) := by
  rw [Headers.emit, Layout.emitOpt_none, Layout.emitOpt_some, Layout.emitOpt_some,
    Layout.emitOpt_some, List.nil_append]

/-- An INC packet with a payload, from a server. -/
theorem ingressParser_inc (heth : eth.protocol = ipProtocol) (hip : ip.protocol = netcclProtocol)
    (hlen : ip.length = lengthWithPayload) :
    ingressParser false
      (Headers.emit ⟨none, eth, some ip, some netccl, some payload⟩ ++ rest) =
      some (⟨some ⟨1, false⟩, eth, some ip, some netccl, some payload⟩, rest) := by
  rw [Headers.emit_inc]
  simp [ingressParser, parseEthernet, parseIp, allocInternal, parsePayload, heth, hip, hlen]

/-- An INC packet without one: 16 bytes of padding are skipped. -/
theorem ingressParser_incEmpty (heth : eth.protocol = ipProtocol)
    (hip : ip.protocol = netcclProtocol) (hlen : ip.length = lengthWithoutPayload)
    (hpad : 16 ≤ rest.length) :
    ingressParser false (Headers.emit ⟨none, eth, some ip, some netccl, none⟩ ++ rest) =
      some (⟨some ⟨1, false⟩, eth, some ip, some netccl, some fun _ => ⟨0, 0⟩⟩,
        rest.drop 16) := by
  have hskip : 64 - 4 - ethLayout.size - ipLayout.size - netcclLayout.size = 16 := rfl
  have hne : lengthWithoutPayload ≠ lengthWithPayload := by decide
  simp [ingressParser, parseEthernet, parseIp, allocInternal, allocPayload, Headers.emit, heth, hip,
    hlen, hne, hskip, Nat.not_lt.mpr hpad]

/-- An IPv4 packet that is not INC, from a server. -/
theorem ingressParser_ipv4 (heth : eth.protocol = ipProtocol)
    (hother : ¬ (ip.protocol = netcclProtocol ∧
      (ip.length = lengthWithPayload ∨ ip.length = lengthWithoutPayload))) :
    ingressParser false (Headers.emit ⟨none, eth, some ip, none, none⟩ ++ rest) =
      some (⟨some ⟨invalidPasscnt, false⟩, eth, some ip, none, none⟩, rest) := by
  have h1 : ¬ (ip.protocol = netcclProtocol ∧ ip.length = lengthWithPayload) :=
    fun h => hother ⟨h.1, Or.inl h.2⟩
  have h2 : ¬ (ip.protocol = netcclProtocol ∧ ip.length = lengthWithoutPayload) :=
    fun h => hother ⟨h.1, Or.inr h.2⟩
  simp [ingressParser, parseEthernet, parseIp, parseOther, Headers.emit, heth, h1, h2]

/-- An INC packet that comes back. -/
theorem ingressParser_recirculate (hlen : ip.length = lengthWithPayload) :
    ingressParser true
      (Headers.emit ⟨some internal, eth, some ip, some netccl, some payload⟩ ++ rest) =
      some (⟨some internal, eth, some ip, some netccl, some payload⟩, rest) := by
  simp [ingressParser, parseRecirculate, parsePayload, Headers.emit, hlen]

/-- The egress pipeline reads an INC packet as the ingress pipeline left it. -/
theorem egressParser_inc (hpass : internal.passCnt ≠ invalidPasscnt) :
    egressParser (Headers.emit ⟨some internal, eth, some ip, some netccl, some payload⟩ ++ rest) =
      some (⟨some internal, eth, some ip, some netccl, some payload⟩, rest) := by
  simp [egressParser, Headers.emit, hpass]

/-- And an IPv4 packet. -/
theorem egressParser_ipv4 (heth : eth.protocol = ipProtocol)
    (hpass : internal.passCnt = invalidPasscnt) :
    egressParser (Headers.emit ⟨some internal, eth, some ip, none, none⟩ ++ rest) =
      some (⟨some internal, eth, some ip, none, none⟩, rest) := by
  simp [egressParser, Headers.emit, hpass, heth]

end NetCCL.Switch
