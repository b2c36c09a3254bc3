/-
# The way of a packet through the switch

A packet enters at a server port and crosses ingress and egress; an INC packet then comes back
on a recirculation port and crosses them once more.  Two parsers, two controls and two
deparsers have to agree, on every branch, about which headers are there: the internal header
with its `pass_cnt`, the payload, and the length in the IP header that tells the next parser --
this switch's or a server's -- whether there is one.

`Hops` is one hop of a packet, or of a copy of it, from place to place.  The registers are any
at each hop, since other packets come in between; so are the random choices of `wred` and
`random_drop`.  `Place.Sound` says what the headers can be at each place, `Place.Sound.hop` is
its step lemma, and `two_pass_discipline` the result.

`Wiring` is what the initial script and the controller make of ports and tables.
-/
import NetCCL.Switch.Verdict
import NetCCL.Switch.RandomDrop
import NetCCL.Common
import NetCCL.Lib.Reach

namespace NetCCL.Switch

open Lib

/-! ## 1. Places and hops -/

/-- The egress control, and the checksum of the deparser. -/
def egressHeaders (m : Match) (rid : BitVec 16) (wred : Bool) (h : Headers) : Headers :=
  let h := egressApply m rid wred h
  { h with ip := h.ip.map Ip.updateChecksum }

/-- Where a packet can be: how it was forwarded and to which copy, its bytes or its headers and
what is behind them, and how often it was recirculated. -/
inductive Place
  | arrived (port : ℕ) (bs : List Byte) (n : ℕ)
  | ingress (h : Headers) (rest : List Byte) (n : ℕ)
  | queued (f : Forwarding) (c : Copy) (bs : List Byte) (n : ℕ)
  | egress (f : Forwarding) (c : Copy) (h : Headers) (rest : List Byte) (n : ℕ)
  | left (f : Forwarding) (c : Copy) (h : Headers) (rest : List Byte) (n : ℕ)

/-- What takes a packet on, with what the place does not determine. -/
inductive Hop
  | ingressParser
  | ingress (regs : Regs) (c : Copy)
  | egressParser
  | egress (wred : Bool) (randomValue dropValue : BitVec 32)
  | recirculate

/-- One hop.  A packet a parser rejects, or a control drops, goes nowhere. -/
inductive Hops (m : Match) (isRecirculatePort : ℕ → Bool) : Place → Hop → Place → Prop
  | ingressParser {port : ℕ} {bs rest : List Byte} {n : ℕ} {h : Headers} :
      ingressParser (isRecirculatePort port) bs = some (h, rest) →
      Hops m isRecirculatePort (.arrived port bs n) .ingressParser (.ingress h rest n)
  | ingress {h : Headers} {rest : List Byte} {n : ℕ} (regs : Regs) (c : Copy) :
      c ∈ m.copies (ingressApply m regs h).2.2 →
      Hops m isRecirculatePort (.ingress h rest n) (.ingress regs c)
        (.queued (ingressApply m regs h).2.2 c ((ingressApply m regs h).2.1.emit ++ rest) n)
  | egressParser {f : Forwarding} {c : Copy} {bs rest : List Byte} {n : ℕ} {h : Headers} :
      egressParser bs = some (h, rest) →
      Hops m isRecirculatePort (.queued f c bs n) .egressParser (.egress f c h rest n)
  | egress {f : Forwarding} {c : Copy} {h : Headers} {rest : List Byte} {n : ℕ} (wred : Bool)
      (randomValue dropValue : BitVec 32) : randomDrop randomValue dropValue = 0 →
      Hops m isRecirculatePort (.egress f c h rest n) (.egress wred randomValue dropValue)
        (.left f c (egressHeaders m c.rid wred h) rest n)
  | recirculate {f : Forwarding} {c : Copy} {h : Headers} {rest : List Byte} {n : ℕ} :
      isRecirculatePort c.port = true →
      Hops m isRecirculatePort (.left f c h rest n) .recirculate
        (.arrived c.port (h.emit ++ rest) (n + 1))

/-- A packet arrives at a server port. -/
def Arrives (isRecirculatePort : ℕ → Bool) (place : Place) : Prop :=
  ∃ port bs, isRecirculatePort port = false ∧ place = .arrived port bs 0

/-- Ports and tables as `bfrt_init.py` and the controller set them up: `recirculate_table` names
recirculation ports, `l2_forward_table` and the multicast groups name ports of servers, and the
group of the broadcast address is none that a group id can name. -/
structure Wiring (m : Match) (isRecirculatePort : ℕ → Bool) : Prop where
  recirculate : ∀ g port, m.recirculateTable g = some port → isRecirculatePort port = true
  l2Forward : ∀ dmac port, m.l2ForwardTable dmac = .forward port → isRecirculatePort port = false
  l2Multicast : ∀ dmac g, m.l2ForwardTable dmac = .multicast g → 256 ≤ g.toNat
  mgid : ∀ g, ∀ c ∈ m.mgid g, isRecirculatePort c.port = false

/-! ## 2. What the parsers accept -/

/-- The headers of a packet that is not INC. -/
def Headers.Other (h : Headers) : Prop := ∃ eth ip,
  h = ⟨some ⟨invalidPasscnt, false⟩, eth, ip, none, none⟩ ∧
    (ip.isSome = true ↔ eth.protocol = ipProtocol)

/-- **A packet from a server** is INC, on its first pass, or it is not. -/
theorem ingressParser_server {bs rest : List Byte} {h : Headers}
    (hparse : ingressParser false bs = some (h, rest)) :
    (∃ p eth ip, p.internal = ⟨1, false⟩ ∧ h = Packet.headers p eth ip) ∨ h.Other := by
  have hother : ∀ {h₀ : Headers} {bs₀ : List Byte}, parseOther h₀ bs₀ = some (h, rest) →
      h = { h₀ with internal := some ⟨invalidPasscnt, false⟩ } := fun he =>
    (Prod.mk.inj (Option.some.inj he)).1.symm
  simp only [ingressParser, Bool.false_eq_true, if_false, parseEthernet,
    Option.bind_eq_some_iff] at hparse
  obtain ⟨⟨eth, bs₁⟩, -, hparse⟩ := hparse
  dsimp only at hparse
  split at hparse
  swap
  · exact Or.inr ⟨eth, none, hother hparse, by simp [‹¬ _›]⟩
  rename_i hprotocol
  simp only [parseIp, Option.bind_eq_some_iff] at hparse
  obtain ⟨⟨ip, bs₂⟩, -, hparse⟩ := hparse
  dsimp only at hparse
  -- the payload comes with the packet, or it is allocated
  split at hparse
  · simp only [allocInternal, Option.bind_eq_some_iff, parsePayload, Option.map_eq_some_iff]
      at hparse
    obtain ⟨⟨netccl, bs₃⟩, -, ⟨payload, bs₄⟩, -, hparse⟩ := hparse
    exact Or.inl ⟨⟨⟨1, false⟩, netccl, payload⟩, eth, ip, rfl, (Prod.mk.inj hparse).1.symm⟩
  split at hparse
  · simp only [allocInternal, Option.bind_eq_some_iff, allocPayload] at hparse
    obtain ⟨⟨netccl, bs₃⟩, -, hparse⟩ := hparse
    split at hparse
    · exact absurd hparse (by simp)
    · exact Or.inl ⟨⟨⟨1, false⟩, netccl, fun _ => ⟨0, 0⟩⟩, eth, ip, rfl,
        (Prod.mk.inj (Option.some.inj hparse)).1.symm⟩
  · exact Or.inr ⟨eth, some ip, hother hparse, by simp [hprotocol]⟩

/-- The egress parser reads such a packet as it was emitted. -/
theorem egressParser_other {h : Headers} (hother : h.Other) (rest : List Byte) :
    egressParser (h.emit ++ rest) = some (h, rest) := by
  obtain ⟨eth, ip, rfl, hip⟩ := hother
  cases ip with
  | some ip => exact egressParser_ipv4 rest (hip.mp rfl) rfl
  | none =>
    have hprotocol : eth.protocol ≠ ipProtocol := by
      intro he
      exact absurd (hip.mpr he) (by simp)
    simp [egressParser, Headers.emit, hprotocol]

/-! ## 3. What the controls do -/

variable {m : Match} {isRecirculatePort : ℕ → Bool} {p : Packet} {eth : Eth} {ip : Ip}

/-- A first pass keeps `pass_cnt`, and ends in a drop or on the recirculation port of the
group. -/
theorem ingress_firstPass (tbl : Tables) (regs : Regs) (hp : p.internal.passCnt = 1) :
    (ingress tbl regs p).2.1.internal.passCnt = 1 ∧ ((ingress tbl regs p).2.2 = .drop ∨
      ∃ port, tbl.recirculateTable p.netccl.groupId = some port ∧
        (ingress tbl regs p).2.2 = .recirculate port) := by
  have htwo : ¬ ((1 : BitVec 8) = 2 ∧ p.internal.enableMulticast = true) := by simp
  simp only [ingress, forward, hp, if_neg htwo, if_true, true_and]
  constructor
  · split
    · rfl
    · exact hp
  · split
    · cases hport : tbl.recirculateTable p.netccl.groupId with
      | none => exact Or.inl rfl
      | some port => exact Or.inr ⟨port, rfl, rfl⟩
    · exact Or.inl rfl

/-- A packet that is not INC: the registers stay, and the L2 table decides. -/
theorem ingressApply_other {h : Headers} (hother : h.Other) (regs : Regs) :
    ingressApply m regs h = (regs, h, m.l2Forward h.eth.dmac) := by
  obtain ⟨eth, ip, rfl, -⟩ := hother
  rfl

/-- The L2 table forwards to servers. -/
theorem Wiring.l2_copies (hw : Wiring m isRecirculatePort) {dmac : BitVec 48} {c : Copy}
    (hc : c ∈ m.copies (m.l2Forward dmac)) : isRecirculatePort c.port = false := by
  rw [Match.l2Forward] at hc
  cases hl2 : m.l2ForwardTable dmac with
  | forward port =>
    rw [hl2, copies_forward, List.mem_singleton] at hc
    rw [hc]
    exact hw.l2Forward dmac port hl2
  | multicast g =>
    rw [hl2] at hc
    exact hw.mgid g c hc
  | drop =>
    rw [hl2] at hc
    exact absurd hc List.not_mem_nil

/-- And not to the multicast group of a group. -/
theorem Wiring.l2_mcast (hw : Wiring m isRecirculatePort) (dmac : BitVec 48) (g : BitVec 8) :
    (m.l2Forward dmac).mcastGrpA ≠ some (g.setWidth 16) := by
  rw [Match.l2Forward]
  cases hl2 : m.l2ForwardTable dmac with
  | forward port => exact fun h => by cases h
  | multicast g' =>
    intro h
    have hge := hw.l2Multicast dmac g' hl2
    rw [Option.some.inj h, BitVec.toNat_setWidth] at hge
    have hlt := g.isLt
    omega
  | drop => exact fun h => by cases h

/-- The lengths are those of the headers behind the Ethernet header. -/
def lengthOf (payload : Option Payload) : BitVec 16 :=
  if payload.isSome then lengthWithPayload else lengthWithoutPayload

theorem lengthOf_toNat (ip : Ip) (netccl : Netccl) (payload : Option Payload) :
    (lengthOf payload).toNat =
      (ipLayout.emit ip ++ (netcclLayout.emit netccl ++ payloadLayout.emitOpt payload)).length := by
  cases payload with
  | some payload =>
    rw [List.length_append, List.length_append, Layout.emitOpt_some, Layout.emit_length,
      Layout.emit_length, Layout.emit_length]
    rfl
  | none =>
    rw [List.length_append, List.length_append, Layout.emitOpt_none, Layout.emit_length,
      Layout.emit_length]
    rfl

/-- The restored addresses, and the rank of a multicast copy. -/
theorem restore_headers (p : Packet) (eth : Eth) (ip : Ip) (rid : BitVec 16) :
    ∃ eth' ip', ip'.length = ip.length ∧ m.restore rid (p.headers eth ip) =
      ⟨some p.internal, eth', some ip', some (egressRespond p (rid.setWidth 8)).netccl,
        some p.payload⟩ := by
  simp only [Match.restore, Packet.headers, egressRespond]
  refine ⟨_, _, ?_, rfl⟩
  cases m.restoreTable _ _ with
  | none => rfl
  | some addrs => rfl

/-- The payload a response keeps: `egressRespond` in terms of its header. -/
def Netccl.kept (h : Netccl) (payload : Payload) : Option Payload :=
  if h.collType = collTypeReduce then if h.rank = h.root then some payload else none
  else if h.collType = collTypeBroadcast then if h.rank = h.root then none else some payload
  else some payload

theorem egressRespond_payload (p : Packet) (rid : BitVec 8) :
    (egressRespond p rid).payload = (egressRespond p rid).netccl.kept p.payload := rfl

/-- Removing the payload adjusts the length. -/
theorem removePayload_headers (internal : Option Internal) (eth : Eth) (netccl : Netccl)
    (payload : Payload) (hlen : ip.length = lengthWithPayload) :
    ∃ ip', ip'.length = lengthOf (netccl.kept payload) ∧
      removePayload ⟨internal, eth, some ip, some netccl, some payload⟩ =
        ⟨internal, eth, some ip', some netccl, netccl.kept payload⟩ := by
  have hkeep : ∃ ip', ip'.length = lengthOf (some payload) ∧
      (⟨internal, eth, some ip, some netccl, some payload⟩ : Headers) =
        ⟨internal, eth, some ip', some netccl, some payload⟩ := ⟨ip, hlen, rfl⟩
  have hremove : ∃ ip', ip'.length = lengthOf none ∧
      invalidatePayload ⟨internal, eth, some ip, some netccl, some payload⟩ =
        ⟨internal, eth, some ip', some netccl, none⟩ :=
    ⟨{ ip with length := lengthWithoutPayload }, rfl, rfl⟩
  simp only [removePayload, Netccl.kept]
  split
  · split
    · exact hkeep
    · exact hremove
  · split
    · split
      · exact hremove
      · exact hkeep
    · exact hkeep

/-- **The second pass in the egress control**: the response, without the internal header, and
with the length of what is left. -/
theorem egressHeaders_respond (hp : p.internal.passCnt = 2) (eth : Eth)
    (hlen : ip.length = lengthWithPayload) (rid : BitVec 16) (wred : Bool) :
    ∃ eth' ip', ip'.length = lengthOf (egressRespond p (rid.setWidth 8)).payload ∧
      egressHeaders m rid wred (p.headers eth ip) =
        ⟨none, eth', some ip', some (egressRespond p (rid.setWidth 8)).netccl,
          (egressRespond p (rid.setWidth 8)).payload⟩ := by
  obtain ⟨eth', ip₁, hlen₁, hrestore⟩ := restore_headers (m := m) p eth ip rid
  obtain ⟨ip₂, hlen₂, hremove⟩ := removePayload_headers (some p.internal) eth'
    (egressRespond p (rid.setWidth 8)).netccl p.payload (hlen₁.trans hlen)
  have hsecond : (p.headers eth ip).internal.map Internal.passCnt = some 2 := congrArg some hp
  refine ⟨eth', (dcqcn wred ip₂).updateChecksum, (length_dcqcn wred ip₂).trans hlen₂, ?_⟩
  rw [egressHeaders, egressApply, if_pos hsecond, hrestore, hremove]
  simp only [removeInternal, hp, if_true, Option.map_some, egressRespond_payload]

/-- **The first pass in the egress control** counts. -/
theorem egressHeaders_recirculate (hp : p.internal.passCnt = 1) (eth : Eth) (ip : Ip)
    (rid : BitVec 16) (wred : Bool) : egressHeaders m rid wred (p.headers eth ip) =
      (egressRecirculate p).headers eth (dcqcn wred ip).updateChecksum := by
  simp [egressHeaders, egressApply, removeInternal, hp, Packet.headers, egressRecirculate]

/-- A packet that is not INC loses the internal header. -/
theorem egressHeaders_other {h : Headers} (hother : h.Other) (rid : BitVec 16) (wred : Bool) :
    (egressHeaders m rid wred h).internal = none ∧ (egressHeaders m rid wred h).netccl = none := by
  obtain ⟨eth, ip, rfl, -⟩ := hother
  have hpass : ¬ (invalidPasscnt = 2#8) := by decide
  simp [egressHeaders, egressApply, removeInternal, hpass]

/-! ## 4. What the headers are at each place -/

/-- Behind the ingress parser, having been recirculated `n` times. -/
inductive Entered : Headers → ℕ → Prop
  | other {h : Headers} : h.Other → Entered h 0
  | first {p : Packet} {eth : Eth} {ip : Ip} : p.internal.passCnt = 1 →
      Entered (p.headers eth ip) 0
  | second {p : Packet} {eth : Eth} {ip : Ip} : p.internal.passCnt = 2 →
      Entered (p.headers eth ip) 1

/-- Between the pipelines. -/
inductive Routed (isRecirculatePort : ℕ → Bool) (f : Forwarding) (c : Copy) :
    Headers → ℕ → Prop
  | other {h : Headers} : h.Other → isRecirculatePort c.port = false →
      Routed isRecirculatePort f c h 0
  | first {p : Packet} {eth : Eth} {ip : Ip} : p.internal.passCnt = 1 →
      ip.length = lengthWithPayload → isRecirculatePort c.port = true →
      Routed isRecirculatePort f c (p.headers eth ip) 0
  | second {p : Packet} {eth : Eth} {ip : Ip} : p.internal.passCnt = 2 →
      ip.length = lengthWithPayload → isRecirculatePort c.port = false →
      (f.mcastGrpA = some (p.netccl.groupId.setWidth 16) → p.internal.enableMulticast = true) →
      Routed isRecirculatePort f c (p.headers eth ip) 1

/-- Behind the egress deparser. -/
inductive Emitted (isRecirculatePort : ℕ → Bool) (f : Forwarding) (c : Copy) :
    Headers → ℕ → Prop
  | other {h : Headers} : h.internal = none → h.netccl = none →
      isRecirculatePort c.port = false → Emitted isRecirculatePort f c h 0
  | first {p : Packet} {eth : Eth} {ip : Ip} : p.internal.passCnt = 2 →
      ip.length = lengthWithPayload → isRecirculatePort c.port = true →
      Emitted isRecirculatePort f c (p.headers eth ip) 0
  | second {p : Packet} {eth : Eth} {ip : Ip} :
      ip.length = lengthOf (egressRespond p (c.rid.setWidth 8)).payload →
      isRecirculatePort c.port = false →
      (f.mcastGrpA = some (p.netccl.groupId.setWidth 16) → p.internal.enableMulticast = true) →
      Emitted isRecirculatePort f c ⟨none, eth, some ip,
        some (egressRespond p (c.rid.setWidth 8)).netccl,
        (egressRespond p (c.rid.setWidth 8)).payload⟩ 1

/-- **What holds of a packet at each place.** -/
def Place.Sound (isRecirculatePort : ℕ → Bool) : Place → Prop
  | .arrived port bs n => (n = 0 ∧ isRecirculatePort port = false) ∨
      n = 1 ∧ isRecirculatePort port = true ∧ ∃ p eth ip rest, p.internal.passCnt = 2 ∧
        Ip.length ip = lengthWithPayload ∧ bs = (Packet.headers p eth ip).emit ++ rest
  | .ingress h _ n => Entered h n
  | .queued f c bs n => ∃ h rest, bs = h.emit ++ rest ∧ Routed isRecirculatePort f c h n
  | .egress f c h _ n => Routed isRecirculatePort f c h n
  | .left f c h _ n => Emitted isRecirculatePort f c h n

/-- The parser reads what the ingress pipeline emitted. -/
theorem Routed.parsed {f : Forwarding} {c : Copy} {h : Headers} {n : ℕ}
    (hr : Routed isRecirculatePort f c h n) (rest : List Byte) :
    egressParser (h.emit ++ rest) = some (h, rest) := by
  cases hr with
  | other hother _ => exact egressParser_other hother rest
  | first hp _ _ => exact egressParser_inc rest (by rw [hp]; decide)
  | second hp _ _ _ => exact egressParser_inc rest (by rw [hp]; decide)

/-- The ingress control routes what entered. -/
theorem Entered.routed (hw : Wiring m isRecirculatePort) {h : Headers} {n : ℕ}
    (he : Entered h n) (regs : Regs) {c : Copy} (hc : c ∈ m.copies (ingressApply m regs h).2.2) :
    Routed isRecirculatePort (ingressApply m regs h).2.2 c (ingressApply m regs h).2.1 n := by
  cases he with
  | other hother =>
    rw [ingressApply_other hother] at hc ⊢
    exact .other hother (hw.l2_copies hc)
  | @first p eth ip hp =>
    obtain ⟨hpass, hdrop | ⟨port, hport, hrec⟩⟩ := ingress_firstPass m.toTables regs hp
    · rw [ingressApply_headers, hdrop] at hc
      exact absurd hc List.not_mem_nil
    · rw [ingressApply_headers, hrec] at hc
      rw [List.mem_singleton.mp hc]
      exact .first hpass rfl (hw.recirculate _ _ hport)
  | @second p eth ip hp =>
    rw [ingressApply_headers, ingress_secondPass m.toTables regs hp] at hc ⊢
    dsimp only at hc ⊢
    by_cases hmc : p.internal.enableMulticast = true
    · rw [if_pos hmc] at hc
      exact .second hp rfl (hw.mgid _ c hc) fun _ => hmc
    · rw [if_neg hmc] at hc ⊢
      exact .second hp rfl (hw.l2_copies hc) fun hg => absurd hg (hw.l2_mcast _ _)

/-- The egress control emits what was routed. -/
theorem Routed.emitted {f : Forwarding} {c : Copy} {h : Headers} {n : ℕ}
    (hr : Routed isRecirculatePort f c h n) (wred : Bool) :
    Emitted isRecirculatePort f c (egressHeaders m c.rid wred h) n := by
  cases hr with
  | other hother hport =>
    obtain ⟨hinternal, hnetccl⟩ := egressHeaders_other (m := m) hother c.rid wred
    exact .other hinternal hnetccl hport
  | @first p eth ip hp hlen hport =>
    rw [egressHeaders_recirculate hp]
    refine .first ?_ ((length_dcqcn wred ip).trans hlen) hport
    rw [egressRecirculate, hp]
    rfl
  | @second p eth ip hp hlen hport hmc =>
    obtain ⟨eth', ip', hlen', heq⟩ := egressHeaders_respond (m := m) hp eth hlen c.rid wred
    rw [heq]
    exact .second hlen' hport hmc

/-- **Every hop keeps it.** -/
theorem Place.Sound.hop (hw : Wiring m isRecirculatePort) {place place' : Place} {hop : Hop}
    (hs : place.Sound isRecirculatePort) (hhop : Hops m isRecirculatePort place hop place') :
    place'.Sound isRecirculatePort := by
  cases hhop with
  | ingressParser hparse =>
    rcases hs with ⟨rfl, hport⟩ | ⟨rfl, hport, p, eth, ip, rest', hp, hlen, rfl⟩
    · rw [hport] at hparse
      rcases ingressParser_server hparse with ⟨p, eth, ip, hp, rfl⟩ | hother
      · exact .first (by rw [hp])
      · exact .other hother
    · rw [hport, Packet.headers, ingressParser_recirculate rest' hlen] at hparse
      obtain ⟨rfl, -⟩ := Prod.mk.inj (Option.some.inj hparse)
      exact .second hp
  | ingress regs c hc => exact ⟨_, _, rfl, hs.routed hw regs hc⟩
  | egressParser hparse =>
    obtain ⟨h', rest', rfl, hr⟩ := hs
    rw [hr.parsed] at hparse
    obtain ⟨rfl, -⟩ := Prod.mk.inj (Option.some.inj hparse)
    exact hr
  | egress wred _ _ _ => exact Routed.emitted hs wred
  | recirculate hport =>
    cases hs with
    | other _ _ hport' => exact absurd (hport'.symm.trans hport) (by decide)
    | first hp hlen _ => exact Or.inr ⟨rfl, hport, _, _, _, _, hp, hlen, rfl⟩
    | second _ hport' => exact absurd (hport'.symm.trans hport) (by decide)

/-- The run lemma: whatever way a packet takes. -/
theorem sound_reach (hw : Wiring m isRecirculatePort) {place : Place}
    (h : Reach (Arrives isRecirculatePort) (Hops m isRecirculatePort) Free place) :
    place.Sound isRecirculatePort :=
  h.invariant (P := Place.Sound isRecirculatePort)
    (fun _ ⟨_, _, hport, he⟩ => he ▸ Or.inl ⟨rfl, hport⟩) fun _ _ _ hs _ hhop => hs.hop hw hhop

/-! ## 5. The discipline -/

/-- The headers of a packet that is in the middle of a pipeline. -/
def Place.headers : Place → Option Headers
  | .ingress h _ _ => some h
  | .egress _ _ h _ _ => some h
  | .left _ _ h _ _ => some h
  | _ => none

/-- How often it was recirculated. -/
def Place.recirculations : Place → ℕ
  | .arrived _ _ n => n
  | .ingress _ _ n => n
  | .queued _ _ _ n => n
  | .egress _ _ _ _ n => n
  | .left _ _ _ _ n => n

/-- The op, as the rank in the header carries it out. -/
structure Netccl.Describes (h : Netccl) (op : Op) : Prop where
  opCode : h.collType = op.opCode.toByte
  root : h.root = op.root
  rank : h.rank = op.group.rank

/-- What is promised of an INC copy on a server port: the length counts the headers that were
emitted behind the Ethernet header, the payload is there when the host expects it, and a copy of
the group's multicast has the rank of its replication id. -/
structure Answers (f : Forwarding) (c : Copy) (h : Headers) (netccl : Netccl) : Prop where
  length : ∃ ip, h.ip = some ip ∧ ip.length.toNat =
    (ipLayout.emitOpt h.ip ++ (netcclLayout.emitOpt h.netccl ++
      payloadLayout.emitOpt h.payload)).length
  payload : ∀ op, netccl.Describes op →
    op.opCode = .allReduce ∨ op.opCode = .reduce ∨ op.opCode = .broadcast →
    h.payload.isSome = needRx op
  rank : f.mcastGrpA = some (netccl.groupId.setWidth 16) → netccl.rank = c.rid.setWidth 8

/-- `pass_cnt` as the program uses it. -/
def PassCnt (passCnt : BitVec 8) : Prop := passCnt = 1 ∨ passCnt = 2 ∨ passCnt = invalidPasscnt

/-- **The discipline of the two passes**, at a place. -/
structure Place.Disciplined (m : Match) (isRecirculatePort : ℕ → Bool) (place : Place) : Prop where
  passCnt : ∀ h internal, place.headers = some h → h.internal = some internal →
    PassCnt internal.passCnt
  once : place.recirculations ≤ 1
  parsesBack : ∀ f c h rest n, place = .left f c h rest n → isRecirculatePort c.port = true →
    ingressParser true (h.emit ++ rest) = some (h, rest) ∧ h.netccl.isSome
  removed : ∀ f c h rest n, place = .left f c h rest n → isRecirculatePort c.port = false →
    h.internal = none
  answers : ∀ f c h rest n, place = .left f c h rest n → isRecirculatePort c.port = false →
    ∀ netccl, h.netccl = some netccl → Answers f c h netccl
  registers : ∀ h rest n, place = .ingress h rest n →
    h.netccl = none ∨ h.internal.map Internal.passCnt = some 2 →
    ∀ regs, (ingressApply m regs h).1 = regs

theorem Headers.Other.passCnt {h : Headers} (hother : h.Other) {internal : Internal}
    (hi : h.internal = some internal) : PassCnt internal.passCnt := by
  obtain ⟨eth, ip, rfl, -⟩ := hother
  rw [← Option.some.inj hi]
  exact Or.inr (Or.inr rfl)

theorem Packet.headers_passCnt {v : BitVec 8} (hp : p.internal.passCnt = v) (hv : PassCnt v)
    {internal : Internal} (hi : (p.headers eth ip).internal = some internal) :
    PassCnt internal.passCnt := by
  rw [← Option.some.inj hi, hp]
  exact hv

theorem Place.Sound.passCnt {place : Place} (hs : place.Sound isRecirculatePort) {h : Headers}
    (hh : place.headers = some h) {internal : Internal} (hi : h.internal = some internal) :
    PassCnt internal.passCnt := by
  have hone : PassCnt 1 := Or.inl rfl
  have htwo : PassCnt 2 := Or.inr (Or.inl rfl)
  cases place with
  | arrived port bs n => exact absurd hh (by simp [Place.headers])
  | ingress h' rest n =>
    obtain rfl := Option.some.inj hh
    have hentered : Entered h' n := hs
    cases hentered with
    | other hother => exact hother.passCnt hi
    | first hp => exact Packet.headers_passCnt hp hone hi
    | second hp => exact Packet.headers_passCnt hp htwo hi
  | queued f c bs n => exact absurd hh (by simp [Place.headers])
  | egress f c h' rest n =>
    obtain rfl := Option.some.inj hh
    have hrouted : Routed isRecirculatePort f c h' n := hs
    cases hrouted with
    | other hother _ => exact hother.passCnt hi
    | first hp _ _ => exact Packet.headers_passCnt hp hone hi
    | second hp _ _ _ => exact Packet.headers_passCnt hp htwo hi
  | left f c h' rest n =>
    obtain rfl := Option.some.inj hh
    have hemitted : Emitted isRecirculatePort f c h' n := hs
    cases hemitted with
    | other hnone _ _ => exact absurd (hnone.symm.trans hi) (by simp)
    | first hp _ _ => exact Packet.headers_passCnt hp htwo hi
    | second => exact absurd hi (by simp)

theorem Place.Sound.once {place : Place} (hs : place.Sound isRecirculatePort) :
    place.recirculations ≤ 1 := by
  cases place with
  | arrived port bs n =>
    rcases hs with ⟨rfl, -⟩ | ⟨rfl, -⟩
    · exact Nat.zero_le 1
    · exact Nat.le_refl 1
  | ingress h rest n =>
    have hentered : Entered h n := hs
    cases hentered <;> simp [Place.recirculations]
  | queued f c bs n =>
    obtain ⟨h, rest, -, hr⟩ := hs
    cases hr <;> simp [Place.recirculations]
  | egress f c h rest n =>
    have hrouted : Routed isRecirculatePort f c h n := hs
    cases hrouted <;> simp [Place.recirculations]
  | left f c h rest n =>
    have hemitted : Emitted isRecirculatePort f c h n := hs
    cases hemitted <;> simp [Place.recirculations]

theorem Emitted.parsesBack {f : Forwarding} {c : Copy} {h : Headers} {n : ℕ}
    (he : Emitted isRecirculatePort f c h n) (hport : isRecirculatePort c.port = true)
    (rest : List Byte) : ingressParser true (h.emit ++ rest) = some (h, rest) ∧
      h.netccl.isSome = true := by
  cases he with
  | other _ _ hport' => exact absurd (hport'.symm.trans hport) (by decide)
  | first _ hlen _ => exact ⟨ingressParser_recirculate rest hlen, rfl⟩
  | second _ hport' _ => exact absurd (hport'.symm.trans hport) (by decide)

theorem Emitted.removed {f : Forwarding} {c : Copy} {h : Headers} {n : ℕ}
    (he : Emitted isRecirculatePort f c h n) (hport : isRecirculatePort c.port = false) :
    h.internal = none := by
  cases he with
  | other hnone _ _ => exact hnone
  | first _ _ hport' => exact absurd (hport.symm.trans hport') (by decide)
  | second => rfl

/-- Only a first pass changes registers. -/
theorem Entered.registers {h : Headers} {n : ℕ} (he : Entered h n)
    (hpass : h.netccl = none ∨ h.internal.map Internal.passCnt = some 2) (regs : Regs) :
    (ingressApply m regs h).1 = regs := by
  cases he with
  | other hother => rw [ingressApply_other hother]
  | first hp =>
    rcases hpass with hnone | htwo
    · exact absurd hnone (by simp [Packet.headers])
    · have hcnt := Option.some.inj htwo
      rw [hp] at hcnt
      exact absurd hcnt (by decide)
  | second hp => rw [ingressApply_headers, ingress_secondPass m.toTables regs hp]

/-- The P4 rule for the payload is the host's. -/
theorem Netccl.Describes.kept {h : Netccl} {op : Op} (hd : h.Describes op)
    (hcode : op.opCode = .allReduce ∨ op.opCode = .reduce ∨ op.opCode = .broadcast)
    (payload : Payload) : (h.kept payload).isSome = needRx op := by
  rw [Netccl.kept, needRx, hd.opCode, hd.root, hd.rank]
  rcases hcode with hcode | hcode | hcode
  · rw [hcode]
    rfl
  · have hbyte : OpCode.reduce.toByte = collTypeReduce := rfl
    rw [hcode, if_pos hbyte]
    by_cases hroot : op.group.rank = op.root
    · rw [if_pos hroot, hroot]
      simp
    · rw [if_neg hroot]
      simp [Ne.symm hroot]
  · have hbyte : OpCode.broadcast.toByte = collTypeBroadcast := rfl
    rw [hcode, if_neg (by decide), if_pos hbyte]
    by_cases hroot : op.group.rank = op.root
    · rw [if_pos hroot, hroot]
      simp
    · rw [if_neg hroot]
      simp [Ne.symm hroot]

theorem Emitted.answers {f : Forwarding} {c : Copy} {h : Headers} {n : ℕ}
    (he : Emitted isRecirculatePort f c h n) (hport : isRecirculatePort c.port = false)
    {netccl : Netccl} (hnetccl : h.netccl = some netccl) : Answers f c h netccl := by
  cases he with
  | other _ hnone _ => exact absurd (hnone.symm.trans hnetccl) (by simp)
  | first _ _ hport' => exact absurd (hport.symm.trans hport') (by decide)
  | @second p eth ip hlen _ hmc =>
    obtain rfl := Option.some.inj hnetccl
    refine ⟨⟨ip, rfl, ?_⟩, fun op hd hcode => hd.kept hcode p.payload, fun hg => ?_⟩
    · rw [hlen]
      exact lengthOf_toNat ip _ _
    · have hgroup : (egressRespond p (c.rid.setWidth 8)).netccl.groupId = p.netccl.groupId := by
        unfold egressRespond
        cases p.internal.enableMulticast <;> rfl
      rw [hgroup] at hg
      unfold egressRespond
      rw [hmc hg, if_pos rfl]

/-- **The discipline of the two passes**, at every place a packet from a server can get to. -/
theorem two_pass_discipline (hw : Wiring m isRecirculatePort) {place : Place}
    (h : Reach (Arrives isRecirculatePort) (Hops m isRecirculatePort) Free place) :
    place.Disciplined m isRecirculatePort := by
  have hs := sound_reach hw h
  refine ⟨fun hdr internal hh hi => hs.passCnt hh hi, hs.once, ?_, ?_, ?_, ?_⟩
  · rintro f c hdr rest n rfl hport
    exact Emitted.parsesBack hs hport rest
  · rintro f c hdr rest n rfl hport
    exact Emitted.removed hs hport
  · rintro f c hdr rest n rfl hport netccl hnetccl
    exact Emitted.answers hs hport hnetccl
  · rintro hdr rest n rfl hpass regs
    exact Entered.registers hs hpass regs

/-! ## 6. A packet on its second pass -/

/-- The switch of `pairMatch`; the multicast of a group goes to port 1 as well. -/
def onePortMatch : Match := { pairMatch with mgid := fun _ => [⟨1, 0⟩] }

theorem onePortMatch_wiring : Wiring onePortMatch (· == 64) where
  recirculate _ _ h := by
    rw [← Option.some.inj h]
    rfl
  l2Forward _ _ h := by
    rw [← L2Action.forward.inj h]
    rfl
  l2Multicast _ _ h := L2Action.noConfusion h
  mgid _ c h := by
    rw [List.mem_singleton.mp h]
    rfl

/-- Registers in which the slots of `pairPacket` are complete. -/
def completeRegs : Regs := ⟨fun _ => ⟨(pairPacket 0).netccl.version, 3⟩, fun _ _ => ⟨0, 0⟩⟩

/-- A packet of rank 0 that finds its slot complete gets to its second pass. -/
theorem two_pass_discipline_second : ∃ place,
    Reach (Arrives (· == 64)) (Hops onePortMatch (· == 64)) Free place ∧
      place.recirculations = 1 ∧ place.headers.isSome = true ∧
      place.Disciplined onePortMatch (· == 64) := by
  let eth : Eth := ⟨2, 1, ipProtocol⟩
  let ip : Ip := ⟨0x45, 0, lengthWithPayload, 0, 0, 64, netcclProtocol, 0, 1, 2⟩
  let p := pairPacket 0
  have harrived : Reach (Arrives (· == 64)) (Hops onePortMatch (· == 64)) Free (.arrived 1
      (Headers.emit ⟨none, eth, some ip, some p.netccl, some p.payload⟩ ++ []) 0) :=
    .init ⟨1, _, rfl, rfl⟩
  have hparsed := harrived.step trivial (.ingressParser (ingressParser_inc [] rfl rfl rfl))
  have hcopies : onePortMatch.copies (ingressApply onePortMatch completeRegs
      ⟨some ⟨1, false⟩, eth, some ip, some p.netccl, some p.payload⟩).2.2 = [⟨64, 0⟩] := by
    decide +kernel
  have hqueued := hparsed.step trivial (.ingress completeRegs ⟨64, 0⟩ (by rw [hcopies]; simp))
  obtain ⟨h₁, rest₁, hbytes, hrouted⟩ := sound_reach onePortMatch_wiring hqueued
  rw [hbytes] at hqueued
  have hegress := hqueued.step trivial (.egressParser (hrouted.parsed rest₁))
  have hleft := hegress.step trivial (.egress false 0 0 (by decide +kernel))
  obtain ⟨hback, -⟩ := (hrouted.emitted (m := onePortMatch) false).parsesBack rfl rest₁
  have hreturned := hleft.step trivial (.recirculate rfl)
  have hsecond := hreturned.step trivial (.ingressParser hback)
  exact ⟨_, hsecond, rfl, rfl, two_pass_discipline onePortMatch_wiring hsecond⟩

end NetCCL.Switch
