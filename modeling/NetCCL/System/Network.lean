/-
# Hosts, switch and network

The system that reduces for one group: the workers of one index on the group's `n` hosts, the
switch, and what is on its way between them.  A packet is on its way three times:

* from its host to the switch, on `wire`: in order, but for what is lost;
* from its first pass through the switch to its second, in `recirc`;
* back to a host, in `back`, of which a multicast puts one response for every rank.

From `recirc` and `back` anything may come next, however late, or be lost.  `System.step` lets
the workers' threads (`Worker.step`), the switch (`ingress`) and the network act in any order.

Whatever is on its way is listed with its number, which packet of its host's stream it is; no
step looks at the number.  It is there to say what becomes of one packet, which its PSN, taken
again after 2^32 packets, does not say.

`ingressPass_frame` connects `packetOf` to the bytes: what is done here to a frame is what the
ingress pipeline does to the bytes the NIC sends.
-/
import NetCCL.Backend.Member
import NetCCL.Switch.Verdict
import NetCCL.Wire

namespace NetCCL

open Lib Switch Backend

/-! ## 1. Frames and packets -/

/-- What the ingress parser makes of a frame. -/
def packetOf (f : Frame) : Packet :=
  ⟨⟨1, false⟩, f.inc, if f.pktLen = sizeofNetcclPkt then payloadOf f.payload else fun _ => ⟨0, 0⟩⟩

/-- A response as the NIC delivers it, with the ECN bits the switch gave it; the shortest frame
has 60 bytes. -/
def responseFrame (typeOfService : BitVec 8) (r : Response) : Frame where
  inc := r.netccl
  typeOfService
  pktLen := if r.payload.isSome then sizeofNetcclPkt else 60
  payload j := (r.payload.elim [] payloadLayout.emit).getD j 0

/-- `fill_pkt` makes frames of two lengths. -/
theorem fillPkt_pktLen (mem : ℕ → Backend.Byte) (s : SubOp) (p : PktState) :
    (fillPkt mem s p).pkt.pktLen = sizeofNetcclPkt ∨
      (fillPkt mem s p).pkt.pktLen = sizeofHeaders := by
  unfold fillPkt
  dsimp only
  split
  · exact Or.inl rfl
  · exact Or.inr rfl

/-- **A frame in the ingress pipeline**: the bytes the NIC sends are taken for `packetOf`. -/
theorem ingressPass_frame (m : Match) (regs : Regs) (pre : PrefillPkt) (switchIp : BitVec 32)
    (mem : ℕ → Backend.Byte) (s : SubOp) (p : PktState) :
    let f := (fillPkt mem s p).pkt
    ingressPass m regs false (nicPad (hostBytes pre switchIp f)) =
      some ((ingress m.toTables regs (packetOf f)).1,
        ((ingress m.toTables regs (packetOf f)).2.1.headers (hostEth pre).setDmac
          (hostIp pre switchIp f).adjustLength).emit ++ [],
        m.copies (m.verdict (hostEth pre).smac (ingress m.toTables regs (packetOf f)).2.2)) := by
  intro f
  rw [ingressPass]
  rcases fillPkt_pktLen mem s p with hlen | hlen
  · rw [ingressParser_withPayload pre switchIp hlen, packetOf, if_pos hlen]
    rfl
  · rw [ingressParser_withoutPayload pre switchIp hlen, packetOf, if_neg (by rw [hlen]; decide)]
    rfl

/-- The words of a response are those of its payload. -/
theorem payloadOf_responseFrame (typeOfService : BitVec 8) {r : Response} {payload : Payload}
    (h : r.payload = some payload) :
    payloadOf (responseFrame typeOfService r).payload = payload := by
  refine payloadOf_eq ?_
  rw [responseFrame, h]
  exact map_getD_emit payload

/-! ## 2. The system and its steps -/

/-- The system. -/
structure System (n : ℕ) where
  host : Fin n → Run
  wire : Fin n → List (ℕ × Frame)
  regs : Regs
  recirc : List (ℕ × Fin n × Packet)
  back : List (ℕ × Fin n × Response)

/-- What may happen next.  `host` is any step of a worker but the receipt of a response. -/
inductive Action (n : ℕ)
  | host (i : Fin n) (l : Label)
  | lose (i : Fin n) (k : ℕ)
  | arrive (i : Fin n)
  | second (k : ℕ)
  | loseSecond (k : ℕ)
  | receive (k : ℕ) (typeOfService : BitVec 8)
  | loseBack (k : ℕ)

namespace System

variable {n : ℕ}

/-- The frames a host hands to its NIC when it has built `m` packets. -/
def sends (m : ℕ) (events : List Event) : List (ℕ × Frame) :=
  (transmitted events).map fun (position, f) => (numberAt m position, f)

/-- A worker's step. -/
def run (s : System n) (i : Fin n) (l : Label) : Option (System n) :=
  ((s.host i).worker.step l).map fun (w, events) =>
    let r : Run := ⟨w, (s.host i).log ++ events⟩
    { s with
      host := Function.update s.host i r
      wire := Function.update s.wire i (s.wire i ++ sends (built r.log).length events) }

/-- The first pass of a packet: it is dropped, or waits for its second. -/
def firstPass (tbl : Tables) (s : System n) (q : ℕ) (i : Fin n) (f : Frame) : System n :=
  let (regs, p, verdict) := ingress tbl s.regs (packetOf f)
  match verdict with
  | .recirculate _ => { s with regs, recirc := s.recirc ++ [(q, i, egressRecirculate p)] }
  | _ => { s with regs }

/-- The second pass of a packet: a response to every rank, or one to its sender. -/
def secondPass (tbl : Tables) (s : System n) (q : ℕ) (i : Fin n) (p : Packet) : System n :=
  let (regs, p, verdict) := ingress tbl s.regs p
  match verdict with
  | .multicast _ =>
    let responses := (List.finRange n).map fun j : Fin n =>
      (q, j, egressRespond p (BitVec.ofNat 8 j))
    { s with regs, back := s.back ++ responses }
  | .l2Forward => { s with regs, back := s.back ++ [(q, i, egressRespond p 0)] }
  | _ => { s with regs }

/-- One step of the system; `none` when the action is not enabled. -/
def step (tbl : Tables) (s : System n) : Action n → Option (System n)
  | .host _ (.receive _) => none
  | .host i l => s.run i l
  | .lose i k => some { s with wire := Function.update s.wire i ((s.wire i).eraseIdx k) }
  | .arrive i =>
    match s.wire i with
    | [] => none
    | (q, f) :: rest => some (firstPass tbl { s with wire := Function.update s.wire i rest } q i f)
  | .second k => (s.recirc[k]?).map fun (q, i, p) =>
      secondPass tbl { s with recirc := s.recirc.eraseIdx k } q i p
  | .loseSecond k => some { s with recirc := s.recirc.eraseIdx k }
  | .receive k typeOfService => (s.back[k]?).bind fun (_, i, r) =>
      run { s with back := s.back.eraseIdx k } i (.receive (responseFrame typeOfService r))
  | .loseBack k => some { s with back := s.back.eraseIdx k }

/-- One more step of a run. -/
def Step (tbl : Tables) (s : System n) (a : Action n) (s' : System n) : Prop :=
  s.step tbl a = some s'

/-- Some steps, each allowed by `ok`. -/
def exec (tbl : Tables) (ok : System n → Action n → Bool) (s : System n) :
    List (Action n) → Option (System n)
  | [] => some s
  | a :: as => if ok s a then (s.step tbl a).bind fun s' => exec tbl ok s' as else none

theorem exec_reach {tbl : Tables} {ok : System n → Action n → Bool} {init : System n → Prop}
    {P : System n → Action n → Prop} (hok : ∀ s a, ok s a = true → P s a) (as : List (Action n)) :
    ∀ {s s' : System n}, Reach init (Step tbl) P s → s.exec tbl ok as = some s' →
      Reach init (Step tbl) P s' := by
  induction as with
  | nil =>
    intro s s' hs h
    exact Option.some.inj h ▸ hs
  | cons a as ih =>
    intro s s' hs h
    rw [exec] at h
    split at h
    · obtain ⟨s₁, h₁, hrest⟩ := Option.bind_eq_some_iff.mp h
      exact ih (.step hs (hok s a ‹_›) h₁) hrest
    · cases h

/-! ## 3. The group -/

/-- What packet `q` of a rank contributes: the words it carries, or zeros. -/
def contribution (s : System n) (i : Fin n) (q : ℕ) : Payload :=
  ((built (s.host i).log)[q]?).elim (fun _ => ⟨0, 0⟩) fun p => (packetOf p.pkt).payload

/-- For every packet and word, the sum over any of the ranks fits. -/
def Fits (s : System n) : Prop :=
  ∀ q w, SubsetFits Finset.univ fun i => word (s.contribution i q) w

/-- The response is not for a packet 2^32 before one its receiver has built. -/
def Current (s : System n) (k : ℕ) : Prop :=
  ∀ q i r, s.back[k]? = some (q, i, r) → (built (s.host i).log).length ≤ q + 2 ^ 32

end System

/-- The group as the controller has set it up, for the workers of one index: `n` ranks, and
`agg_len` slots, an `agg_size_t`. -/
structure Created (G : Plan) (tbl : Tables) (n : ℕ) : Prop where
  registered : Registered tbl G.groupId n
  recirculates : ∃ port, tbl.recirculateTable G.groupId = some port
  dvd : G.aggLen ∣ 2 ^ 32
  limit : ccCwndMin ≤ G.aggLen / 2
  width : G.aggLen < 2 ^ 16

namespace System

variable {n : ℕ}

/-- Before the first sub-op of the group: its slots are empty, and all hosts have the same
counter for it. -/
structure Init (G : Plan) (s : System n) : Prop where
  host : ∀ i, ∃ ctx, ctx G.groupId = G.psn ∧ (s.host i).Init ctx
  wire : ∀ i, s.wire i = []
  slots : ∀ j < G.aggLen, s.regs.regBitmap (BitVec.ofNat 16 (G.aggAddr + j)) = ⟨0, 0⟩
  recirc : s.recirc = []
  back : s.back = []

/-- What is assumed of the load balancers and of the network. -/
structure Orderly (G : Plan) (s : System n) (a : Action n) : Prop where
  plan : ∀ i l, a = .host i l → G.Follows i (s.host i) l
  current : ∀ k typeOfService, a = .receive k typeOfService → s.Current k

/-- ... and of the data. -/
structure Promised (G : Plan) (s : System n) (a : Action n) : Prop extends s.Orderly G a where
  fits : s.Fits

/-- What is assumed when responses may be arbitrarily late. -/
structure Delayed (G : Plan) (s : System n) (a : Action n) : Prop where
  fits : s.Fits
  plan : ∀ i l, a = .host i l → G.Follows i (s.host i) l

/-! ## 4. One step -/

variable {tbl : Tables} {s s' s'' : System n} {i : Fin n}

/-- Nothing but rank `i` and its wire has changed, and perhaps what is on its way back. -/
structure Aside (i : Fin n) (s s' : System n) : Prop where
  host : ∀ k ≠ i, s'.host k = s.host k
  wire : ∀ k ≠ i, s'.wire k = s.wire k
  regs : s'.regs = s.regs
  recirc : s'.recirc = s.recirc

theorem Aside.refl (i : Fin n) (s : System n) : Aside i s s :=
  ⟨fun _ _ => rfl, fun _ _ => rfl, rfl, rfl⟩

theorem Aside.trans (h : Aside i s s') (h' : Aside i s' s'') : Aside i s s'' :=
  ⟨fun k hk => (h'.host k hk).trans (h.host k hk), fun k hk => (h'.wire k hk).trans (h.wire k hk),
    h'.regs.trans h.regs, h'.recirc.trans h.recirc⟩

/-- A worker's step. -/
theorem run_aside {l : Label} {w : Worker} {events : List Event}
    (hw : (s.host i).worker.step l = some (w, events)) :
    ∃ s', s.run i l = some s' ∧ Aside i s s' ∧ s'.host i = ⟨w, (s.host i).log ++ events⟩ ∧
      s'.back = s.back ∧ ∃ out, s'.wire i = s.wire i ++ out ∧
        out.map (·.2) = (transmitted events).map (·.2) := by
  rw [run, hw]
  refine ⟨_, rfl, ⟨fun k hk => ?_, fun k hk => ?_, rfl, rfl⟩, ?_, rfl,
    sends (built ((s.host i).log ++ events)).length events, ?_, ?_⟩
  · exact Function.update_of_ne hk _ _
  · exact Function.update_of_ne hk _ _
  · exact Function.update_self _ _ _
  · exact Function.update_self _ _ _
  · rw [sends, List.map_map]
    rfl

/-- **What a rank does by itself** is a run of the system. -/
theorem host_reach {init : System n → Prop} {P : System n → Action n → Prop}
    {ok : Run → Label → Prop} {r' : Run} (hs : Reach init (Step tbl) P s)
    (h : Reach (· = s.host i) Run.Step ok r')
    (hok : ∀ s₁ l, Aside i s s₁ → ok (s₁.host i) l →
      (∀ f, l ≠ .receive f) ∧ P s₁ (.host i l)) :
    ∃ s', Reach init (Step tbl) P s' ∧ Aside i s s' ∧ s'.host i = r' ∧ s'.back = s.back ∧
      ∃ out, s'.wire i = s.wire i ++ out ∧
        (transmitted r'.log).map (·.2) =
          (transmitted (s.host i).log).map (·.2) ++ out.map (·.2) := by
  induction h with
  | init he =>
    obtain rfl := he
    exact ⟨s, hs, .refl i s, rfl, rfl, [], by simp, by simp⟩
  | @step r r' l _ hr hstep ih =>
    obtain ⟨s₁, hs₁, haside, hhost, hback, out, hwire, hsent⟩ := ih
    obtain ⟨events, hw, hlog⟩ := hstep
    rw [← hhost] at hw hr
    obtain ⟨hnone, hP⟩ := hok s₁ l haside hr
    obtain ⟨s₂, hrun, haside', hhost', hback', out', hwire', hsent'⟩ := run_aside hw
    have hstep : s₁.Step tbl (.host i l) s₂ := by
      rw [Step, ← hrun]
      cases l with
      | receive f => exact absurd rfl (hnone f)
      | _ => rfl
    refine ⟨s₂, .step hs₁ hP hstep, haside.trans haside', ?_, hback'.trans hback, out ++ out', ?_,
      ?_⟩
    · rw [hhost', hhost, ← hlog]
    · rw [hwire', hwire, List.append_assoc]
    · rw [hlog, transmitted_append, List.map_append, hsent, List.map_append, hsent',
        List.append_assoc]

/-- The only frame on a wire is dropped. -/
theorem arrive_drop {q : ℕ} {f : Frame} (hw : s.wire i = [(q, f)])
    (hv : (ingress tbl s.regs (packetOf f)).2.2 = .drop) :
    ∃ s', s.Step tbl (.arrive i) s' ∧ s'.host = s.host ∧ s'.wire = Function.update s.wire i [] ∧
      s'.regs = (ingress tbl s.regs (packetOf f)).1 ∧ s'.recirc = s.recirc ∧ s'.back = s.back := by
  unfold Step step
  dsimp only
  rw [hw]
  dsimp only
  rw [firstPass]
  dsimp only
  rw [hv]
  exact ⟨_, rfl, rfl, rfl, rfl, rfl, rfl⟩

/-- ... or recirculated. -/
theorem arrive_recirculate {q port : ℕ} {f : Frame} (hw : s.wire i = [(q, f)])
    (hv : (ingress tbl s.regs (packetOf f)).2.2 = .recirculate port) :
    ∃ s', s.Step tbl (.arrive i) s' ∧ s'.host = s.host ∧ s'.wire = Function.update s.wire i [] ∧
      s'.regs = (ingress tbl s.regs (packetOf f)).1 ∧
      s'.recirc = s.recirc ++ [(q, i, egressRecirculate (ingress tbl s.regs (packetOf f)).2.1)] ∧
      s'.back = s.back := by
  unfold Step step
  dsimp only
  rw [hw]
  dsimp only
  rw [firstPass]
  dsimp only
  rw [hv]
  exact ⟨_, rfl, rfl, rfl, rfl, rfl, rfl⟩

/-- The only packet between its passes is multicast. -/
theorem second_multicast {q : ℕ} {p : Packet} (hrecirc : s.recirc = [(q, i, p)])
    (hpass : p.internal.passCnt = 2) (hmc : p.internal.enableMulticast = true) :
    ∃ s', ∃ r : Fin n → Response, s.Step tbl (.second 0) s' ∧ s'.host = s.host ∧
      s'.wire = s.wire ∧ s'.regs = s.regs ∧ s'.recirc = [] ∧
      s'.back = s.back ++ (List.finRange n).map (fun j => (q, j, r j)) ∧
      ∀ j, (r j).netccl.groupId = p.netccl.groupId ∧ (r j).netccl.psn = p.netccl.psn := by
  have hsecond := ingress_secondPass tbl s.regs hpass
  rw [hmc] at hsecond
  unfold Step step
  dsimp only
  rw [hrecirc]
  simp only [List.getElem?_cons_zero, Option.map_some, secondPass, hsecond]
  refine ⟨_, fun j => egressRespond _ (BitVec.ofNat 8 j), rfl, rfl, rfl, rfl, rfl, rfl, fun j => ?_⟩
  unfold egressRespond
  dsimp only
  split <;> exact ⟨rfl, rfl⟩

end System

end NetCCL
