/-
# Many groups on one switch

The workers of all hosts, the switch, and what is on its way between them.  The state is that of
`System`, but for two things: a worker may serve several groups, one after the other, and all
groups share the slots of the switch and its two passes.

`Lanes` says who takes part in what.  A group has as many LANES as its hosts have workers: lane
`k` is one group together with one index, and its members are the workers of this index on the
group's hosts.  They have a stream of packets of their own (`Lanes.plan`) in a range of slots of
their own.  A worker is a member of one lane for every group of its host.

No step looks at a lane.  Where a multicast goes is the parameter `copies`: the multicast tree of
the group, and in each of its hosts the queue of the index that the packet came from.
-/
import NetCCL.Backend.Share
import NetCCL.System.Registers

namespace NetCCL

open Lib Switch Backend

/-! ## 1. The cluster and its steps -/

/-- The state.  Whatever is on its way is listed with its number in its group's stream. -/
structure Cluster (W : Type) where
  host : W → Run
  wire : W → List (ℕ × Frame)
  regs : Regs
  recirc : List (ℕ × W × Packet)
  back : List (ℕ × W × Response)

namespace Cluster

variable {W : Type} [DecidableEq W]

/-- What may happen next.  `host` is any step of a worker but the receipt of a response. -/
inductive Action (W : Type)
  | host (w : W) (l : Label)
  | lose (w : W) (m : ℕ)
  | arrive (w : W)
  | second (m : ℕ)
  | loseSecond (m : ℕ)
  | receive (m : ℕ) (typeOfService : BitVec 8)
  | loseBack (m : ℕ)

/-- The frames a worker hands to its NIC in the step that ends in `r`. -/
def sends (r : Run) (events : List Event) : List (ℕ × Frame) :=
  (transmitted events).map fun (position, f) => (r.numberIn f.inc.groupId position, f)

/-- A worker's step. -/
def run (s : Cluster W) (w : W) (l : Label) : Option (Cluster W) :=
  ((s.host w).worker.step l).map fun (v, events) =>
    let r : Run := ⟨v, (s.host w).log ++ events⟩
    { s with
      host := Function.update s.host w r
      wire := Function.update s.wire w (s.wire w ++ sends r events) }

/-- The first pass of a packet: it is dropped, or waits for its second. -/
def firstPass (tbl : Tables) (s : Cluster W) (q : ℕ) (w : W) (f : Frame) : Cluster W :=
  let (regs, p, verdict) := ingress tbl s.regs (packetOf f)
  match verdict with
  | .recirculate _ => { s with regs, recirc := s.recirc ++ [(q, w, egressRecirculate p)] }
  | _ => { s with regs }

/-- The second pass of a packet: a response to every copy of a multicast, or one to its
sender. -/
def secondPass (tbl : Tables) (copies : W → BitVec 8 → List (ℕ × W)) (s : Cluster W) (q : ℕ) (w : W)
    (p : Packet) : Cluster W :=
  let (regs, p, verdict) := ingress tbl s.regs p
  match verdict with
  | .multicast group =>
    let responses := (copies w group).map fun (rid, v) => (q, v, egressRespond p (BitVec.ofNat 8 rid))
    { s with regs, back := s.back ++ responses }
  | .l2Forward => { s with regs, back := s.back ++ [(q, w, egressRespond p 0)] }
  | _ => { s with regs }

/-- One step; `none` when the action is not enabled. -/
def step (tbl : Tables) (copies : W → BitVec 8 → List (ℕ × W)) (s : Cluster W) :
    Action W → Option (Cluster W)
  | .host _ (.receive _) => none
  | .host w l => s.run w l
  | .lose w m => some { s with wire := Function.update s.wire w ((s.wire w).eraseIdx m) }
  | .arrive w =>
    match s.wire w with
    | [] => none
    | (q, f) :: rest => some (firstPass tbl { s with wire := Function.update s.wire w rest } q w f)
  | .second m => (s.recirc[m]?).map fun (q, w, p) =>
      secondPass tbl copies { s with recirc := s.recirc.eraseIdx m } q w p
  | .loseSecond m => some { s with recirc := s.recirc.eraseIdx m }
  | .receive m typeOfService => (s.back[m]?).bind fun (_, w, r) =>
      run { s with back := s.back.eraseIdx m } w (.receive (responseFrame typeOfService r))
  | .loseBack m => some { s with back := s.back.eraseIdx m }

/-- One more step of a run. -/
def Step (tbl : Tables) (copies : W → BitVec 8 → List (ℕ × W)) (s : Cluster W) (a : Action W)
    (s' : Cluster W) : Prop := s.step tbl copies a = some s'

/-- The response is not for a packet of its group 2^32 before one its receiver has built. -/
def Current (s : Cluster W) (m : ℕ) : Prop := ∀ q w r, s.back[m]? = some (q, w, r) →
  ((s.host w).builtIn r.netccl.groupId).length ≤ q + 2 ^ 32

/-- The response a step hands to `rx_process_one`. -/
def Handed (s : Cluster W) (a : Action W) (w : W) (fr : Frame) : Prop :=
  ∃ m q r typeOfService, a = .receive m typeOfService ∧ s.back[m]? = some (q, w, r) ∧
    fr = responseFrame typeOfService r

/-- **What a step does to the workers**: nothing, or one of them takes a step, which is the receipt
of a response only if it is handed one. -/
theorem step_host {tbl : Tables} {copies : W → BitVec 8 → List (ℕ × W)} {s s' : Cluster W}
    {a : Action W} (h : s.step tbl copies a = some s') :
    s'.host = s.host ∨ ∃ w l r events, (s.host w).worker.step l = some (r.worker, events) ∧
      r.log = (s.host w).log ++ events ∧ s'.host = Function.update s.host w r ∧
      ((∀ fr, l ≠ .receive fr) → a = .host w l) ∧ ∀ fr, l = .receive fr → s.Handed a w fr := by
  have hrun : ∀ (s₁ : Cluster W) (w : W) (l : Label), s₁.host = s.host → s₁.run w l = some s' →
      ∃ r events, (s.host w).worker.step l = some (r.worker, events) ∧
        r.log = (s.host w).log ++ events ∧ s'.host = Function.update s.host w r := by
    intro s₁ w l hhost hrun
    obtain ⟨⟨v, events⟩, hv, rfl⟩ := Option.map_eq_some_iff.mp hrun
    rw [hhost] at hv
    exact ⟨⟨v, (s.host w).log ++ events⟩, events, hv, rfl, by dsimp only; rw [hhost]⟩
  cases a with
  | host w l =>
    have hl : s.run w l = some s' ∧ ∀ fr, l ≠ .receive fr := by
      cases l with
      | receive fr => cases h
      | _ => exact ⟨h, by simp⟩
    obtain ⟨r, events, hw, hlog, hhost⟩ := hrun s w l rfl hl.1
    exact Or.inr ⟨w, l, r, events, hw, hlog, hhost, fun _ => rfl, fun fr he => absurd he (hl.2 fr)⟩
  | receive m typeOfService =>
    obtain ⟨⟨q, w, resp⟩, hm, hr⟩ := Option.bind_eq_some_iff.mp h
    obtain ⟨r, events, hw, hlog, hhost⟩ :=
      hrun { s with back := s.back.eraseIdx m } w _ rfl hr
    refine Or.inr ⟨w, _, r, events, hw, hlog, hhost, fun hne => absurd rfl (hne _), fun fr he => ?_⟩
    exact ⟨m, q, resp, typeOfService, rfl, hm, (Label.receive.inj he).symm⟩
  | lose w m =>
    obtain rfl := Option.some.inj h
    exact Or.inl rfl
  | arrive w =>
    simp only [step] at h
    split at h
    · cases h
    · obtain rfl := Option.some.inj h
      refine Or.inl ?_
      unfold firstPass
      dsimp only
      split <;> rfl
  | second m =>
    obtain ⟨⟨q, w, p⟩, hm, rfl⟩ := Option.map_eq_some_iff.mp h
    refine Or.inl ?_
    unfold secondPass
    dsimp only
    split <;> rfl
  | loseSecond m =>
    obtain rfl := Option.some.inj h
    exact Or.inl rfl
  | loseBack m =>
    obtain rfl := Option.some.inj h
    exact Or.inl rfl

end Cluster

/-! ## 2. Lanes -/

/-- The lanes: how many ranks each has, what it sends, and the worker of each rank. -/
structure Lanes (W K : Type) where
  n : K → ℕ
  plan : K → Plan
  worker : ∀ k, Fin (n k) → W

namespace Lanes

variable {W K : Type} (D : Lanes W K)

/-- The group id of a lane. -/
def gid (k : K) : BitVec 8 := (D.plan k).groupId

/-- A worker has a lane for this group. -/
def Has (w : W) (g : BitVec 8) : Prop := ∃ k i, D.worker k i = w ∧ D.gid k = g

/-- **The lanes as they are set up**: each is created, its members are different workers, a
worker has one lane for a group and the same number of slots in all its lanes, no two lanes
share a slot, and a multicast reaches the members of the lane it came from. -/
structure Created (tbl : Tables) (copies : W → BitVec 8 → List (ℕ × W)) : Prop where
  created : ∀ k, NetCCL.Created (D.plan k) tbl (D.n k)
  members : ∀ k, Function.Injective (D.worker k)
  groups : ∀ k k' i j, D.worker k i = D.worker k' j → D.gid k = D.gid k' → k = k'
  lengths : ∀ k k' i j, D.worker k i = D.worker k' j → (D.plan k).aggLen = (D.plan k').aggLen
  bound : ∀ k, (D.plan k).aggAddr + (D.plan k).aggLen ≤ 2 ^ 16
  slots : ∀ k k', k ≠ k' → (D.plan k).aggAddr + (D.plan k).aggLen ≤ (D.plan k').aggAddr ∨
    (D.plan k').aggAddr + (D.plan k').aggLen ≤ (D.plan k).aggAddr
  copies : ∀ k i, copies (D.worker k i) (D.gid k) =
    (List.finRange (D.n k)).map fun j => (j.val, D.worker k j)

/-- Before the first sub-op: empty slots, and for each lane the same counter on all members. -/
structure Init (s : Cluster W) : Prop where
  host : ∀ w, ∃ ctx, (∀ k i, D.worker k i = w → ctx (D.gid k) = (D.plan k).psn) ∧ (s.host w).Init ctx
  wire : ∀ w, s.wire w = []
  slots : ∀ k, ∀ j < (D.plan k).aggLen,
    s.regs.regBitmap (BitVec.ofNat 16 ((D.plan k).aggAddr + j)) = ⟨0, 0⟩
  recirc : s.recirc = []
  back : s.back = []

/-- What packet `q` of a lane contributes for a rank: the words it carries, or zeros. -/
def contribution (s : Cluster W) (k : K) : Pay (D.n k) := fun i q =>
  (((s.host (D.worker k i)).builtIn (D.gid k))[q]?).elim (fun _ => ⟨0, 0⟩) fun p =>
    (packetOf p.pkt).payload

/-- What the load balancer of a worker keeps to: a sub-op is queued for one of the worker's
lanes, as the lane's plan has it, and not behind a sub-op of another group. -/
structure Allows (w : W) (r : Run) (l : Label) : Prop where
  barrier : Barrier r l
  plan : ∀ t, l = .pushReq t → ∃ k i, D.worker k i = w ∧
    (D.plan k).Gives i (r.worker.indexIn (D.gid k) r.worker.heap.length) t

/-- What is assumed of the load balancers, and of the network: no response is 2^32 packets
late. -/
structure Orderly (s : Cluster W) (a : Cluster.Action W) : Prop where
  host : ∀ w l, a = .host w l → D.Allows w (s.host w) l
  current : ∀ m typeOfService, a = .receive m typeOfService → s.Current m

/-- ... and of the data. -/
structure Promised (s : Cluster W) (a : Cluster.Action W) : Prop extends D.Orderly s a where
  fits : ∀ k q w, SubsetFits Finset.univ fun i => word (D.contribution s k i q) w

variable {D} {tbl : Tables} {copies : W → BitVec 8 → List (ℕ × W)}

/-- The slots of a lane. -/
theorem Created.addr_range (h : D.Created tbl copies) (k : K) (q : ℕ) :
    (D.plan k).aggAddr ≤ ((D.plan k).addr q).toNat ∧
      ((D.plan k).addr q).toNat < (D.plan k).aggAddr + (D.plan k).aggLen := by
  have hpos : 0 < (D.plan k).aggLen :=
    Nat.pos_of_dvd_of_pos (h.created k).dvd (by decide)
  have hlt := Nat.mod_lt ((D.plan k).psn + BitVec.ofNat 32 q).toNat hpos
  have hbound := h.bound k
  have haddr : ((D.plan k).addr q).toNat = (D.plan k).aggAddr +
      ((D.plan k).psn + BitVec.ofNat 32 q).toNat % (D.plan k).aggLen := by
    unfold Plan.addr Plan.header
    rw [BitVec.toNat_ofNat, Nat.mod_eq_of_lt (by omega)]
  omega

/-- **No two lanes share a slot.** -/
theorem Created.addr_ne (h : D.Created tbl copies) {k k' : K} (hne : k ≠ k') (q q' : ℕ) :
    (D.plan k).addr q ≠ (D.plan k').addr q' := by
  intro he
  have hnat := congrArg BitVec.toNat he
  have h₁ := h.addr_range k q
  have h₂ := h.addr_range k' q'
  rcases h.slots k k' hne with hle | hle <;> omega

theorem Allows.receive {w : W} {r : Run} {fr : Frame} : D.Allows w r (.receive fr) :=
  ⟨trivial, fun _ he => by cases he⟩

/-- The plan of every lane of the worker is followed. -/
theorem Allows.followsIn (h : D.Created tbl copies) {w : W} {r : Run} {l : Label}
    (hok : D.Allows w r l) {k : K} {i : Fin (D.n k)} (hw : D.worker k i = w) :
    (D.plan k).FollowsIn i r l := by
  cases l with
  | pushReq t =>
    intro hgroup
    obtain ⟨k', i', hw', hgives⟩ := hok.plan t rfl
    obtain rfl : k' = k := by
      refine h.groups k' k i' i (hw'.trans hw.symm) ?_
      exact hgives.groupId.symm.trans hgroup
    obtain rfl := h.members k' (hw'.trans hw.symm)
    exact hgives
  | _ => trivial

end Lanes

end NetCCL
