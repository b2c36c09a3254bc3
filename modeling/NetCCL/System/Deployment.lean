/-
# The controller and the cluster

A `Deployment` is a controller together with the cluster whose switch it fills: a request changes
the tables and clears the slots of a group, at any time, and everything else is a step of the
cluster under the tables as they are.  Groups come and go while others run.

The lanes of a deployment are read off the controller (`Session.lanes`): the live groups, each
with the slots of its answer, its members at the ports of its multicast tree, and one lane for
every index of a worker.  What each of them sends is `ops`, the collectives of a group in their
order.

* `lanes_created`: the lanes of a controller's state are set up, whatever requests led to it.
* `Deployment.Joint` is the invariant: `Cluster.Joint`, for the lanes there are at the moment.
* `deployment_agreement`: whatever response a worker accepts for a live group carries the sums
  over the ranks of the group.

Two things are asked of those who make requests (`Deployment.Fresh`, `Deployment.Quiet`).  The
members of a new group have not used its id before, since nothing ever resets the PSN counter of
an id; and a group is destroyed when it is done, because the slots of a packet that comes later
may be another group's by then.
-/
import NetCCL.System.Isolation
import NetCCL.Controller.Entries
import NetCCL.Slots

namespace NetCCL

open Lib Controller Switch Backend

/-! ## 1. The deployment -/

/-- The tables as the pipeline sees them. -/
def Controller.Installed.tables (t : Installed) : Tables where
  metadataTable g := (t.metadata.lookup g.toNat).map (BitVec.ofNat 32)
  recirculateTable g := t.recirculate.lookup g.toNat

/-- A collective of a group, as all its ranks post it. -/
structure GroupOp where
  opCode : OpCode
  root : BitVec 8
  size : ℕ
  deriving DecidableEq

/-- A controller and a cluster of hosts at the ports of the switch, with `nworker` workers each. -/
structure Deployment (nworker : ℕ) where
  session : Session
  cluster : Cluster (ℕ × Fin nworker)

variable {nworker : ℕ}

/-- The copies of a multicast: one for each rank, to the queue it came from. -/
def Controller.Installed.copies (t : Installed) (w : ℕ × Fin nworker) (g : BitVec 8) :
    List (ℕ × (ℕ × Fin nworker)) :=
  (t.tree g.toNat).map fun x => (x.1, (x.2, w.2))

/-- The ports of the members of a group. -/
def Controller.Session.ports (s : Session) (r : CreateGroupResponse) : List ℕ :=
  (s.ctl.installed.tree r.groupId).map (·.2)

/-- A lane for every live group and every index. -/
abbrev Controller.Session.Lane (s : Session) (nworker : ℕ) :=
  {r : CreateGroupResponse // r ∈ s.live} × Fin nworker

/-- What the workers of an index send for a group. -/
def lanePlan (ops : ℕ → ℕ → GroupOp) (r : CreateGroupResponse) (nworker x : ℕ) : Plan where
  groupId := BitVec.ofNat 8 r.groupId
  aggAddr := r.aggAddr + r.aggLen / nworker * x
  aggLen := r.aggLen / nworker
  psn := 0
  opCode j := (ops r.groupId j).opCode
  root j := (ops r.groupId j).root
  size j := subSize (ops r.groupId j).size nworker x

/-- The lanes of a controller's live groups. -/
def Controller.Session.lanes (s : Session) (ops : ℕ → ℕ → GroupOp) :
    Lanes (ℕ × Fin nworker) (s.Lane nworker) where
  n k := (s.ports k.1.1).length
  plan k := lanePlan ops k.1.1 nworker k.2
  worker k i := ((s.ports k.1.1).get i, k.2)

namespace Deployment

/-- A step of the cluster, or a request to the controller. -/
inductive Action (nworker : ℕ)
  | cluster (a : Cluster.Action (ℕ × Fin nworker))
  | request (req : Request)

/-- A request, which finds the registers as the packets have left them. -/
def serve (topo : Topo) (s : Deployment nworker) (req : Request) : Deployment nworker :=
  let ctl := { s.session.ctl with installed.regBitmap := s.cluster.regs.regBitmap }
  let session := Session.serve topo ⟨ctl, s.session.live⟩ req
  ⟨session, { s.cluster with regs.regBitmap := session.ctl.installed.regBitmap }⟩

/-- One step; `none` when the action is not enabled. -/
def step (topo : Topo) (s : Deployment nworker) : Action nworker → Option (Deployment nworker)
  | .cluster a =>
    let t := s.session.ctl.installed
    (s.cluster.step t.tables t.copies a).map fun cluster => { s with cluster }
  | .request req => some (s.serve topo req)

/-- One more step of a run. -/
def Step (topo : Topo) (s : Deployment nworker) (a : Action nworker) (s' : Deployment nworker) :
    Prop := s.step topo a = some s'

/-- A controller that has just started, with hosts that have too. -/
structure Init (topo : Topo) (s : Deployment nworker) : Prop where
  session : ∃ t, s.session = ⟨reinit topo t, []⟩
  host : ∀ w, (s.cluster.host w).Init fun _ => 0
  wire : ∀ w, s.cluster.wire w = []
  recirc : s.cluster.recirc = []
  back : s.cluster.back = []

/-- The id has not been used at these ports, and nothing of it is on its way. -/
structure Fresh (s : Deployment nworker) (groupid : ℕ) (ports : List ℕ) : Prop where
  heap : ∀ port ∈ ports, ∀ x, ∀ t ∈ (s.cluster.host (port, x)).worker.heap,
    t.op.group.groupId.toNat ≠ groupid
  recirc : ∀ x ∈ s.cluster.recirc, x.2.2.netccl.groupId.toNat ≠ groupid
  back : ∀ x ∈ s.cluster.back, x.2.2.netccl.groupId.toNat ≠ groupid

/-- The group is done: its members have answers to all its sub-ops, and no packet of it is on its
way to the switch. -/
structure Quiet (s : Deployment nworker) (r : CreateGroupResponse) : Prop where
  answered : ∀ port ∈ s.session.ports r, ∀ x,
    ∀ ptr < (s.cluster.host (port, x)).worker.heap.length,
      ((s.cluster.host (port, x)).worker.groupOf ptr).toNat = r.groupId →
        ptr ∈ pushed (s.cluster.host (port, x)).log
  wire : ∀ port ∈ s.session.ports r, ∀ x, ∀ y ∈ s.cluster.wire (port, x),
    y.2.inc.groupId.toNat ≠ r.groupId

/-- The load balancer of a member of a live group queues the next sub-op of the group. -/
def Posts (ops : ℕ → ℕ → GroupOp) (s : Deployment nworker) (w : ℕ × Fin nworker) (t : SubOp) : Prop :=
  ∃ r ∈ s.session.live, ∃ i, (s.session.ports r)[i]? = some w.1 ∧
    t.op.group = ⟨BitVec.ofNat 8 r.groupId, BitVec.ofNat 8 (s.session.ports r).length,
      BitVec.ofNat 8 i, r.aggAddr, r.aggLen⟩ ∧
    ops r.groupId ((s.cluster.host w).worker.indexIn (BitVec.ofNat 8 r.groupId)
      (s.cluster.host w).worker.heap.length) = ⟨t.op.opCode, t.op.root, t.op.size⟩ ∧
    (subOps t.op nworker)[w.2.val]? = some t

/-- What is assumed of the requests, of the load balancers, and of the network. -/
structure Orderly (topo : Topo) (ops : ℕ → ℕ → GroupOp) (s : Deployment nworker)
    (a : Action nworker) : Prop where
  create : ∀ member, a = .request (.create member) → member.length ≤ 32 ∧
    (member.map topo.ip2port).Nodup ∧
    ∀ groupid ∈ s.session.ctl.freeGroup.head?, s.Fresh groupid (member.map topo.ip2port)
  destroy : ∀ groupid, a = .request (.destroy groupid) →
    ∀ r ∈ s.session.live, r.groupId = groupid → s.Quiet r
  posts : ∀ w t, a = .cluster (.host w (.pushReq t)) →
    Barrier (s.cluster.host w) (.pushReq t) ∧ s.Posts ops w t
  current : ∀ m typeOfService, a = .cluster (.receive m typeOfService) → s.cluster.Current m

/-- ... and of the data. -/
structure Promised (topo : Topo) (ops : ℕ → ℕ → GroupOp) (s : Deployment nworker)
    (a : Action nworker) : Prop extends Orderly topo ops s a where
  fits : ∀ (k : s.session.Lane nworker) q v,
    SubsetFits Finset.univ fun i => word ((s.session.lanes ops).contribution s.cluster k i q) v

end Deployment

/-! ## 2. The lanes of a controller -/

/-- How many workers there may be: each has a number of slots that divides 2^32, and enough of
them for the least window. -/
structure Divides (nworker : ℕ) : Prop where
  dvd : allocSize / mtuSize / nworker ∣ 2 ^ 32
  limit : ccCwndMin ≤ allocSize / mtuSize / nworker / 2

section Lanes

variable {topo : Topo} {s : Session} {recs : List GroupVars} {ops : ℕ → ℕ → GroupOp}

/-- What `CreateGroup` was asked for: at most 32 members, at different ports. -/
def Controller.Session.Small (s : Session) : Prop :=
  ∀ r ∈ s.live, (s.ports r).length ≤ 32 ∧ (s.ports r).Nodup

theorem Controller.Installs.ports_eq {v : GroupVars} (h : Installs topo s v) :
    s.ports (v.response topo) = v.member.map topo.ip2port := by
  have htree : s.ctl.installed.tree (v.response topo).groupId = _ := h.tree_eq
  rw [Session.ports, htree, List.map_map]
  conv_rhs => rw [← List.zipIdx_map_fst 0 v.member, List.map_map]
  rfl

/-- The ids of live groups are different, and fit the header. -/
theorem Controller.Inv.live_ids (h : Inv topo s recs) :
    (∀ r ∈ s.live, r.groupId < 2 ^ 8 ∧ r.aggLen = allocSize / mtuSize) ∧
      ∀ r ∈ s.live, ∀ r' ∈ s.live, r.groupId = r'.groupId → r = r' := by
  rw [h.live]
  constructor
  · intro r hr
    obtain ⟨v, hv, rfl⟩ := List.mem_map.mp hr
    have := List.mem_range'_1.mp (h.id_mem hv)
    simp only [maxGroupNum] at this
    exact ⟨show v.groupid < 2 ^ 8 by omega, rfl⟩
  · intro r hr r' hr' heq
    obtain ⟨v, hv, rfl⟩ := List.mem_map.mp hr
    obtain ⟨w, hw, rfl⟩ := List.mem_map.mp hr'
    rw [List.inj_on_of_nodup_map h.nodup hv hw heq]

/-- The part of a worker is a part of the group's range. -/
theorem lane_inside (k : s.Lane nworker) :
    k.1.1.aggLen / nworker * k.2 + k.1.1.aggLen / nworker ≤ k.1.1.aggLen := by
  rw [← Nat.mul_succ]
  exact (Nat.mul_le_mul_left _ k.2.isLt).trans (Nat.div_mul_le_self _ _)

/-- **The lanes of a controller's state are set up**, whatever requests led to it. -/
theorem lanes_created (ops : ℕ → ℕ → GroupOp) (hworker : Divides nworker) (h : Inv topo s recs) (he : Entries topo s)
    (hsmall : s.Small) :
    (s.lanes ops : Lanes (ℕ × Fin nworker) _).Created s.ctl.installed.tables
      s.ctl.installed.copies := by
  obtain ⟨hids, hinj⟩ := h.live_ids
  have hpart := h.partitioned
  have hgid : ∀ r ∈ s.live, (BitVec.ofNat 8 r.groupId).toNat = r.groupId := fun r hr =>
    (BitVec.toNat_ofNat ..).trans (Nat.mod_eq_of_lt (hids r hr).1)
  have hlen : ∀ k : s.Lane nworker, k.1.1.aggLen / nworker = allocSize / mtuSize / nworker :=
    fun k => congrArg (· / nworker) (hids _ k.1.2).2
  refine ⟨fun k => ⟨⟨(hsmall _ k.1.2).1, ?_⟩, ?_, ?_, ?_, ?_⟩, fun k i j hij => ?_,
    fun k k' i j hw hg => ?_, fun k k' _ _ _ => (hlen k).trans (hlen k').symm,
    fun k => ?_, fun k k' hne => ?_, fun k i => ?_⟩
  · obtain ⟨v, hv, hinst⟩ := he.groups _ k.1.2
    have hports : (s.ports k.1.1).length = v.member.length := by
      rw [← hv, hinst.ports_eq, List.length_map]
    have hid : v.groupid = k.1.1.groupId := congrArg CreateGroupResponse.groupId hv
    change (s.ctl.installed.metadata.lookup (BitVec.ofNat 8 k.1.1.groupId).toNat).map _ =
      some (groupMask (s.ports k.1.1).length)
    rw [hgid _ k.1.2, ← hid, hinst.metadata, hports]
    rfl
  · obtain ⟨v, hv, hinst⟩ := he.groups _ k.1.2
    have hid : v.groupid = k.1.1.groupId := congrArg CreateGroupResponse.groupId hv
    refine ⟨topo.recirPort.getD v.recirPortIdx 0, ?_⟩
    change s.ctl.installed.recirculate.lookup (BitVec.ofNat 8 k.1.1.groupId).toNat = _
    rw [hgid _ k.1.2, ← hid]
    exact hinst.recirculate
  · change k.1.1.aggLen / nworker ∣ _
    rw [hlen k]
    exact hworker.dvd
  · change _ ≤ k.1.1.aggLen / nworker / 2
    rw [hlen k]
    exact hworker.limit
  · change k.1.1.aggLen / nworker < _
    rw [hlen k]
    exact Nat.lt_of_le_of_lt (Nat.div_le_self _ _) (by decide)
  · exact List.nodup_iff_injective_get.mp (hsmall _ k.1.2).2 (Prod.mk.inj hij).1
  · have hid : k.1.1.groupId = k'.1.1.groupId := by
      rw [← hgid _ k.1.2, ← hgid _ k'.1.2]
      exact congrArg BitVec.toNat hg
    exact Prod.ext (Subtype.ext (hinj _ k.1.2 _ k'.1.2 hid)) (Prod.mk.inj hw).2
  · have hbound := (slots_bound hpart k.1.2).2
    have := lane_inside k
    change k.1.1.aggAddr + k.1.1.aggLen / nworker * k.2 + k.1.1.aggLen / nworker ≤ _
    omega
  · have hk := lane_inside k
    have hk' := lane_inside k'
    change k.1.1.aggAddr + k.1.1.aggLen / nworker * k.2 + k.1.1.aggLen / nworker ≤
        k'.1.1.aggAddr + k'.1.1.aggLen / nworker * k'.2 ∨
      k'.1.1.aggAddr + k'.1.1.aggLen / nworker * k'.2 + k'.1.1.aggLen / nworker ≤
        k.1.1.aggAddr + k.1.1.aggLen / nworker * k.2
    by_cases hr : k'.1.1 = k.1.1
    · -- the parts of one group
      have hx : k.2.val ≠ k'.2.val := fun heq =>
        hne (Prod.ext (Subtype.ext hr.symm) (Fin.ext heq))
      have hstep : ∀ a b : ℕ, a < b → k.1.1.aggLen / nworker * a + k.1.1.aggLen / nworker ≤
          k.1.1.aggLen / nworker * b := by
        intro a b hab
        rw [← Nat.mul_succ]
        exact Nat.mul_le_mul_left _ hab
      rw [hr]
      rcases Nat.lt_or_gt_of_ne hx with hlt | hlt
      · have := hstep _ _ hlt
        omega
      · have := hstep _ _ hlt
        omega
    · have hdis := slots_groups hpart k.1.2 k'.1.2 hr
      have hpos := (slots_bound hpart k.1.2).1
      have hpos' := (slots_bound hpart k'.1.2).1
      have h₁ := hdis k.1.1.aggAddr
      have h₂ := hdis k'.1.1.aggAddr
      simp only [Seg.Has, CreateGroupResponse.slots] at h₁ h₂
      omega
  · obtain ⟨v, hv, hinst⟩ := he.groups _ k.1.2
    have hid : v.groupid = k.1.1.groupId := congrArg CreateGroupResponse.groupId hv
    have htree := hinst.tree_eq
    rw [hid] at htree
    change (s.ctl.installed.tree (BitVec.ofNat 8 k.1.1.groupId).toNat).map _ = _
    rw [hgid _ k.1.2]
    refine List.ext_getElem ?_ fun j hj hj' => ?_
    · rw [List.length_map, List.length_map, List.length_finRange]
      exact (List.length_map ..).symm
    · have hrank : ∀ (l : List (ℕ × ℕ)) (hl : l = v.member.zipIdx.map fun x => (x.2, topo.ip2port x.1))
          (hj : j < l.length), (l[j]).1 = j := by
        rintro l rfl hj
        simp
      rw [List.length_map] at hj
      simp only [List.getElem_map, List.getElem_finRange, Session.lanes, Session.ports,
        List.get_eq_getElem, hrank _ htree hj]
      rfl

/-- Where a worker has a lane. -/
theorem lanes_has {w : ℕ × Fin nworker} {g : BitVec 8} :
    (s.lanes ops).Has w g ↔
      ∃ r ∈ s.live, w.1 ∈ s.ports r ∧ BitVec.ofNat 8 r.groupId = g := by
  constructor
  · rintro ⟨k, i, rfl, hg⟩
    exact ⟨k.1.1, k.1.2, List.get_mem _ _, hg⟩
  · rintro ⟨r, hr, hw, hg⟩
    obtain ⟨i, hi⟩ := List.mem_iff_get.mp hw
    exact ⟨(⟨r, hr⟩, w.2), i, Prod.ext hi rfl, hg⟩

/-- The slots of a lane are among those of its group. -/
theorem lanes_slots (ops : ℕ → ℕ → GroupOp) (hworker : Divides nworker) (h : Inv topo s recs) (he : Entries topo s)
    (hsmall : s.Small) (k : s.Lane nworker) (q : ℕ) :
    k.1.1.aggAddr ≤ (((s.lanes ops).plan k).addr q).toNat ∧
      (((s.lanes ops).plan k).addr q).toNat < k.1.1.aggAddr + k.1.1.aggLen := by
  have hrange := (lanes_created ops hworker h he hsmall).addr_range k q
  have hinside := lane_inside k
  have haddr : ((s.lanes ops).plan k).aggAddr =
    k.1.1.aggAddr + k.1.1.aggLen / nworker * k.2 := rfl
  have hlen : ((s.lanes ops).plan k).aggLen = k.1.1.aggLen / nworker := rfl
  rw [haddr, hlen] at hrange
  omega

end Lanes

/-! ## 3. A lane on its own -/

section Move

variable {W K K' : Type} [DecidableEq W] {D : Lanes W K} {D' : Lanes W K'} {s s' : Cluster W}
  {k : K} {k' : K'}

/-- The lane without the others. -/
def Lanes.at (D : Lanes W K) (k : K) : Lanes W Unit :=
  ⟨fun _ => D.n k, fun _ => D.plan k, fun _ => D.worker k⟩

omit [DecidableEq W] in
theorem Lane.at_iff {f : Traffic (Fin (D.n k))} : Lane (D.at k) s () f ↔ Lane D s k f :=
  ⟨fun h => ⟨h.share, h.lo, h.hi, h.acc, h.chan, h.wire, h.inv, h.held, h.recirc, h.back⟩,
    fun h => ⟨h.share, h.lo, h.hi, h.acc, h.chan, h.wire, h.inv, h.held, h.recirc, h.back⟩⟩

omit [DecidableEq W] in
/-- A lane goes on among other lanes. -/
theorem Lane.move (hat : D'.at k' = D.at k) (hs : Lane.Untouched (D.at k) s s' ())
    (h : ∃ f, Lane D s k f) : ∃ f, Lane D' s' k' f := by
  obtain ⟨f, hf⟩ := h
  have hone : ∃ f, Lane (D.at k) s' () f := ⟨f, (Lane.at_iff.mpr hf).frame hs⟩
  rw [← hat] at hone
  obtain ⟨f', hf'⟩ := hone
  exact ⟨f', Lane.at_iff.mp hf'⟩

end Move

/-! ## 4. The invariant -/

namespace Deployment

variable {topo : Topo} {ops : ℕ → ℕ → GroupOp} {s s' : Deployment nworker}

/-- **The invariant**: the lanes are those of the groups that are live now. -/
structure Joint (topo : Topo) (ops : ℕ → ℕ → GroupOp) (s : Deployment nworker) : Prop where
  inv : ∃ recs, Inv topo s.session recs
  entries : Entries topo s.session
  small : s.session.Small
  serving : ∀ w, Serving (fun _ => 0) (allocSize / mtuSize / nworker) (s.cluster.host w)
  cluster : Cluster.Joint (s.session.lanes ops) s.cluster

theorem Joint.created (h : Joint topo ops s) (hworker : Divides nworker) :
    (s.session.lanes ops : Lanes (ℕ × Fin nworker) _).Created s.session.ctl.installed.tables
      s.session.ctl.installed.copies := by
  obtain ⟨recs, hinv⟩ := h.inv
  exact lanes_created ops hworker hinv h.entries h.small

/-- A worker keeps to the lanes there are. -/
theorem keeps (hinv : ∃ recs, Inv topo s.session recs)
    (hserving : ∀ w, Serving (fun _ => 0) (allocSize / mtuSize / nworker) (s.cluster.host w))
    {w : ℕ × Fin nworker}
    (hheap : ∀ ptr < (s.cluster.host w).worker.heap.length, ptr ∉ pushed (s.cluster.host w).log →
      (s.session.lanes ops).Has w ((s.cluster.host w).worker.groupOf ptr)) :
    ∃ ctx aggLen, Keeps (s.session.lanes ops) s.cluster w ctx aggLen := by
  obtain ⟨recs, hinv⟩ := hinv
  exact ⟨_, _, hserving w,
    fun k _ _ => ⟨rfl, congrArg (· / nworker) (hinv.live_ids.1 _ k.1.2).2⟩, hheap⟩

theorem Joint.init (h : s.Init topo) (hworker : Divides nworker) : Joint topo ops s := by
  obtain ⟨t, ht⟩ := h.session
  have hinv : Inv topo s.session [] := ht ▸ Inv.start topo t
  have hentries : Entries topo s.session := ht ▸ Entries.start topo t
  have hlive : s.session.live = [] := by rw [ht]
  have hserving : ∀ w, Serving (fun _ => 0) (allocSize / mtuSize / nworker) (s.cluster.host w) :=
    fun w => .init hworker.limit (h.host w)
  refine ⟨⟨_, hinv⟩, hentries, fun r hr => ?_, hserving, fun w => keeps ⟨_, hinv⟩ hserving
    fun ptr hptr _ => ?_, fun k => ?_, fun w x hx => ?_, fun x hx => ?_⟩
  · rw [hlive] at hr
    exact absurd hr List.not_mem_nil
  · obtain ⟨⟨mem, pkt, hw⟩, -⟩ := h.host w
    rw [hw] at hptr
    exact absurd hptr (Nat.not_lt_zero _)
  · obtain ⟨⟨r, hr⟩, x⟩ := k
    rw [hlive] at hr
    exact absurd hr List.not_mem_nil
  · rw [h.wire] at hx
    exact absurd hx List.not_mem_nil
  · rw [h.recirc] at hx
    exact absurd hx List.not_mem_nil

/-- What is queued is a sub-op of a lane. -/
theorem Posts.gives (hinv : ∃ recs, Inv topo s.session recs) {w : ℕ × Fin nworker} {t : SubOp}
    (h : s.Posts ops w t) : ∃ k i, (s.session.lanes ops).worker k i = w ∧
      ((s.session.lanes ops).plan k).Gives i ((s.cluster.host w).worker.indexIn
        ((s.session.lanes ops).gid k) (s.cluster.host w).worker.heap.length) t := by
  obtain ⟨recs, hinv⟩ := hinv
  obtain ⟨r, hr, i, hi, hgroup, hop, hget⟩ := h
  obtain ⟨hlt, hport⟩ := List.getElem?_eq_some_iff.mp hi
  have hposted : PostedTo r nworker w.2 t := by
    refine ⟨t.op, ⟨?_, ?_, ?_⟩, hget⟩ <;> rw [hgroup]
    exact (BitVec.toNat_ofNat ..).trans (Nat.mod_eq_of_lt (hinv.live_ids.1 r hr).1)
  obtain ⟨-, haddr, hlen, -⟩ := hposted.range (slots_bound hinv.partitioned hr).2
  have hsize : t.size = subSize t.op.size nworker w.2 := by
    rw [subOps_eq, List.getElem?_map] at hget
    obtain ⟨x, hx, ht⟩ := Option.map_eq_some_iff.mp hget
    obtain ⟨hx', hxw⟩ := List.getElem?_eq_some_iff.mp hx
    rw [List.getElem_range] at hxw
    rw [hxw]
    exact (congrArg SubOp.size ht).symm
  refine ⟨(⟨r, hr⟩, w.2), ⟨i, hlt⟩, Prod.ext hport rfl, ?_, ?_, ?_, ?_, ?_, haddr, hlen⟩
  · exact (congrArg GroupOp.opCode hop).symm
  · exact (congrArg GroupOp.root hop).symm
  · exact hsize.trans (congrArg (subSize · nworker w.2) (congrArg GroupOp.size hop).symm)
  · rw [hgroup]
    rfl
  · rw [hgroup]

/-! ## 5. The steps -/

/-- The load balancers keep to the lanes there are. -/
theorem Orderly.lanes (hinv : ∃ recs, Inv topo s.session recs)
    {a : Cluster.Action (ℕ × Fin nworker)} (hok : Orderly topo ops s (.cluster a)) :
    (s.session.lanes ops).Orderly s.cluster a := by
  refine ⟨fun w l ha => ⟨?_, fun t ht => (hok.posts w t (by rw [ha, ht])).2.gives hinv⟩,
    fun m typeOfService ha => hok.current m typeOfService (by rw [ha])⟩
  cases l with
  | pushReq t => exact (hok.posts w t (by rw [ha])).1
  | _ => trivial

/-- **A step of the cluster.** -/
theorem Joint.step_cluster (hworker : Divides nworker) (h : Joint topo ops s)
    {a : Cluster.Action (ℕ × Fin nworker)} (hok : Orderly topo ops s (.cluster a))
    {c : Cluster (ℕ × Fin nworker)}
    (hstep : Cluster.Step s.session.ctl.installed.tables s.session.ctl.installed.copies s.cluster a
      c) : Joint topo ops { s with cluster := c } := by
  have hord := hok.lanes h.inv
  refine ⟨h.inv, h.entries, h.small, fun u => ?_, h.cluster.step (h.created hworker) hord hstep⟩
  rcases Cluster.step_host hstep with hhost | ⟨w, l, r, events, hw, hlog, hhost, ha, -⟩
  · dsimp only
    rw [hhost]
    exact h.serving u
  · dsimp only
    rw [hhost]
    rcases eq_or_ne u w with rfl | hu
    · rw [Function.update_self]
      refine (h.serving u).step ⟨?_, fun t ht => ?_⟩ ⟨events, hw, hlog⟩
      · cases l with
        | pushReq t => exact (hord.host u _ (ha (by simp))).barrier
        | _ => trivial
      · obtain ⟨k, i, -, hgives⟩ := (hord.host u l (ha (by simp [ht]))).plan t ht
        obtain ⟨recs, hinv⟩ := h.inv
        rw [hgives.aggLen, ← (hinv.live_ids.1 _ k.1.2).2]
        rfl
    · rw [Function.update_of_ne hu]
      exact h.serving u

/-- The lane of a group and an index, when its members are at these ports. -/
def laneAt (ops : ℕ → ℕ → GroupOp) (ports : List ℕ) (r : CreateGroupResponse) (x : Fin nworker) :
    Lanes (ℕ × Fin nworker) Unit :=
  ⟨fun _ => ports.length, fun _ => lanePlan ops r nworker x, fun _ i => (ports.get i, x)⟩

/-- **A lane survives a request**, if its slots are not cleared. -/
theorem Joint.kept (h : Joint topo ops s) {session' : Session} {c : Cluster (ℕ × Fin nworker)}
    {k' : session'.Lane nworker} (hk : k'.1.1 ∈ s.session.live)
    (hports : session'.ports k'.1.1 = s.session.ports k'.1.1)
    (hc : c.host = s.cluster.host ∧ c.wire = s.cluster.wire ∧ c.recirc = s.cluster.recirc ∧
      c.back = s.cluster.back)
    (hregs : ∀ q, c.regs.regBitmap ((lanePlan ops k'.1.1 nworker k'.2).addr q) =
        s.cluster.regs.regBitmap ((lanePlan ops k'.1.1 nworker k'.2).addr q) ∧
      c.regs.aggregatorArray = s.cluster.regs.aggregatorArray) :
    ∃ f, Lane (session'.lanes ops) c k' f := by
  refine Lane.move (D := s.session.lanes ops) (k := (⟨k'.1.1, hk⟩, k'.2)) ?_ ?_
    (h.cluster.lanes _)
  · exact congrArg (fun p => laneAt ops p k'.1.1 k'.2) hports
  · obtain ⟨hhost, hwire, hrecirc, hback⟩ := hc
    refine ⟨fun i => by rw [hhost], fun i => by rw [hwire], fun q => ⟨(hregs q).1, ?_⟩,
      fun x hx => Or.inl (hrecirc ▸ hx), fun x hx => Or.inl (hback ▸ hx)⟩
    rw [(hregs q).2]

/-- The cluster after a request. -/
def after (s : Deployment nworker) (session' : Session) : Deployment nworker :=
  ⟨session', { s.cluster with regs.regBitmap := session'.ctl.installed.regBitmap }⟩

/-- Every lane after a request is one of those before, or one whose members have no sub-op of its
group. -/
def Carried (ops : ℕ → ℕ → GroupOp) (s : Deployment nworker) (session' : Session) : Prop :=
  ∀ k' : session'.Lane nworker,
    (∃ k, (session'.lanes ops).at k' = (s.session.lanes ops).at k) ∨
    ∀ i, ∀ ptr < (s.cluster.host ((session'.lanes ops).worker k' i)).worker.heap.length,
      (s.cluster.host ((session'.lanes ops).worker k' i)).worker.groupOf ptr ≠
        (session'.lanes ops).gid k'

/-- **A group is created.** -/
theorem Joint.granted (hworker : Divides nworker) (h : Joint topo ops s)
    (hsync : s.session.ctl.installed.regBitmap = s.cluster.regs.regBitmap) {session' : Session}
    {v : GroupVars} (hg : Granted topo s.session.ctl v session'.ctl)
    (hlive : session'.live = s.session.live ++ [v.response topo])
    (hinv' : ∃ recs, Inv topo session' recs) (he' : Entries topo session')
    (hok : Orderly topo ops s (.request (.create v.member))) :
    Joint topo ops (s.after session') ∧ s.Carried ops session' := by
  obtain ⟨recs, hinv⟩ := h.inv
  obtain ⟨recs', hinv'⟩ := hinv'
  obtain ⟨hsize, hnodup, hfresh⟩ := hok.create _ rfl
  replace hfresh := hfresh v.groupid (by rw [hg.freeGroup]; rfl)
  have hid : v.groupid ∈ s.session.ctl.freeGroup := hg.freeGroup ▸ List.mem_cons_self
  have hnew : Installs topo session' v := .created hinv h.entries hg hlive
  have hsub : s.session.live ⊆ session'.live := hlive ▸ List.subset_append_left _ _
  have hsplit : ∀ r ∈ session'.live, r ∉ s.session.live → r = v.response topo := by
    intro r hr hold
    rw [hlive] at hr
    exact List.mem_singleton.mp ((List.mem_append.mp hr).resolve_left hold)
  have hports : ∀ r ∈ s.session.live, session'.ports r = s.session.ports r := by
    intro r hr
    obtain ⟨w, rfl, hw⟩ := h.entries.groups r hr
    rw [hw.ports_eq, (hw.granted hinv hg hsub).ports_eq]
  have hsmall : session'.Small := by
    intro r hr
    rw [hlive] at hr
    rcases List.mem_append.mp hr with hr | hr
    · rw [hports r hr]
      exact h.small r hr
    · rw [List.mem_singleton.mp hr, hnew.ports_eq, List.length_map]
      exact ⟨hsize, hnodup⟩
  have hregs : ∀ a, session'.ctl.installed.regBitmap a =
      if (v.response topo).aggAddr ≤ a.toNat ∧
        a.toNat < (v.response topo).aggAddr + (v.response topo).aggLen then ⟨0, 0⟩
      else s.cluster.regs.regBitmap a := by
    intro a
    rw [hg.installed, tableScript_installed, ← hsync]
    rfl
  have hhas : ∀ (w : ℕ × Fin nworker) g, (s.session.lanes ops).Has w g →
      (session'.lanes ops).Has w g := by
    intro w g hw
    obtain ⟨r, hr, hport, hgid⟩ := lanes_has.mp hw
    exact lanes_has.mpr ⟨r, hsub hr, by rwa [hports r hr], hgid⟩
  have hgroup : (v.response topo).groupId < 2 ^ 8 :=
    (hinv'.live_ids.1 _ (hlive ▸ List.mem_append_right _ List.mem_cons_self)).1
  have htoNat : (BitVec.ofNat 8 (v.response topo).groupId).toNat = v.groupid :=
    (BitVec.toNat_ofNat ..).trans (Nat.mod_eq_of_lt hgroup)
  have hgid : ∀ k : session'.Lane nworker, k.1.1 = v.response topo →
      ((session'.lanes ops).gid k).toNat = v.groupid := by
    intro k hk
    change (BitVec.ofNat 8 k.1.1.groupId).toNat = _
    rw [hk, htoNat]
  -- its members have not used the id
  have hunused : ∀ k : session'.Lane nworker, k.1.1 = v.response topo → ∀ i,
      ∀ ptr < (s.cluster.host ((session'.lanes ops).worker k i)).worker.heap.length,
        (s.cluster.host ((session'.lanes ops).worker k i)).worker.groupOf ptr ≠
          (session'.lanes ops).gid k := by
    intro k hk i ptr hptr heq
    have hport : (session'.ports k.1.1).get i ∈ v.member.map topo.ip2port := by
      rw [← hnew.ports_eq, ← hk]
      exact List.get_mem _ _
    exact hfresh.heap _ hport k.2 _ (Worker.subOp_mem hptr)
      ((congrArg BitVec.toNat heq).trans (hgid k hk))
  refine ⟨⟨⟨recs', hinv'⟩, he', hsmall, h.serving, fun w =>
    keeps (s := s.after session') ⟨recs', hinv'⟩ h.serving fun ptr hptr hnot => ?_, fun k => ?_,
    fun w x hx => hhas _ _ (h.cluster.wire w x hx), fun x hx => ?_⟩, fun k => ?_⟩
  · obtain ⟨ctx, aggLen, hkeeps⟩ := h.cluster.workers w
    exact hhas _ _ (hkeeps.heap ptr hptr hnot)
  · by_cases hold : k.1.1 ∈ s.session.live
    · refine h.kept hold (hports _ hold) ⟨rfl, rfl, rfl, rfl⟩ fun q => ⟨?_, rfl⟩
      -- the new group has other slots
      have hne : v.response topo ≠ k.1.1 := fun heq =>
        hinv.live_not_free hold (heq ▸ hid)
      have hslots := lanes_slots ops hworker hinv' he' hsmall k q
      have hdis := slots_groups hinv'.partitioned k.1.2
        (hlive ▸ List.mem_append_right _ List.mem_cons_self) hne
      exact (hregs _).trans (if_neg (hdis _ hslots))
    · have hk : k.1.1 = v.response topo := hsplit _ k.1.2 hold
      have hwire : ∀ i, ∀ x ∈ s.cluster.wire ((session'.lanes ops).worker k i),
          x.2.inc.groupId ≠ (session'.lanes ops).gid k := by
        intro i x hx heq
        obtain ⟨r, hr, -, hrgid⟩ := lanes_has.mp (h.cluster.wire _ x hx)
        have hrid : r.groupId = v.groupid := by
          rw [← hgid k hk, ← heq, ← hrgid, BitVec.toNat_ofNat,
            Nat.mod_eq_of_lt (hinv.live_ids.1 r hr).1]
        exact hinv.live_not_free hr (hrid ▸ hid)
      refine ⟨_, Lane.unused ?_ (fun i => ⟨_, _, h.serving _⟩) (hunused k hk) hwire
        (fun j hj => ?_) (fun x hx heq => ?_) fun x hx heq => ?_⟩
      · exact Nat.pos_of_dvd_of_pos
          ((lanes_created ops hworker hinv' he' hsmall).created k).dvd (by decide)
      · refine (hregs _).trans (if_pos ?_)
        have hbound := (slots_bound hinv'.partitioned k.1.2).2
        have hinside := lane_inside k
        change j < k.1.1.aggLen / nworker at hj
        change _ ≤ (BitVec.ofNat 16 (k.1.1.aggAddr + k.1.1.aggLen / nworker * k.2 + j)).toNat ∧
          (BitVec.ofNat 16 (k.1.1.aggAddr + k.1.1.aggLen / nworker * k.2 + j)).toNat < _
        rw [BitVec.toNat_ofNat, Nat.mod_eq_of_lt (by omega), ← hk]
        omega
      · exact hfresh.recirc x hx ((congrArg BitVec.toNat heq).trans (hgid k hk))
      · exact hfresh.back x hx ((congrArg BitVec.toNat heq).trans (hgid k hk))
  · rcases h.cluster.recirc x hx with hx' | ⟨hpass, hnone⟩
    · exact Or.inl (hhas _ _ hx')
    · refine Or.inr ⟨hpass, fun k heq => ?_⟩
      by_cases hold : k.1.1 ∈ s.session.live
      · exact hnone (⟨k.1.1, hold⟩, k.2) heq
      · refine hfresh.recirc x hx ?_
        rw [← heq]
        exact hgid k (hsplit _ k.1.2 hold)
  · by_cases hold : k.1.1 ∈ s.session.live
    · exact Or.inl ⟨(⟨k.1.1, hold⟩, k.2), congrArg (fun p => laneAt ops p k.1.1 k.2)
        (hports _ hold)⟩
    · exact Or.inr (hunused k (hsplit _ k.1.2 hold))

/-- **A group is destroyed.** -/
theorem Joint.removed (h : Joint topo ops s)
    (hsync : s.session.ctl.installed.regBitmap = s.cluster.regs.regBitmap) {session' : Session}
    {v : GroupVars} (hv : Installs topo s.session v)
    (hr : Removed topo s.session.ctl v session'.ctl)
    (hlive : session'.live = s.session.live.filter (·.groupId ≠ v.groupid))
    (hinv' : ∃ recs, Inv topo session' recs) (he' : Entries topo session')
    (hok : Orderly topo ops s (.request (.destroy v.groupid))) :
    Joint topo ops (s.after session') ∧ s.Carried ops session' := by
  obtain ⟨recs, hinv⟩ := h.inv
  have hquiet : s.Quiet (v.response topo) := hok.destroy _ rfl _ hv.live rfl
  have hsub : ∀ r, r ∈ session'.live ↔ r ∈ s.session.live ∧ r.groupId ≠ v.groupid := by
    intro r
    rw [hlive, List.mem_filter, decide_eq_true_eq]
  have hports : ∀ r ∈ session'.live, session'.ports r = s.session.ports r := by
    intro r hmem
    obtain ⟨hold, hne⟩ := (hsub r).mp hmem
    obtain ⟨w, rfl, hw⟩ := h.entries.groups r hold
    rw [hw.ports_eq, (Installs.removed hinv hv hw hne hr hmem).ports_eq]
  have hregs : session'.ctl.installed.regBitmap = s.cluster.regs.regBitmap := by
    rw [hr.installed, tableScript_removed, ← hsync]
  -- a lane of the group is of one of its members
  have hhas : ∀ (w : ℕ × Fin nworker) g, (s.session.lanes ops).Has w g →
      (session'.lanes ops).Has w g ∨ (w.1 ∈ s.session.ports (v.response topo) ∧
        g.toNat = v.groupid) := by
    intro w g hw
    obtain ⟨r, hmem, hport, rfl⟩ := lanes_has.mp hw
    by_cases hne : r.groupId = v.groupid
    · obtain rfl := hinv.live_ids.2 _ hmem _ hv.live hne
      refine Or.inr ⟨hport, (BitVec.toNat_ofNat ..).trans ?_⟩
      exact (Nat.mod_eq_of_lt (hinv.live_ids.1 _ hmem).1).trans hne
    · have hmem' := (hsub r).mpr ⟨hmem, hne⟩
      exact Or.inl (lanes_has.mpr ⟨r, hmem', by rwa [hports r hmem'], rfl⟩)
  refine ⟨⟨hinv', he', fun r hmem => ?_, h.serving, fun w =>
    keeps (s := s.after session') hinv' h.serving fun ptr hptr hnot => ?_, fun k => ?_,
    fun w x hx => ?_, fun x hx => ?_⟩, fun k => Or.inl ⟨(⟨k.1.1, ((hsub _).mp k.1.2).1⟩, k.2),
    congrArg (fun p => laneAt ops p k.1.1 k.2) (hports _ k.1.2)⟩⟩
  · have hsmall := h.small r ((hsub r).mp hmem).1
    rwa [← hports r hmem] at hsmall
  · obtain ⟨ctx, aggLen, hkeeps⟩ := h.cluster.workers w
    refine (hhas _ _ (hkeeps.heap ptr hptr hnot)).resolve_right ?_
    rintro ⟨hport, hg⟩
    exact hnot (hquiet.answered _ hport w.2 ptr hptr hg)
  · exact h.kept ((hsub _).mp k.1.2).1 (hports _ k.1.2) ⟨rfl, rfl, rfl, rfl⟩
      fun q => ⟨congrFun hregs _, rfl⟩
  · refine (hhas _ _ (h.cluster.wire w x hx)).resolve_right ?_
    rintro ⟨hport, hg⟩
    exact hquiet.wire _ hport w.2 x hx hg
  · have hgone : ∀ g : BitVec 8, g.toNat = v.groupid →
        ∀ k, (session'.lanes ops : Lanes (ℕ × Fin nworker) _).gid k ≠ g := by
      rintro g hg k rfl
      obtain ⟨hold, hne⟩ := (hsub _).mp k.1.2
      refine hne (Eq.trans ?_ hg)
      exact ((BitVec.toNat_ofNat ..).trans (Nat.mod_eq_of_lt (hinv.live_ids.1 _ hold).1)).symm
    rcases h.cluster.recirc x hx with ⟨k, i, hw, hg⟩ | ⟨hpass, hnone⟩
    · rcases hhas _ _ ⟨k, i, hw, hg⟩ with hstill | ⟨-, hgone'⟩
      · exact Or.inl hstill
      · obtain ⟨f, hf⟩ := h.cluster.lanes k
        exact Or.inr ⟨(hf.recirc x hx i hw hg.symm).second, hgone _ hgone'⟩
    · refine Or.inr ⟨hpass, fun k => ?_⟩
      exact hnone (⟨k.1.1, ((hsub _).mp k.1.2).1⟩, k.2)

/-- **A request.** -/
theorem Joint.request (hworker : Divides nworker) (h : Joint topo ops s) {req : Request}
    (hok : Orderly topo ops s (.request req)) :
    Joint topo ops (s.serve topo req) ∧ s.Carried ops (s.serve topo req).session := by
  generalize hsession : (⟨{ s.session.ctl with installed.regBitmap := s.cluster.regs.regBitmap },
    s.session.live⟩ : Session) = session
  have hserve : s.serve topo req = (Deployment.mk session s.cluster).after
      (Session.serve topo session req) := by
    rw [← hsession]
    rfl
  obtain ⟨recs, hinv⟩ := h.inv
  -- the registers matter to neither invariant
  have h₀ : Joint topo ops ⟨session, s.cluster⟩ := by
    rw [← hsession]
    refine ⟨⟨recs, hinv.live, hinv.undo, hinv.mgid, hinv.recirculate, hinv.memory, hinv.sorted,
      hinv.aligned, hinv.groups, hinv.nodes, hinv.portLen, hinv.portIdx, hinv.ports⟩,
      ⟨fun r hr => ?_, h.entries.metadata, h.entries.restore, h.entries.node⟩, h.small, h.serving,
      h.cluster⟩
    obtain ⟨v, hv, hi⟩ := h.entries.groups r hr
    exact ⟨v, hv, hi.live, hi.undo, hi.size, hi.recirculate, hi.metadata, hi.mgid, hi.restore,
      hi.ranks, hi.node⟩
  have hok₀ : Orderly topo ops ⟨session, s.cluster⟩ (.request req) := by
    rw [← hsession]
    refine ⟨fun member ha => ?_, fun groupid ha r hr heq => ?_, fun w t ha => (by cases ha),
      fun m tos ha => (by cases ha)⟩
    · obtain ⟨hsize, hnodup, hfresh⟩ := hok.create member ha
      exact ⟨hsize, hnodup, fun g hg => ⟨(hfresh g hg).heap, (hfresh g hg).recirc,
        (hfresh g hg).back⟩⟩
    · have hquiet := hok.destroy groupid ha r hr heq
      exact ⟨hquiet.answered, hquiet.wire⟩
  have hsync : session.ctl.installed.regBitmap = s.cluster.regs.regBitmap := by rw [← hsession]
  rw [hserve]
  obtain ⟨recs₀, hinv₀⟩ := h₀.inv
  have hinv' := hinv₀.serve req
  have he' := h₀.entries.serve hinv₀ req
  have hcase := h₀.entries.serve_cases hinv₀ req
  dsimp only at hinv' he' hcase
  generalize Session.serve topo session req = session' at *
  have hcarried : (Deployment.mk session s.cluster).Carried ops session' →
      s.Carried ops session' := by
    subst hsession
    exact id
  refine And.imp_right hcarried ?_
  cases hcase with
  | same =>
    have hsame : (Deployment.mk session s.cluster).after session = ⟨session, s.cluster⟩ := by
      rw [after, hsync]
    rw [hsame]
    exact ⟨h₀, fun k => Or.inl ⟨k, rfl⟩⟩
  | granted hg hlive => exact h₀.granted hworker hsync hg hlive hinv' he' hok₀
  | removed hv hr hlive => exact h₀.removed hsync hv hr hlive hinv' he' hok₀

/-- The run lemma. -/
theorem joint_reach (hworker : Divides nworker)
    (h : Reach (Init topo) (Step topo) (Orderly topo ops) s) : Joint topo ops s := by
  refine h.invariant (fun s hi => .init hi hworker) fun s a s' hj hok hstep => ?_
  cases a with
  | cluster a =>
    obtain ⟨c, hc, rfl⟩ := Option.map_eq_some_iff.mp hstep
    exact hj.step_cluster hworker hok hc
  | request req =>
    obtain rfl := Option.some.inj hstep
    exact (hj.request hworker hok).1

/-! ## 6. What a live group agrees on -/

/-- Whatever the members of the live groups have accepted carries the sums. -/
def Agrees (ops : ℕ → ℕ → GroupOp) (s : Deployment nworker) : Prop :=
  ∀ k, s.cluster.Agrees (s.session.lanes ops) k

/-- What has been accepted was built for a sub-op of the worker. -/
theorem Joint.accepted_built (h : Joint topo ops s) {w : ℕ × Fin nworker} {x : PktState × Frame}
    (hx : x ∈ accepted (s.cluster.host w).log) :
    ∃ ptr < (s.cluster.host w).worker.heap.length,
      (s.cluster.host w).worker.groupOf ptr = x.1.pkt.inc.groupId := by
  obtain ⟨k, sent, popped, acc, hinv⟩ := (h.serving w).inv
  obtain ⟨j, -, y, hy, hp, -⟩ := forall₂_exists hinv.window.accepted hx
  obtain ⟨-, hlt, hinc⟩ := hinv.cursor.header y (List.mem_of_getElem? hy)
  exact ⟨y.subOp, hlt, by rw [hp, hinc]; rfl⟩

section Decide

instance (s : Deployment nworker) (groupid : ℕ) (ports : List ℕ) :
    Decidable (s.Fresh groupid ports) :=
  decidable_of_iff (_ ∧ _ ∧ _) ⟨fun h => ⟨h.1, h.2.1, h.2.2⟩, fun h => ⟨h.heap, h.recirc, h.back⟩⟩

instance (s : Deployment nworker) (r : CreateGroupResponse) : Decidable (s.Quiet r) :=
  decidable_of_iff (_ ∧ _) ⟨fun h => ⟨h.1, h.2⟩, fun h => ⟨h.answered, h.wire⟩⟩

instance (s : Deployment nworker) (w : ℕ × Fin nworker) (t : SubOp) :
    Decidable (s.Posts ops w t) :=
  decidable_of_iff (∃ r ∈ s.session.live, ∃ i ∈ List.range (s.session.ports r).length,
    (s.session.ports r)[i]? = some w.1 ∧
    t.op.group = ⟨BitVec.ofNat 8 r.groupId, BitVec.ofNat 8 (s.session.ports r).length,
      BitVec.ofNat 8 i, r.aggAddr, r.aggLen⟩ ∧
    ops r.groupId ((s.cluster.host w).worker.indexIn (BitVec.ofNat 8 r.groupId)
      (s.cluster.host w).worker.heap.length) = ⟨t.op.opCode, t.op.root, t.op.size⟩ ∧
    (subOps t.op nworker)[w.2.val]? = some t)
  ⟨fun ⟨r, hr, i, _, h⟩ => ⟨r, hr, i, h⟩, fun ⟨r, hr, i, hi, h⟩ =>
    ⟨r, hr, i, List.mem_range.mpr (List.getElem?_eq_some_iff.mp hi).1, hi, h⟩⟩

/-- What is assumed, computed. -/
def followed (topo : Topo) (ops : ℕ → ℕ → GroupOp) (s : Deployment nworker) :
    Action nworker → Bool
  | .cluster (.host w (.pushReq t)) =>
    decide ((∀ ptr < (s.cluster.host w).worker.heap.length,
      ptr ∉ pushed (s.cluster.host w).log →
        ((s.cluster.host w).worker.subOp ptr).op.group.groupId = t.op.group.groupId) ∧
      s.Posts ops w t)
  | .cluster (.receive m _) => (s.cluster.back[m]?).elim true fun x =>
      decide (((s.cluster.host x.2.1).builtIn x.2.2.netccl.groupId).length ≤ x.1 + 2 ^ 32)
  | .cluster _ => true
  | .request (.create member) =>
    decide (member.length ≤ 32 ∧ (member.map topo.ip2port).Nodup ∧
      ∀ groupid ∈ s.session.ctl.freeGroup.head?, s.Fresh groupid (member.map topo.ip2port))
  | .request (.destroy groupid) =>
    decide (∀ r ∈ s.session.live, r.groupId = groupid → s.Quiet r)

theorem followed_orderly {a : Action nworker} (h : s.followed topo ops a = true) :
    Orderly topo ops s a := by
  refine ⟨?_, ?_, ?_, ?_⟩
  · rintro member rfl
    exact of_decide_eq_true h
  · rintro groupid rfl
    exact of_decide_eq_true h
  · rintro w t rfl
    rw [followed, decide_eq_true_eq] at h
    exact h
  · rintro m typeOfService rfl q w r hm
    rw [followed, hm, Option.elim_some] at h
    exact of_decide_eq_true h

end Decide

end Deployment

end NetCCL
