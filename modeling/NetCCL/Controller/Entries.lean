/-
# What the switch holds for a live group

`CreateGroup` fills five tables, and `DestroyGroup` empties them again, one entry at a time, by
commands it has written down before.  The tables are what the data plane goes by: the mask a
slot has to fill up to, the port a full slot is sent to, and the multicast tree with the copy of
every rank and the address it is given.

* `Installs` is what the tables hold for a group created with the local variables `v`.
* `Entries` is the invariant: every live group has its entries, and ids and nodes that are free
  have none.
* `session_installed`: a group keeps its entries through whatever requests come after, up to the
  one that destroys it.

`Inv` does not look at these tables; here it is what keeps the groups apart.
-/
import NetCCL.Controller.Atomic
import NetCCL.Lib.Table

namespace NetCCL.Controller

open Lib

variable {topo : Topo} {s : Session} {recs : List GroupVars} {v w : GroupVars}

/-! ## 1. The entries of a group -/

/-- The members with their nodes and ranks. -/
def GroupVars.copies (v : GroupVars) : List ((ℕ × ℕ) × ℕ) := (v.member.zip v.node).zipIdx

/-- What a multicast to a group is copied to: replication id and port. -/
def Installed.tree (t : Installed) (groupid : ℕ) : List (ℕ × ℕ) :=
  ((t.mgid.lookup groupid).getD []).filterMap fun node => t.node.lookup node

/-- The entries of the group created with the variables `v`. -/
structure Installs (topo : Topo) (s : Session) (v : GroupVars) : Prop where
  live : v.response topo ∈ s.live
  undo : s.ctl.undo.lookup v.groupid = some (undoFuncs topo v)
  size : v.node.length = v.member.length
  recirculate : s.ctl.installed.recirculate.lookup v.groupid =
    some (topo.recirPort.getD v.recirPortIdx 0)
  metadata : s.ctl.installed.metadata.lookup v.groupid = some (2 ^ v.member.length - 1)
  mgid : s.ctl.installed.mgid.lookup v.groupid = some v.node
  restore : ∀ x ∈ v.copies, s.ctl.installed.restore.lookup (v.groupid, x.2) =
    some (topo.switchIp, x.1.1)
  ranks : ∀ e ∈ s.ctl.installed.restore, e.1.1 = v.groupid → ∃ x ∈ v.copies, e.1 = (v.groupid, x.2)
  node : ∀ x ∈ v.copies, s.ctl.installed.node.lookup x.1.2 = some (x.2, topo.ip2port x.1.1)

/-- **Live groups have their entries**, and what is free has none. -/
structure Entries (topo : Topo) (s : Session) : Prop where
  groups : ∀ r ∈ s.live, ∃ v, v.response topo = r ∧ Installs topo s v
  metadata : ∀ e ∈ s.ctl.installed.metadata, e.1 ∉ s.ctl.freeGroup
  restore : ∀ e ∈ s.ctl.installed.restore, e.1.1 ∉ s.ctl.freeGroup
  node : ∀ e ∈ s.ctl.installed.node, e.1 ∉ s.ctl.freeNode

theorem GroupVars.map_copies_node (h : v.node.length = v.member.length) :
    (v.copies.map fun x => x.1.2) = v.node := by
  have hsplit : (v.copies.map fun x => x.1.2) = (v.copies.map Prod.fst).map Prod.snd :=
    (List.map_map ..).symm
  rw [hsplit, GroupVars.copies, List.zipIdx_map_fst]
  exact List.map_snd_zip (by rw [h])

/-- The tree has a copy for every rank, at the port of its member. -/
theorem Installs.tree_eq (h : Installs topo s v) : s.ctl.installed.tree v.groupid =
    v.member.zipIdx.map fun x => (x.2, topo.ip2port x.1) := by
  have hmember : v.member.zipIdx = v.copies.map fun x => (x.1.1, x.2) := by
    have hfst : v.member = (v.member.zip v.node).map Prod.fst :=
      (List.map_fst_zip (by rw [h.size])).symm
    rw [GroupVars.copies]
    conv_lhs => rw [hfst, List.zipIdx_map]
    rfl
  rw [Installed.tree, h.mgid, Option.getD_some, ← GroupVars.map_copies_node h.size, List.filterMap_map, hmember, List.map_map]
  rw [← List.filterMap_eq_map]
  exact List.filterMap_congr fun x hx => h.node x hx

/-! ## 2. What the commands leave in the tables -/

/-- The operations made once per member. -/
theorem foldl_memberScript (topo : Topo) (groupid : ℕ) (l : List ((ℕ × ℕ) × ℕ)) (t : Installed) :
    (l.flatMap fun x => [TableOp.addRestore groupid x.2 topo.switchIp x.1.1,
      .addNode x.1.2 x.2 (topo.ip2port x.1.1)]).foldl TableOp.apply t =
      { t with
        restore := t.restore ++ l.map fun x => ((groupid, x.2), (topo.switchIp, x.1.1))
        node := t.node ++ l.map fun x => (x.1.2, (x.2, topo.ip2port x.1.1)) } := by
  induction l generalizing t with
  | nil => simp
  | cons x l ih =>
    rw [List.flatMap_cons, List.foldl_append, ih]
    simp [TableOp.apply]

/-- ... and those that undo them, the last first. -/
theorem foldl_memberUndo (groupid : ℕ) (l : List ((ℕ × ℕ) × ℕ)) (t : Installed) :
    (l.flatMap fun x => [TableOp.deleteRestore groupid x.2, .deleteNode x.1.2]).reverse.foldl
      TableOp.apply t =
      { t with
        restore := t.restore.filter fun e => decide (∀ x ∈ l, e.1 ≠ (groupid, x.2))
        node := t.node.filter fun e => decide (∀ x ∈ l, e.1 ≠ x.1.2) } := by
  induction l generalizing t with
  | nil => simp
  | cons x l ih =>
    rw [List.flatMap_cons, List.reverse_append, List.foldl_append, ih]
    simp only [List.reverse_cons, List.reverse_nil, List.nil_append, List.cons_append,
      List.foldl_cons, List.foldl_nil, TableOp.apply, List.filter_filter, List.forall_mem_cons,
      Bool.decide_and]

/-- **What `CreateGroup` installs.** -/
theorem tableScript_installed (topo : Topo) (v : GroupVars) (t : Installed) :
    ((tableScript topo v).map (·.1)).foldl TableOp.apply t =
      { recirculate := t.recirculate ++ [(v.groupid, topo.recirPort.getD v.recirPortIdx 0)]
        metadata := t.metadata ++ [(v.groupid, 2 ^ v.member.length - 1)]
        restore := t.restore ++ v.copies.map fun x => ((v.groupid, x.2), (topo.switchIp, x.1.1))
        node := t.node ++ v.copies.map fun x => (x.1.2, (x.2, topo.ip2port x.1.1))
        mgid := t.mgid ++ [(v.groupid, v.node)]
        regBitmap := fun a => if v.segAddr / mtuSize ≤ a.toNat ∧
          a.toNat < v.segAddr / mtuSize + allocSize / mtuSize then ⟨0, 0⟩ else t.regBitmap a } := by
  have hops : (memberScript topo v).map (·.1) = v.copies.flatMap fun x =>
      [TableOp.addRestore v.groupid x.2 topo.switchIp x.1.1,
        .addNode x.1.2 x.2 (topo.ip2port x.1.1)] := List.map_flatMap ..
  simp only [tableScript_eq, List.map_append, List.foldl_append, hops, foldl_memberScript,
    List.map_cons, List.map_nil, List.foldl_cons, List.foldl_nil, TableOp.apply]

/-- **What `DestroyGroup` leaves.** -/
theorem tableScript_removed (topo : Topo) (v : GroupVars) (t : Installed) :
    ((tableScript topo v).filterMap (·.2)).reverse.foldl TableOp.apply t =
      { recirculate := t.recirculate.filter (·.1 ≠ v.groupid)
        metadata := t.metadata.filter (·.1 ≠ v.groupid)
        restore := t.restore.filter fun e => decide (∀ x ∈ v.copies, e.1 ≠ (v.groupid, x.2))
        node := t.node.filter fun e => decide (∀ x ∈ v.copies, e.1 ≠ x.1.2)
        mgid := t.mgid.filter (·.1 ≠ v.groupid)
        regBitmap := t.regBitmap } := by
  have hops : (memberScript topo v).filterMap (·.2) = v.copies.flatMap fun x =>
      [TableOp.deleteRestore v.groupid x.2, .deleteNode x.1.2] := List.filterMap_flatMap ..
  simp only [tableScript_eq, List.filterMap_append, List.reverse_append, List.foldl_append, hops,
    foldl_memberUndo, List.filterMap_cons, List.filterMap_nil, List.reverse_cons, List.reverse_nil,
    List.nil_append, List.cons_append, List.foldl_cons, List.foldl_nil, TableOp.apply]

/-! ## 3. The two requests -/

/-- The values the commands of a request are made from, and the state they leave. -/
structure Granted (topo : Topo) (s : Servicer) (v : GroupVars) (s' : Servicer) : Prop where
  node : v.node = s.freeNode.take v.member.length
  le : v.member.length ≤ s.freeNode.length
  freeGroup : s.freeGroup = v.groupid :: s'.freeGroup
  freeNode : s'.freeNode = s.freeNode.drop v.member.length
  undo : s'.undo = s.undo.filter (·.1 ≠ v.groupid) ++ [(v.groupid, undoFuncs topo v)]
  installed : s'.installed = ((tableScript topo v).map (·.1)).foldl TableOp.apply s.installed
  portIdx : v.recirPortIdx = selectRecirPortIdx s.recirPortCnt

/-- **A request that is granted.** -/
theorem Inv.created (h : Inv topo s recs) {member : List ℕ} {ctl : Servicer}
    {r : CreateGroupResponse} (hr : createGroup topo neverRaises s.ctl member = (ctl, .ok r))
    (hne : r.groupId ≠ 0) :
    ∃ v, v.response topo = r ∧ v.member = member ∧ Granted topo s.ctl v ctl := by
  have hports : s.ctl.recirPortCnt ≠ [] := fun h0 =>
    topo.recirPort_ne (List.length_eq_zero_iff.mp (h.portLen ▸ by rw [h0]; rfl))
  cases hv : s.ctl.vars member with
  | none =>
    rw [createGroup_none hv] at hr
    obtain rfl := Except.ok.inj (Prod.mk.inj hr).2
    exact absurd rfl hne
  | some x =>
    obtain ⟨index, v⟩ := x
    obtain ⟨⟨A, g, B, hm, rfl, -, -⟩, -, hidx⟩ := vars_spec hv
    have hi : v.recirPortIdx < s.ctl.recirPortCnt.length := hidx ▸ selectRecirPortIdx_lt hports
    rw [createGroup_some hv, execAll_script topo hm hi] at hr
    obtain ⟨rfl, hok⟩ := Prod.mk.inj hr
    obtain rfl := Except.ok.inj hok
    simp only [Servicer.vars, fitSeg_allocSize] at hv
    split at hv
    · rename_i groupid fg hfit hg
      simp only [Option.ite_none_left_eq_some, Option.some.injEq, Prod.mk.injEq] at hv
      obtain ⟨hlen, -, rfl⟩ := hv
      exact ⟨_, rfl, rfl, rfl, Nat.le_of_not_lt hlen, by dsimp only; rw [hg]; rfl, rfl, rfl, rfl,
        hidx⟩
    · cases hv

/-- The undo commands run to their end only if the block is not free and the port is counted. -/
theorem execAll_undo_none {s : Servicer}
    (h : (execAll neverRaises s (undoFuncs topo v).reverse).2 = none) :
    (∃ m, freeSeg s.memseg v.segAddr (v.segAddr + allocSize) = some m) ∧
      v.recirPortIdx < s.recirPortCnt.length := by
  rw [undoFuncs_eq, List.reverse_append, ← List.map_reverse, execAll_append, execAll_table] at h
  simp only [List.reverse_cons, List.reverse_nil, List.nil_append, List.cons_append, execAll,
    Command.exec] at h
  by_cases hi : v.recirPortIdx < s.recirPortCnt.length
  · refine ⟨?_, hi⟩
    rw [if_pos hi] at h
    cases hfree : freeSeg s.memseg v.segAddr (v.segAddr + allocSize) with
    | none => simp [hfree] at h
    | some m => exact ⟨m, rfl⟩
  · rw [if_neg hi] at h
    cases h

/-- The state that the undo commands of a group leave. -/
structure Removed (topo : Topo) (s : Servicer) (v : GroupVars) (s' : Servicer) : Prop where
  freeGroup : s'.freeGroup = s.freeGroup ++ [v.groupid]
  freeNode : s'.freeNode = s.freeNode ++ v.node
  undo : s'.undo = s.undo.filter (·.1 ≠ v.groupid)
  installed : s'.installed =
    ((tableScript topo v).filterMap (·.2)).reverse.foldl TableOp.apply s.installed

/-- **A group that is destroyed**: its commands are replayed. -/
theorem Inv.destroyed (h : Inv topo s recs)
    (hu : s.ctl.undo.lookup v.groupid = some (undoFuncs topo v)) :
    Removed topo s.ctl v (destroyGroup neverRaises s.ctl v.groupid).1 := by
  have hok := (h.destroy v.groupid).1
  have hnone : (execAll neverRaises s.ctl (undoFuncs topo v).reverse).2 = none := by
    simp only [destroyGroup, hu] at hok
    split at hok
    · cases hok
    · rename_i he
      rw [he]
  obtain ⟨⟨m, hfree⟩, hi⟩ := execAll_undo_none hnone
  simp only [destroyGroup, hu, execAll_undo topo hfree hi]
  exact ⟨rfl, rfl, rfl, rfl⟩

/-! ## 4. What the entries survive -/

/-- The id of a live group is not free. -/
theorem Inv.live_not_free (h : Inv topo s recs) {r : CreateGroupResponse} (hr : r ∈ s.live) :
    r.groupId ∉ s.ctl.freeGroup := by
  rw [h.live] at hr
  obtain ⟨v, hv, rfl⟩ := List.mem_map.mp hr
  have hnodup := h.groups.nodup_iff.mpr List.nodup_range'
  exact fun hfree => (List.nodup_append.mp hnodup).2.2 _ (List.mem_map_of_mem hv) _ hfree rfl

/-- The nodes of two live groups are different. -/
theorem Inv.nodes_disjoint (h : Inv topo s recs) (hv : Installs topo s v) (hw : Installs topo s w)
    (hne : w.groupid ≠ v.groupid) : List.Disjoint w.node v.node := by
  have hrec : ∀ v, Installs topo s v → ∃ v' ∈ recs, v'.groupid = v.groupid ∧ v'.node = v.node := by
    intro v hv
    have hlive := hv.live
    rw [h.live] at hlive
    obtain ⟨v', hv', hresp⟩ := List.mem_map.mp hlive
    have hid : v'.groupid = v.groupid := congrArg CreateGroupResponse.groupId hresp
    have hnodes := h.nodes_response hv'
    rw [Session.nodes, hresp, show (v.response topo).groupId = v.groupid from rfl, hv.mgid] at hnodes
    exact ⟨v', hv', hid, hnodes.symm⟩
  obtain ⟨v', hv', hvid, hvnode⟩ := hrec v hv
  obtain ⟨w', hw', hwid, hwnode⟩ := hrec w hw
  have hnodup := (List.nodup_append.mp (h.nodes.nodup_iff.mpr List.nodup_range')).1
  have hpair := (List.nodup_flatMap.mp hnodup).2
  have hsym : Std.Symm (Function.onFun List.Disjoint GroupVars.node) :=
    ⟨fun _ _ hab => List.Disjoint.symm hab⟩
  have hdis := hpair.forall hw' hv' fun he => hne (by rw [← hwid, ← hvid, he])
  rw [← hvnode, ← hwnode]
  exact hdis

theorem Entries.start (topo : Topo) (t : Installed) : Entries topo ⟨reinit topo t, []⟩ := by
  refine ⟨fun _ hr => absurd hr List.not_mem_nil, fun _ he => absurd he List.not_mem_nil,
    fun _ he => absurd he List.not_mem_nil, fun e he => ?_⟩
  have hnode : (reinit topo t).freeNode = List.range' 1 (maxWorkerNum - 1) := by
    simp only [reinit, filter_pos_range]
  rw [hnode]
  dsimp only [reinit] at he
  rw [filter_pos_range (n := maxWorkerNum)] at he
  exact of_decide_eq_true (List.mem_filter.mp he).2

/-- A free id has no entries. -/
theorem Inv.lookup_free (h : Inv topo s recs) {g : ℕ} (hg : g ∈ s.ctl.freeGroup) :
    (∀ e ∈ s.ctl.installed.recirculate, e.1 ≠ g) ∧ ∀ e ∈ s.ctl.installed.mgid, e.1 ≠ g := by
  have hrecs : ∀ v ∈ recs, v.groupid ≠ g := by
    rintro v hv rfl
    exact h.live_not_free (r := v.response topo) (h.live ▸ List.mem_map_of_mem hv) hg
  constructor
  · intro e he
    rw [h.recirculate] at he
    obtain ⟨v, hv, rfl⟩ := List.mem_map.mp he
    exact hrecs v hv
  · obtain ⟨base, hbase, hb⟩ := h.mgid
    intro e he
    rw [hbase] at he
    rcases List.mem_append.mp he with he | he
    · rintro rfl
      exact hb e he (h.groups.subset (List.mem_append_right _ hg))
    · obtain ⟨v, hv, rfl⟩ := List.mem_map.mp he
      exact hrecs v hv

/-- What is granted is installed. -/
theorem Installs.created (h : Inv topo s recs) (he : Entries topo s) {s' : Session}
    (hg : Granted topo s.ctl v s'.ctl) (hlive : s'.live = s.live ++ [v.response topo]) :
    Installs topo s' v := by
  have hid : v.groupid ∈ s.ctl.freeGroup := hg.freeGroup ▸ List.mem_cons_self
  have hinst := hg.installed
  rw [tableScript_installed] at hinst
  have hsize : v.node.length = v.member.length := by
    rw [hg.node, List.length_take, Nat.min_eq_left hg.le]
  have hnodes := GroupVars.map_copies_node hsize
  have hfree : s.ctl.freeNode.Nodup :=
    (List.nodup_append.mp (h.nodes.nodup_iff.mpr List.nodup_range')).2.1
  have hnodup : v.node.Nodup := hg.node ▸ hfree.sublist (List.take_sublist _ _)
  obtain ⟨hrec, hmgid⟩ := h.lookup_free hid
  refine ⟨by rw [hlive]; simp, ?_, hsize, ?_, ?_, ?_, fun x hx => ?_, fun e hmem hgroup => ?_,
    fun x hx => ?_⟩
  · rw [hg.undo, lookup_append_of_not_mem fun e he => of_decide_eq_true (List.mem_filter.mp he).2]
    exact List.lookup_cons_self
  · rw [hinst, lookup_append_of_not_mem hrec]
    exact List.lookup_cons_self
  · rw [hinst, lookup_append_of_not_mem fun e hmem heq => he.metadata e hmem (heq ▸ hid)]
    exact List.lookup_cons_self
  · rw [hinst, lookup_append_of_not_mem hmgid]
    exact List.lookup_cons_self
  · rw [hinst, lookup_append_of_not_mem fun e hmem heq =>
      he.restore e hmem (by rw [heq]; exact hid)]
    refine lookup_map_of_mem (f := fun x : (ℕ × ℕ) × ℕ => (v.groupid, x.2)) ?_ hx
    have hranks : (v.copies.map Prod.snd).Nodup := by
      rw [GroupVars.copies, List.zipIdx_map_snd]
      exact List.nodup_range'
    rw [show (v.copies.map fun x => (v.groupid, x.2)) =
      (v.copies.map Prod.snd).map (Prod.mk v.groupid) from (List.map_map ..).symm]
    exact hranks.map fun _ _ heq => (Prod.mk.inj heq).2
  · rw [hinst] at hmem
    rcases List.mem_append.mp hmem with hmem | hmem
    · exact absurd (hgroup ▸ hid) (he.restore e hmem)
    · obtain ⟨x, hx, rfl⟩ := List.mem_map.mp hmem
      exact ⟨x, hx, rfl⟩
  · have hmem : x.1.2 ∈ s.ctl.freeNode := by
      refine List.take_subset v.member.length _ ?_
      rw [← hg.node, ← hnodes]
      exact List.mem_map_of_mem hx
    rw [hinst, lookup_append_of_not_mem fun e he' heq => he.node e he' (heq ▸ hmem)]
    exact lookup_map_of_mem (f := fun x : (ℕ × ℕ) × ℕ => x.1.2) (hnodes ▸ hnodup) hx

/-- What is granted later changes no entry. -/
theorem Installs.granted (h : Inv topo s recs) (hw : Installs topo s w) {s' : Session}
    (hg : Granted topo s.ctl v s'.ctl) (hlive : s.live ⊆ s'.live) : Installs topo s' w := by
  have hinst := hg.installed
  rw [tableScript_installed] at hinst
  have hne : w.groupid ≠ v.groupid := fun heq =>
    h.live_not_free hw.live (by rw [hg.freeGroup]; exact heq ▸ List.mem_cons_self)
  refine ⟨hlive hw.live, ?_, hw.size, ?_, ?_, ?_, fun x hx => ?_, fun e hmem hgroup => ?_,
    fun x hx => ?_⟩
  · rw [hg.undo]
    refine lookup_append_of_some ?_ _
    rw [lookup_filter_of_pos (p := fun k => decide (k ≠ v.groupid)) (decide_eq_true hne)]
    exact hw.undo
  all_goals rw [hinst] at *
  · exact lookup_append_of_some hw.recirculate _
  · exact lookup_append_of_some hw.metadata _
  · exact lookup_append_of_some hw.mgid _
  · exact lookup_append_of_some (hw.restore x hx) _
  · rcases List.mem_append.mp hmem with hmem | hmem
    · exact hw.ranks e hmem hgroup
    · obtain ⟨x, -, rfl⟩ := List.mem_map.mp hmem
      exact absurd hgroup.symm hne
  · exact lookup_append_of_some (hw.node x hx) _

/-- What is removed of one group changes no entry of another. -/
theorem Installs.removed (h : Inv topo s recs) (hv : Installs topo s v) (hw : Installs topo s w)
    (hne : w.groupid ≠ v.groupid) {s' : Session} (hr : Removed topo s.ctl v s'.ctl)
    (hlive : w.response topo ∈ s'.live) : Installs topo s' w := by
  have hinst := hr.installed
  rw [tableScript_removed] at hinst
  have hid : decide (w.groupid ≠ v.groupid) = true := decide_eq_true hne
  refine ⟨hlive, ?_, hw.size, ?_, ?_, ?_, fun x hx => ?_, fun e hmem => ?_, fun x hx => ?_⟩
  · rw [hr.undo, lookup_filter_of_pos (p := fun k => decide (k ≠ v.groupid)) hid]
    exact hw.undo
  all_goals rw [hinst] at *
  · rw [lookup_filter_of_pos (p := fun k => decide (k ≠ v.groupid)) hid]
    exact hw.recirculate
  · rw [lookup_filter_of_pos (p := fun k => decide (k ≠ v.groupid)) hid]
    exact hw.metadata
  · rw [lookup_filter_of_pos (p := fun k => decide (k ≠ v.groupid)) hid]
    exact hw.mgid
  · rw [lookup_filter_of_pos (p := fun k => decide (∀ x ∈ v.copies, k ≠ (v.groupid, x.2)))
      (decide_eq_true fun _ _ heq => hne (Prod.mk.inj heq).1)]
    exact hw.restore x hx
  · exact hw.ranks e (List.mem_of_mem_filter hmem)
  · have hmem : x.1.2 ∈ w.node := by
      rw [← GroupVars.map_copies_node hw.size]
      exact List.mem_map_of_mem hx
    have hother : ∀ y ∈ v.copies, x.1.2 ≠ y.1.2 := by
      intro y hy heq
      refine h.nodes_disjoint hv hw hne hmem ?_
      rw [heq, ← GroupVars.map_copies_node hv.size]
      exact List.mem_map_of_mem hy
    rw [lookup_filter_of_pos (p := fun k => decide (∀ x ∈ v.copies, k ≠ x.1.2))
      (decide_eq_true hother)]
    exact hw.node x hx

/-! ## 5. Requests -/

/-- **What a request does**: nothing, or it adds a group, or it removes one. -/
inductive ServeCase (topo : Topo) (s : Session) : Request → Session → Prop
  | same {req : Request} : ServeCase topo s req s
  | granted {v : GroupVars} {s' : Session} : Granted topo s.ctl v s'.ctl →
      s'.live = s.live ++ [v.response topo] → ServeCase topo s (.create v.member) s'
  | removed {v : GroupVars} {s' : Session} : Installs topo s v → Removed topo s.ctl v s'.ctl →
      s'.live = s.live.filter (·.groupId ≠ v.groupid) → ServeCase topo s (.destroy v.groupid) s'

theorem Entries.serve_cases (h : Inv topo s recs) (he : Entries topo s) (req : Request) :
    ServeCase topo s req (s.serve topo req) := by
  cases req with
  | create member =>
    rcases h.create member with hnull | ⟨ctl, v, hv, hne, -⟩
    · simp only [Session.serve, hnull, CreateGroupResponse.null, if_pos]
      exact .same
    · have hne' : (v.response topo).groupId ≠ 0 := hne
      obtain ⟨w, hw, rfl, hg⟩ := h.created hv hne'
      simp only [Session.serve, hv, if_neg hne']
      exact .granted hg (by rw [hw])
  | destroy groupid =>
    cases hlk : s.ctl.undo.lookup groupid with
    | none =>
      have hsame : s.live.filter (·.groupId ≠ groupid) = s.live := by
        refine List.filter_eq_self.mpr fun r hr => decide_eq_true fun heq => ?_
        obtain ⟨v, rfl, hv⟩ := he.groups r hr
        have hu := hv.undo
        rw [show v.groupid = groupid from heq, hlk] at hu
        cases hu
      simp only [Session.serve, destroyGroup, hlk, hsame]
      exact .same
    | some funcs =>
      have hlk' := hlk
      rw [h.undo] at hlk
      obtain ⟨v', hv', rfl, -⟩ := mem_of_lookup hlk
      obtain ⟨v, hresp, hv⟩ := he.groups _ (h.live ▸ List.mem_map_of_mem hv')
      rw [← show v.groupid = v'.groupid from congrArg CreateGroupResponse.groupId hresp]
      exact .removed hv (h.destroyed hv.undo) rfl

/-- **A request keeps the entries** of the groups it does not destroy. -/
theorem Installs.serve (h : Inv topo s recs) (he : Entries topo s) (hw : Installs topo s w)
    {req : Request} (hreq : req ≠ .destroy w.groupid) : Installs topo (s.serve topo req) w := by
  have hcase := he.serve_cases h req
  generalize s.serve topo req = s' at *
  cases hcase with
  | same => exact hw
  | granted hg hlive => exact hw.granted h hg (hlive ▸ List.subset_append_left _ _)
  | @removed v _ hv hr hlive =>
    have hne : w.groupid ≠ v.groupid := fun heq => hreq (by rw [heq])
    refine Installs.removed h hv hw hne hr ?_
    rw [hlive]
    exact List.mem_filter.mpr ⟨hw.live, decide_eq_true hne⟩

/-- **The invariant.** -/
theorem Entries.serve (h : Inv topo s recs) (he : Entries topo s) (req : Request) :
    Entries topo (s.serve topo req) := by
  have hkeep : ∀ w, Installs topo s w → req ≠ .destroy w.groupid →
      Installs topo (s.serve topo req) w := fun w hw hreq => hw.serve h he hreq
  have hcase := he.serve_cases h req
  generalize s.serve topo req = s' at *
  cases hcase with
  | same => exact he
  | @granted v _ hg hlive =>
    have hinst := hg.installed
    rw [tableScript_installed] at hinst
    have hgroups : (v.groupid :: s'.ctl.freeGroup).Nodup := by
      rw [← hg.freeGroup]
      exact (List.nodup_append.mp (h.groups.nodup_iff.mpr List.nodup_range')).2.1
    have hnodes : (v.node ++ s'.ctl.freeNode).Nodup := by
      rw [hg.node, hg.freeNode, List.take_append_drop]
      exact (List.nodup_append.mp (h.nodes.nodup_iff.mpr List.nodup_range')).2.1
    have hsub : s'.ctl.freeGroup ⊆ s.ctl.freeGroup := hg.freeGroup ▸ List.subset_cons_self _ _
    have hsub' : s'.ctl.freeNode ⊆ s.ctl.freeNode := hg.freeNode ▸ List.drop_subset _ _
    have hnew : Installs topo s' v := .created h he hg hlive
    refine ⟨fun r hr => ?_, fun e hmem => ?_, fun e hmem => ?_, fun e hmem => ?_⟩
    · rw [hlive] at hr
      rcases List.mem_append.mp hr with hr | hr
      · obtain ⟨w, hw, hinst⟩ := he.groups r hr
        exact ⟨w, hw, hkeep w hinst (by simp)⟩
      · exact ⟨v, (List.mem_singleton.mp hr).symm, hnew⟩
    all_goals
      rw [hinst] at hmem
      rcases List.mem_append.mp hmem with hmem | hmem
    · exact fun hfree => he.metadata e hmem (hsub hfree)
    · rw [List.mem_singleton.mp hmem]
      exact (List.nodup_cons.mp hgroups).1
    · exact fun hfree => he.restore e hmem (hsub hfree)
    · obtain ⟨x, -, rfl⟩ := List.mem_map.mp hmem
      exact (List.nodup_cons.mp hgroups).1
    · exact fun hfree => he.node e hmem (hsub' hfree)
    · obtain ⟨x, hx, rfl⟩ := List.mem_map.mp hmem
      have hnode : x.1.2 ∈ v.node := by
        rw [← GroupVars.map_copies_node hnew.size]
        exact List.mem_map_of_mem hx
      exact fun hfree => (List.nodup_append.mp hnodes).2.2 _ hnode _ hfree rfl
  | @removed v _ hv hr hlive =>
    have hinst := hr.installed
    rw [tableScript_removed] at hinst
    refine ⟨fun r hmem => ?_, fun e hmem => ?_, fun e hmem => ?_, fun e hmem => ?_⟩
    · rw [hlive] at hmem
      obtain ⟨hmem, hne⟩ := List.mem_filter.mp hmem
      obtain ⟨w, rfl, hw⟩ := he.groups r hmem
      refine ⟨w, rfl, hkeep w hw fun heq => ?_⟩
      exact of_decide_eq_true hne (Request.destroy.inj heq).symm
    all_goals
      rw [hinst] at hmem
      obtain ⟨hmem, hne⟩ := List.mem_filter.mp hmem
      replace hne := of_decide_eq_true hne
    · rw [hr.freeGroup, List.mem_append, List.mem_singleton, not_or]
      exact ⟨he.metadata e hmem, hne⟩
    · rw [hr.freeGroup, List.mem_append, List.mem_singleton, not_or]
      refine ⟨he.restore e hmem, fun heq => ?_⟩
      obtain ⟨x, hx, hkey⟩ := hv.ranks e hmem heq
      exact hne x hx hkey
    · rw [hr.freeNode, List.mem_append, not_or]
      refine ⟨he.node e hmem, fun hnode => ?_⟩
      rw [← GroupVars.map_copies_node hv.size] at hnode
      obtain ⟨x, hx, heq⟩ := List.mem_map.mp hnode
      exact hne x hx heq.symm

/-- Every session has its entries. -/
theorem Entries.run (topo : Topo) (t : Installed) (reqs : List Request) :
    ∃ recs, Inv topo (Session.run topo t reqs) recs ∧ Entries topo (Session.run topo t reqs) := by
  induction reqs using List.reverseRecOn with
  | nil => exact ⟨[], Inv.start topo t, .start topo t⟩
  | append_singleton reqs req ih =>
    obtain ⟨recs, h, he⟩ := ih
    obtain ⟨recs', h'⟩ := h.serve req
    refine ⟨recs', ?_⟩
    simpa only [Session.run, List.foldl_append, List.foldl_cons, List.foldl_nil] using
      ⟨h', he.serve h req⟩

/-- **A group keeps its entries** until a request destroys it: the mask of its ranks, the
recirculation port that had the fewest groups when it was created, and for each rank a copy at the
port of its member and with the member's address.  An id that is free has none. -/
theorem session_installed (topo : Topo) (t : Installed) (pre post : List Request)
    (member : List ℕ) {r : CreateGroupResponse}
    (hok : (createGroup topo neverRaises (Session.run topo t pre).ctl member).2 = .ok r)
    (hne : r.groupId ≠ 0) (hpost : .destroy r.groupId ∉ post) :
    let s := Session.run topo t (pre ++ .create member :: post)
    let e := s.ctl.installed
    r ∈ s.live ∧
      e.metadata.lookup r.groupId = some (2 ^ member.length - 1) ∧
      (∃ port, topo.recirPort[selectRecirPortIdx (Session.run topo t pre).ctl.recirPortCnt]? =
        some port ∧ e.recirculate.lookup r.groupId = some port) ∧
      e.tree r.groupId = (member.zipIdx.map fun x => (x.2, topo.ip2port x.1)) ∧
      (∀ i ip, member[i]? = some ip →
        e.restore.lookup (r.groupId, i) = some (topo.switchIp, ip)) ∧
      ∀ g ∈ s.ctl.freeGroup, e.metadata.lookup g = none ∧ e.recirculate.lookup g = none ∧
        e.mgid.lookup g = none ∧ ∀ i, e.restore.lookup (g, i) = none := by
  obtain ⟨recs, h, he⟩ := Entries.run topo t pre
  obtain ⟨ctl, hr⟩ : ∃ ctl,
      createGroup topo neverRaises (Session.run topo t pre).ctl member = (ctl, .ok r) :=
    ⟨_, Prod.ext rfl hok⟩
  obtain ⟨v, rfl, rfl, hg⟩ := h.created hr hne
  have hidx : v.recirPortIdx < topo.recirPort.length := by
    rw [hg.portIdx, ← h.portLen]
    exact selectRecirPortIdx_lt (List.length_pos_iff.mp (h.portLen ▸
      List.length_pos_iff.mpr topo.recirPort_ne))
  have hresp : (v.response topo).groupId = v.groupid := rfl
  have hnew : Installs topo (Session.run topo t (pre ++ [.create v.member])) v := by
    refine Installs.created h he ?_ ?_ <;>
      simp only [Session.run, List.foldl_append, List.foldl_cons, List.foldl_nil] at hr ⊢ <;>
      simp only [Session.serve, hr, if_neg hne]
    exact hg
  have hlast : Installs topo (Session.run topo t (pre ++ .create v.member :: post)) v := by
    induction post using List.reverseRecOn with
    | nil => exact hnew
    | append_singleton post req ih =>
      obtain ⟨_, h, he⟩ := Entries.run topo t (pre ++ .create v.member :: post)
      have hreq : req ≠ .destroy v.groupid := fun heq => hpost (by simp [heq, hresp])
      have := (ih fun hmem => hpost (List.mem_append_left _ hmem)).serve h he hreq
      simpa only [Session.run, List.foldl_append, List.foldl_cons, List.foldl_nil] using this
  obtain ⟨recs, h, he⟩ := Entries.run topo t (pre ++ .create v.member :: post)
  dsimp only
  rw [hresp]
  generalize Session.run topo t (pre ++ .create v.member :: post) = s at *
  refine ⟨hlast.live, hlast.metadata, ?_, hlast.tree_eq, fun i ip hip => ?_, fun g hfree => ?_⟩
  · refine ⟨_, ?_, hlast.recirculate⟩
    rw [← hg.portIdx, List.getD_eq_getElem?_getD, List.getElem?_eq_getElem hidx,
      Option.getD_some]
  · obtain ⟨hi, rfl⟩ := List.getElem?_eq_some_iff.mp hip
    have hi' : i < v.node.length := by rw [hlast.size]; exact hi
    refine hlast.restore ((v.member[i], v.node[i]), i) ?_
    rw [GroupVars.copies, List.mem_zipIdx_iff_getElem?]
    simp [hi, hi']
  · obtain ⟨hrec, hmgid⟩ := h.lookup_free hfree
    refine ⟨?_, ?_, ?_, fun i => ?_⟩ <;>
      refine List.lookup_eq_none_iff.mpr fun e hmem => bne_iff_ne.mpr fun heq => ?_
    · exact he.metadata e hmem (heq ▸ hfree)
    · exact hrec e hmem heq.symm
    · exact hmgid e hmem heq.symm
    · exact he.restore e hmem (by rw [← heq]; exact hfree)

/-- The second of two groups, after the first is destroyed and a third has been created. -/
theorem session_installed_second :
    let s := Session.run testbed .empty ([.create [0xc0a80101, 0xc0a80102]] ++
      .create [0xc0a80103, 0xc0a80101] :: [.destroy 1, .create [0xc0a80104]])
    s.ctl.installed.tree 2 = [(0, 148), (1, 180)] ∧
      s.ctl.installed.restore.lookup (2, 1) = some (0xc0a801fe, 0xc0a80101) ∧
      s.ctl.installed.recirculate.lookup 2 = some 156 := by
  have hr : (createGroup testbed neverRaises (Session.run testbed .empty
      [.create [0xc0a80101, 0xc0a80102]]).ctl [0xc0a80103, 0xc0a80101]).2 =
        .ok ⟨2, 1024, 1024, [0xc0a801fe, 0xc0a801fe]⟩ := by decide +kernel
  obtain ⟨-, -, ⟨port, hport, hlookup⟩, htree, hrestore, -⟩ := session_installed testbed .empty
    [.create [0xc0a80101, 0xc0a80102]] [.destroy 1, .create [0xc0a80104]]
    [0xc0a80103, 0xc0a80101] hr (by decide) (by simp)
  have hsecond : testbed.recirPort[selectRecirPortIdx (Session.run testbed .empty
      [.create [0xc0a80101, 0xc0a80102]]).ctl.recirPortCnt]? = some 156 := by decide +kernel
  rw [hsecond] at hport
  exact ⟨htree, hrestore 1 _ rfl, hport ▸ hlookup⟩

end NetCCL.Controller
