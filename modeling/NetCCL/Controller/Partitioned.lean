/-
# The controller keeps its resources partitioned

The induction over sessions.  `Inv` says what the servicer's state is in terms of one record
per live group; `execAll_script` and `execAll_undo` compute what the commands of a group do
to the state in one go, so that the two step lemmas, `Inv.create` and `Inv.destroy`, are
about lists and not about commands:

* creating moves the head of `free_group`, a prefix of `free_node` and an aligned block of
  one entry of `memseg` over to the new group;
* destroying appends the group's id and nodes to the free lists, and gives its block back.
  `free_seg` cannot exit: the block is counted exactly once by the invariant, so it is
  disjoint from every free segment.
-/
import NetCCL.Controller.Groups
import Mathlib.Data.List.Nodup
import Mathlib.Data.List.Perm.Basic

namespace NetCCL.Controller

/-! ## 1. What the commands of a group come to -/

theorem execAll_append (raises : Installed → TableOp → Bool) (s : Servicer) (l₁ l₂ : List Command) :
    execAll raises s (l₁ ++ l₂) =
      match execAll raises s l₁ with
      | (s', none) => execAll raises s' l₂
      | (s', some e) => (s', some e) := by
  induction l₁ generalizing s with
  | nil => rfl
  | cons c l₁ ih =>
    simp only [List.cons_append, execAll]
    cases c.exec raises s with
    | error e => rfl
    | ok s' => exact ih s'

/-- A run of table operations that nothing refuses. -/
theorem execAll_table (s : Servicer) (ops : List TableOp) :
    execAll neverRaises s (ops.map .table) =
      ({ s with installed := ops.foldl TableOp.apply s.installed }, none) := by
  induction ops generalizing s with
  | nil => rfl
  | cons op ops ih =>
    simp only [List.map_cons, execAll, Command.exec, neverRaises, Bool.false_eq_true, if_false]
    exact ih _

/-- The operations made once per member: they leave the entries of the groups alone. -/
def TableOp.PerMember : TableOp → Prop
  | .addRestore .. | .deleteRestore .. | .addNode .. | .deleteNode .. => True
  | _ => False

theorem foldl_perMember {ops : List TableOp} (h : ∀ op ∈ ops, op.PerMember) (t : Installed) :
    (ops.foldl TableOp.apply t).mgid = t.mgid ∧
      (ops.foldl TableOp.apply t).recirculate = t.recirculate := by
  induction ops generalizing t with
  | nil => exact ⟨rfl, rfl⟩
  | cons op ops ih =>
    obtain ⟨hop, hops⟩ := List.forall_mem_cons.mp h
    obtain ⟨h1, h2⟩ := ih hops (op.apply t)
    refine ⟨h1.trans ?_, h2.trans ?_⟩ <;> cases op <;> first | rfl | exact absurd hop id

/-- The table operations of `CreateGroup` that are made once per member. -/
def memberScript (topo : Topo) (v : GroupVars) : List (TableOp × Option TableOp) :=
  (v.member.zip v.node).zipIdx.flatMap fun ((ip, node), i) =>
    [(.addRestore v.groupid i topo.switchIp ip, some (.deleteRestore v.groupid i)),
      (.addNode node i (topo.ip2port ip), some (.deleteNode node))]

theorem tableScript_eq (topo : Topo) (v : GroupVars) :
    tableScript topo v =
      [(.addRecirculate v.groupid (topo.recirPort.getD v.recirPortIdx 0),
          some (.deleteRecirculate v.groupid)),
        (.addMetadata v.groupid (2 ^ v.member.length - 1), some (.deleteMetadata v.groupid))] ++
      memberScript topo v ++
      [(.addMgid v.groupid v.node, some (.deleteMgid v.groupid)),
        (.clearBitmap (v.segAddr / mtuSize) (v.segAddr / mtuSize + allocSize / mtuSize), none)] := rfl

theorem memberScript_perMember {topo : Topo} {v : GroupVars} {x : TableOp × Option TableOp}
    (hx : x ∈ memberScript topo v) : x.1.PerMember ∧ ∀ op, x.2 = some op → op.PerMember := by
  obtain ⟨_, -, hx⟩ := List.mem_flatMap.mp hx
  rcases List.mem_cons.mp hx with rfl | hx
  · refine ⟨trivial, fun op hop => ?_⟩
    obtain rfl := Option.some.inj hop; trivial
  · rw [List.mem_singleton.mp hx]
    refine ⟨trivial, fun op hop => ?_⟩
    obtain rfl := Option.some.inj hop; trivial

/-- What `CreateGroup` installs for a group. -/
theorem tableScript_apply (topo : Topo) (v : GroupVars) (t : Installed) :
    let t' := ((tableScript topo v).map (·.1)).foldl TableOp.apply t
    t'.mgid = t.mgid ++ [(v.groupid, v.node)] ∧
      t'.recirculate = t.recirculate ++ [(v.groupid, topo.recirPort.getD v.recirPortIdx 0)] := by
  simp only [tableScript_eq, List.map_append, List.foldl_append, List.map_cons, List.map_nil,
    List.foldl_cons, List.foldl_nil, TableOp.apply]
  have hmem : ∀ op ∈ (memberScript topo v).map (·.1), op.PerMember := by
    intro op hop
    obtain ⟨x, hx, rfl⟩ := List.mem_map.mp hop
    exact (memberScript_perMember hx).1
  obtain ⟨h1, h2⟩ := foldl_perMember hmem _
  exact ⟨by rw [h1], by rw [h2]⟩

/-- What `DestroyGroup` removes for a group. -/
theorem tableScript_undo (topo : Topo) (v : GroupVars) (t : Installed) :
    let t' := ((tableScript topo v).filterMap (·.2)).reverse.foldl TableOp.apply t
    t'.mgid = t.mgid.filter (·.1 ≠ v.groupid) ∧
      t'.recirculate = t.recirculate.filter (·.1 ≠ v.groupid) := by
  simp only [tableScript_eq, List.filterMap_append, List.reverse_append, List.foldl_append,
    List.filterMap_cons, List.filterMap_nil, List.reverse_cons, List.reverse_nil, List.nil_append,
    List.cons_append, List.foldl_cons, List.foldl_nil, TableOp.apply]
  have hmem : ∀ op ∈ ((memberScript topo v).filterMap (·.2)).reverse, op.PerMember := by
    intro op hop
    obtain ⟨x, hx, hop⟩ := List.mem_filterMap.mp (List.mem_reverse.mp hop)
    exact (memberScript_perMember hx).2 op hop
  obtain ⟨h1, h2⟩ := foldl_perMember hmem { t with mgid := t.mgid.filter (·.1 ≠ v.groupid) }
  exact ⟨h1, by rw [h2]⟩

/-- **The commands of `CreateGroup` before its table operations**, when the block comes from
entry number `A.length` and the port index is in range: nothing can refuse them. -/
theorem execAll_allocs (raises : Installed → TableOp → Bool) (topo : Topo) {s : Servicer}
    {v : GroupVars} {A B : List Seg} {g : Seg} (hm : s.memseg = A ++ g :: B)
    (hi : v.recirPortIdx < s.recirPortCnt.length) :
    execAll raises s ((script topo A.length v).map (·.1)) =
      execAll raises { s with
          memseg := A ++ (g.before v.segAddr ++ (g.after (v.segAddr + allocSize) ++ B))
          freeGroup := s.freeGroup.drop 1
          freeNode := s.freeNode.drop v.member.length
          recirPortCnt := s.recirPortCnt.modify v.recirPortIdx (· + 1) }
        (((tableScript topo v).map (·.1)).map Command.table) := by
  have hops : ((tableScript topo v).map fun x =>
      ((Command.table x.1, x.2.map Command.table) : Command × Option Command)).map (·.1) =
      ((tableScript topo v).map (·.1)).map Command.table := by
    rw [List.map_map, List.map_map]; rfl
  simp only [script, hops, List.map_cons, List.cons_append, List.nil_append, execAll,
    Command.exec, hm, allocSeg_eq, if_pos hi]

/-- **The commands of `CreateGroup`, executed.** -/
theorem execAll_script (topo : Topo) {s : Servicer} {v : GroupVars} {A B : List Seg} {g : Seg}
    (hm : s.memseg = A ++ g :: B) (hi : v.recirPortIdx < s.recirPortCnt.length) :
    execAll neverRaises s ((script topo A.length v).map (·.1)) =
      ({ s with
          memseg := A ++ (g.before v.segAddr ++ (g.after (v.segAddr + allocSize) ++ B))
          freeGroup := s.freeGroup.drop 1
          freeNode := s.freeNode.drop v.member.length
          recirPortCnt := s.recirPortCnt.modify v.recirPortIdx (· + 1)
          installed := ((tableScript topo v).map (·.1)).foldl TableOp.apply s.installed }, none) := by
  rw [execAll_allocs neverRaises topo hm hi, execAll_table]

/-- The undo commands of a group. -/
theorem undoFuncs_eq (topo : Topo) (v : GroupVars) :
    undoFuncs topo v =
      [.freeSeg v.segAddr (v.segAddr + allocSize), .appendGroup v.groupid, .appendNodes v.node,
        .decPort v.recirPortIdx] ++ ((tableScript topo v).filterMap (·.2)).map .table := by
  rw [undoFuncs, script, List.filterMap_append, List.filterMap_map, List.map_filterMap]
  rfl

/-- **The undo commands, executed in reverse.** -/
theorem execAll_undo (topo : Topo) {s : Servicer} {v : GroupVars} {m : List Seg}
    (hm : freeSeg s.memseg v.segAddr (v.segAddr + allocSize) = some m)
    (hi : v.recirPortIdx < s.recirPortCnt.length) :
    execAll neverRaises s (undoFuncs topo v).reverse =
      ({ s with
          memseg := m
          freeGroup := s.freeGroup ++ [v.groupid]
          freeNode := s.freeNode ++ v.node
          recirPortCnt := s.recirPortCnt.modify v.recirPortIdx (· - 1)
          installed := ((tableScript topo v).filterMap (·.2)).reverse.foldl TableOp.apply
            s.installed }, none) := by
  rw [undoFuncs_eq, List.reverse_append, ← List.map_reverse, execAll_append, execAll_table]
  simp only [List.reverse_cons, List.reverse_nil, List.nil_append, List.cons_append, execAll,
    Command.exec, hm, if_pos hi]

/-! ## 2. The invariant -/

/-- The block of a group. -/
def GroupVars.seg (v : GroupVars) : Seg := ⟨v.segAddr, v.segAddr + allocSize⟩

/-- The state of a session whose live groups were created with the variables `recs`. -/
structure Inv (topo : Topo) (s : Session) (recs : List GroupVars) : Prop where
  live : s.live = recs.map (·.response topo)
  undo : s.ctl.undo = recs.map fun v => (v.groupid, undoFuncs topo v)
  mgid : ∃ base, s.ctl.installed.mgid = base ++ recs.map (fun v => (v.groupid, v.node)) ∧
    ∀ e ∈ base, e.1 ∉ List.range' 1 (maxGroupNum - 1)
  recirculate : s.ctl.installed.recirculate =
    recs.map fun v => (v.groupid, topo.recirPort.getD v.recirPortIdx 0)
  memory : Exact (recs.map GroupVars.seg ++ s.ctl.memseg) switchMemSize
  sorted : Sorted s.ctl.memseg
  aligned : ∀ v ∈ recs, allocSize ∣ v.segAddr
  groups : (recs.map (·.groupid) ++ s.ctl.freeGroup).Perm (List.range' 1 (maxGroupNum - 1))
  nodes : (recs.flatMap (·.node) ++ s.ctl.freeNode).Perm (List.range' 1 (maxWorkerNum - 1))
  portLen : s.ctl.recirPortCnt.length = topo.recirPort.length
  portIdx : ∀ v ∈ recs, v.recirPortIdx < topo.recirPort.length
  ports : ∀ i < topo.recirPort.length,
    s.ctl.recirPortCnt[i]? = some ↑(recs.countP (·.recirPortIdx = i))

variable {topo : Topo} {s : Session} {recs : List GroupVars}

theorem Inv.nodup (h : Inv topo s recs) : (recs.map (·.groupid)).Nodup :=
  (List.nodup_append.mp (h.groups.nodup_iff.mpr List.nodup_range')).1

theorem Inv.id_mem (h : Inv topo s recs) {v : GroupVars} (hv : v ∈ recs) :
    v.groupid ∈ List.range' 1 (maxGroupNum - 1) :=
  h.groups.subset (List.mem_append_left _ (List.mem_map_of_mem hv))

/-- An association list keyed by distinct ids finds each record's value. -/
theorem lookup_map {β : Type} (f : GroupVars → β) {recs : List GroupVars}
    (hn : (recs.map (·.groupid)).Nodup) {v : GroupVars} (hv : v ∈ recs) :
    (recs.map fun v => (v.groupid, f v)).lookup v.groupid = some (f v) := by
  induction recs with
  | nil => exact absurd hv List.not_mem_nil
  | cons w recs ih =>
    rw [List.map_cons, List.nodup_cons] at hn
    rw [List.map_cons, List.lookup_cons]
    rcases List.mem_cons.mp hv with rfl | hv
    · rw [beq_self_eq_true]
    · have hne : (v.groupid == w.groupid) = false :=
        beq_false_of_ne fun e => hn.1 (e ▸ List.mem_map_of_mem hv)
      rw [hne]
      exact ih hn.2 hv

theorem Inv.nodes_response (h : Inv topo s recs) {v : GroupVars} (hv : v ∈ recs) :
    s.nodes (v.response topo) = v.node := by
  obtain ⟨base, hm, hbase⟩ := h.mgid
  have hnone : base.lookup v.groupid = none :=
    List.lookup_eq_none_iff.mpr fun e he => bne_iff_ne.mpr fun heq =>
      hbase e he (heq ▸ h.id_mem hv)
  rw [Session.nodes, hm, GroupVars.response, List.lookup_append, hnone, Option.none_or,
    lookup_map (fun v => v.node) h.nodup hv]
  rfl

theorem Inv.port_response (h : Inv topo s recs) {v : GroupVars} (hv : v ∈ recs) :
    s.port (v.response topo) = some (topo.recirPort.getD v.recirPortIdx 0) := by
  rw [Session.port, h.recirculate, GroupVars.response]
  exact lookup_map (fun v => topo.recirPort.getD v.recirPortIdx 0) h.nodup hv

theorem GroupVars.response_seg {v : GroupVars} (h : allocSize ∣ v.segAddr) :
    (v.response topo).seg = v.seg := by
  obtain ⟨c, hc⟩ := h
  simp only [CreateGroupResponse.seg, GroupVars.response, GroupVars.seg, hc, allocSize, mtuSize,
    Seg.mk.injEq]
  omega

/-- The block of an aligned group, as a list of segments. -/
theorem Inv.map_seg (h : Inv topo s recs) :
    s.live.map CreateGroupResponse.seg = recs.map GroupVars.seg := by
  rw [h.live, List.map_map]
  exact List.map_congr_left fun v hv => GroupVars.response_seg (h.aligned v hv)

/-- **The invariant is the partition.** -/
theorem Inv.partitioned (h : Inv topo s recs) : s.Partitioned topo := by
  refine ⟨?_, h.sorted, fun g hg => ?_, ?_, ?_, fun i hi => ?_⟩
  · rw [h.map_seg]
    exact h.memory.partition
  · rw [h.live] at hg
    obtain ⟨v, hv, rfl⟩ := List.mem_map.mp hg
    rw [GroupVars.response_seg (h.aligned v hv)]
    exact h.aligned v hv
  · rw [h.live, List.map_map]
    exact h.groups
  · have : s.live.flatMap s.nodes = recs.flatMap (·.node) := by
      rw [h.live, List.flatMap_map]
      exact List.flatMap_congr fun v hv => h.nodes_response hv
    rw [this]
    exact h.nodes
  · have hcount : s.live.countP (fun g => s.port g = some topo.recirPort[i]) =
        recs.countP (·.recirPortIdx = i) := by
      rw [h.live, List.countP_map]
      refine List.countP_congr fun v hv => ?_
      have hlt := h.portIdx v hv
      simp only [Function.comp_apply, h.port_response hv, decide_eq_true_eq, Option.some.injEq]
      rw [List.getD_eq_getElem?_getD, List.getElem?_eq_getElem hlt, Option.getD_some,
        topo.recirPort_nodup.getElem_inj_iff]
    rw [hcount]
    exact h.ports i hi

/-- The ids `reinit` starts from. -/
theorem filter_pos_range (n : ℕ) : (List.range n).filter (0 < ·) = List.range' 1 (n - 1) := by
  cases n with
  | zero => rfl
  | succ n =>
    rw [List.range_eq_range', List.range'_succ, List.filter_cons_of_neg (by simp),
      List.filter_eq_self.mpr (fun i hi => by have := List.mem_range'_1.mp hi; simpa using by omega)]
    rfl

/-- After `reinit`. -/
theorem Inv.start (topo : Topo) (t : Installed) : Inv topo ⟨reinit topo t, []⟩ [] := by
  have hgroup : (reinit topo t).freeGroup = List.range' 1 (maxGroupNum - 1) := by
    simp only [reinit, filter_pos_range]
  have hnode : (reinit topo t).freeNode = List.range' 1 (maxWorkerNum - 1) := by
    simp only [reinit, filter_pos_range]
  refine ⟨rfl, rfl, ⟨_, (List.append_nil _).symm, fun e he => ?_⟩, rfl, ⟨?_, fun x => ?_⟩,
    by simp [Sorted, reinit], by simp, ?_, ?_, by simp [reinit], by simp, fun i hi => ?_⟩
  · rw [← hgroup]
    exact of_decide_eq_true (List.mem_filter.mp he).2
  · simp [reinit, switchMemSize]
  · simp [reinit]
  · simpa only [List.map_nil, List.nil_append] using List.Perm.of_eq hgroup
  · simpa only [List.flatMap_nil, List.nil_append] using List.Perm.of_eq hnode
  · simp [reinit, hi]

/-! ## 3. Creating a group -/

theorem selectRecirPortIdx_lt {cnt : List ℤ} (h : cnt ≠ []) :
    selectRecirPortIdx cnt < cnt.length := by
  obtain ⟨m, hm⟩ := Option.isSome_iff_exists.mp (List.isSome_min?_of_ne_nil h)
  rw [selectRecirPortIdx, hm, Option.getD_some]
  exact List.idxOf_lt_length_of_mem (List.min?_mem hm)

/-- `ALLOC_SIZE` is a valid size. -/
theorem fitSeg_allocSize (m : List Seg) : fitSeg m allocSize = some (fitFrom allocSize 0 m) :=
  if_neg (by decide)

/-- **`CreateGroup`** either finds no resource and changes nothing, or adds a record. -/
theorem Inv.create (h : Inv topo s recs) (member : List ℕ) :
    createGroup topo neverRaises s.ctl member = (s.ctl, .ok .null) ∨
      ∃ ctl v, createGroup topo neverRaises s.ctl member = (ctl, .ok (v.response topo)) ∧
        v.groupid ≠ 0 ∧ Inv topo ⟨ctl, s.live ++ [v.response topo]⟩ (recs ++ [v]) := by
  simp only [createGroup, fitSeg_allocSize]
  cases hfit : fitFrom allocSize 0 s.ctl.memseg with
  | none => exact Or.inl rfl
  | some found =>
    obtain ⟨segIndex, segAddr⟩ := found
    obtain ⟨A, g, B, hm, hidx, haddr⟩ := fitFrom_spec hfit
    have hpos : 0 < allocSize := by decide
    obtain ⟨hl, hr, hdvd⟩ := addrInSeg_spec hpos haddr
    obtain rfl : segIndex = A.length := hidx.trans (Nat.zero_add _)
    cases hg : s.ctl.freeGroup with
    | nil => exact Or.inl rfl
    | cons groupid fg =>
      dsimp only
      split
      · exact Or.inl rfl
      rename_i hlen
      have hports : s.ctl.recirPortCnt ≠ [] := by
        intro h0
        exact topo.recirPort_ne (List.length_eq_zero_iff.mp (h.portLen ▸ by simp [h0]))
      have hsel := selectRecirPortIdx_lt hports
      generalize hv : GroupVars.mk groupid segAddr (s.ctl.freeNode.take member.length)
        (selectRecirPortIdx s.ctl.recirPortCnt) member = v
      have hvi : v.recirPortIdx < s.ctl.recirPortCnt.length := hv ▸ hsel
      obtain ⟨hmg, hre⟩ := tableScript_apply topo v s.ctl.installed
      rw [execAll_script topo hm hvi]
      -- the id is free, so no live group has it
      have hgroups := h.groups
      rw [hg] at hgroups
      have hnodup := hgroups.nodup_iff.mpr List.nodup_range'
      have hfresh : ∀ w ∈ recs, w.groupid ≠ groupid := fun w hw e =>
        (List.nodup_append.mp hnodup).2.2 _ (List.mem_map_of_mem hw) _ List.mem_cons_self e
      have hid : groupid ∈ List.range' 1 (maxGroupNum - 1) :=
        hgroups.subset (List.mem_append_right _ List.mem_cons_self)
      have hundo : s.ctl.undo.filter (·.1 ≠ groupid) = s.ctl.undo := by
        refine List.filter_eq_self.mpr fun e he => ?_
        rw [h.undo] at he
        obtain ⟨w, hw, rfl⟩ := List.mem_map.mp he
        exact decide_eq_true (hfresh w hw)
      refine Or.inr ⟨_, v, rfl, ?_, ?_⟩
      · rw [← hv]
        have := List.mem_range'_1.mp hid
        dsimp only; omega
      obtain ⟨base, hbase, hb⟩ := h.mgid
      subst hv
      refine ⟨by rw [h.live, List.map_append]; rfl, ?_, ⟨base, ?_, hb⟩, ?_, ?_, ?_, ?_, ?_, ?_, ?_,
        ?_, fun i hi => ?_⟩
      · rw [hundo, h.undo, List.map_append]; rfl
      · rw [hmg, hbase, List.map_append, List.append_assoc]; rfl
      · rw [hre, h.recirculate, List.map_append]; rfl
      · have hmem := h.memory
        rw [hm] at hmem
        rw [List.map_append]
        exact hmem.give hl (by dsimp only; omega) hr
      · have hsort := h.sorted
        rw [hm] at hsort
        exact hsort.split hl (by dsimp only; omega) hr
      · intro w hw
        rcases List.mem_append.mp hw with hw | hw
        · exact h.aligned w hw
        · rw [List.mem_singleton.mp hw]; exact hdvd
      · rw [hg, List.map_append, List.append_assoc]
        exact hgroups
      · rw [List.flatMap_append, List.append_assoc]
        simpa using h.nodes
      · rw [List.length_modify]; exact h.portLen
      · intro w hw
        rcases List.mem_append.mp hw with hw | hw
        · exact h.portIdx w hw
        · rw [List.mem_singleton.mp hw, ← h.portLen]; exact hsel
      · rw [List.getElem?_modify, h.ports i hi, List.countP_append, List.countP_singleton]
        simp only [decide_eq_true_eq]
        split <;> simp

/-! ## 4. Destroying a group -/

/-- A group found by its id is one of the records. -/
theorem mem_of_lookup {β : Type} {f : GroupVars → β} {recs : List GroupVars} {k : ℕ} {b : β}
    (h : (recs.map fun v => (v.groupid, f v)).lookup k = some b) :
    ∃ v ∈ recs, v.groupid = k ∧ f v = b := by
  induction recs with
  | nil => exact absurd h (by simp)
  | cons w recs ih =>
    rw [List.map_cons, List.lookup_cons] at h
    split at h
    · rename_i he
      exact ⟨w, List.mem_cons_self, (beq_iff_eq.mp he).symm, Option.some.inj h⟩
    · obtain ⟨v, hv, hk, hb⟩ := ih h
      exact ⟨v, List.mem_cons_of_mem _ hv, hk, hb⟩

/-- Removing a record by its id. -/
theorem filter_groupid {R₁ R₂ : List GroupVars} {v : GroupVars}
    (hn : ((R₁ ++ v :: R₂).map (·.groupid)).Nodup) :
    (R₁ ++ v :: R₂).filter (·.groupid ≠ v.groupid) = R₁ ++ R₂ := by
  rw [List.map_append, List.map_cons, List.nodup_append, List.nodup_cons] at hn
  obtain ⟨-, ⟨hv, -⟩, hR⟩ := hn
  have h₁ : R₁.filter (·.groupid ≠ v.groupid) = R₁ := List.filter_eq_self.mpr fun w hw =>
    decide_eq_true (hR _ (List.mem_map_of_mem hw) _ List.mem_cons_self)
  have h₂ : R₂.filter (·.groupid ≠ v.groupid) = R₂ := List.filter_eq_self.mpr fun w hw =>
    decide_eq_true fun e => hv (e ▸ List.mem_map_of_mem hw)
  rw [List.filter_append, List.filter_cons_of_neg (by simp), h₁, h₂]

/-- Filtering an association list of records by the id. -/
theorem filter_map_groupid {β : Type} (f : GroupVars → β) (recs : List GroupVars) (k : ℕ) :
    (recs.map fun v => (v.groupid, f v)).filter (·.1 ≠ k) =
      (recs.filter (·.groupid ≠ k)).map fun v => (v.groupid, f v) := by
  rw [List.filter_map]
  rfl

/-- **`DestroyGroup`** never fails, and removes the record of its group if there is one. -/
theorem Inv.destroy (h : Inv topo s recs) (groupid : ℕ) :
    (destroyGroup neverRaises s.ctl groupid).2 = .ok () ∧
      Inv topo ⟨(destroyGroup neverRaises s.ctl groupid).1,
        s.live.filter (·.groupId ≠ groupid)⟩ (recs.filter (·.groupid ≠ groupid)) := by
  have hlive : s.live.filter (·.groupId ≠ groupid) =
      (recs.filter (·.groupid ≠ groupid)).map (·.response topo) := by
    rw [h.live, List.filter_map]
    rfl
  simp only [destroyGroup]
  cases hlk : s.ctl.undo.lookup groupid with
  | none =>
    have hall : recs.filter (·.groupid ≠ groupid) = recs := by
      refine List.filter_eq_self.mpr fun v hv => decide_eq_true fun e => ?_
      rw [h.undo, ← e, lookup_map _ h.nodup hv] at hlk
      exact absurd hlk (by simp)
    rw [hlive, hall]
    exact ⟨rfl, { h with live := rfl }⟩
  | some funcs =>
    rw [h.undo] at hlk
    obtain ⟨v, hv, rfl, rfl⟩ := mem_of_lookup hlk
    have hid := h.id_mem hv
    have hvi := h.portIdx v hv
    have hrecs := h.nodup
    obtain ⟨R₁, R₂, rfl⟩ := List.append_of_mem hv
    have hfilter := filter_groupid hrecs
    -- the block is counted once, so no free segment meets it
    have hdis : ∀ t ∈ s.ctl.memseg, t.Disjoint v.seg := fun t ht x htx hvx =>
      (List.pairwise_append.mp h.memory.partition.disjoint).2.2 v.seg (by simp) t ht x hvx htx
    obtain ⟨m, hfree, hsort, hne, hocc⟩ := freeSeg_spec (l := v.segAddr)
      (r := v.segAddr + allocSize) (by simp [allocSize]) h.sorted
      (fun t ht => h.memory.nonempty t (List.mem_append_right _ ht)) hdis
    dsimp only
    rw [execAll_undo topo hfree (h.portLen ▸ hvi)]
    obtain ⟨hmg, hre⟩ := tableScript_undo topo v s.ctl.installed
    obtain ⟨base, hbase, hb⟩ := h.mgid
    refine ⟨rfl, hlive, ?_, ⟨base, ?_, hb⟩, ?_, ?_, hsort, ?_, ?_, ?_, ?_, ?_, fun i hi => ?_⟩
    · dsimp only
      rw [h.undo, filter_map_groupid]
    · have hkeep : base.filter (·.1 ≠ v.groupid) = base := List.filter_eq_self.mpr fun e he =>
        decide_eq_true fun heq => hb e he (heq ▸ hid)
      rw [hmg, hbase, List.filter_append, filter_map_groupid, hkeep]
    · rw [hre, h.recirculate, filter_map_groupid]
    · rw [hfilter]
      refine ⟨fun t ht => ?_, fun x => ?_⟩
      · rcases List.mem_append.mp ht with ht | ht
        · refine h.memory.nonempty t (List.mem_append_left _ ?_)
          exact List.map_subset _ (by simp) ht
        · exact hne t ht
      · have hold := h.memory.occ_eq x
        have hnew := hocc x
        simp only [List.map_append, List.map_cons, occ_append, occ_cons, GroupVars.seg] at hold ⊢
        omega
    · intro w hw
      exact h.aligned w (List.mem_of_mem_filter hw)
    · have hgroups := h.groups
      rw [hfilter]
      rw [List.perm_iff_count] at hgroups ⊢
      intro a
      have := hgroups a
      simp only [List.map_append, List.map_cons, List.count_append, List.count_cons,
        List.count_nil] at this ⊢
      omega
    · have hnodes := h.nodes
      rw [hfilter]
      rw [List.perm_iff_count] at hnodes ⊢
      intro a
      have := hnodes a
      simp only [List.flatMap_append, List.flatMap_cons, List.count_append] at this ⊢
      omega
    · rw [List.length_modify]; exact h.portLen
    · intro w hw
      exact h.portIdx w (List.mem_of_mem_filter hw)
    · rw [List.getElem?_modify, h.ports i hi, hfilter]
      simp only [List.countP_append, List.countP_cons, decide_eq_true_eq]
      split
      · simp; omega
      · simp

/-! ## 5. Sessions -/

/-- One request keeps the invariant. -/
theorem Inv.serve (h : Inv topo s recs) (req : Request) :
    ∃ recs', Inv topo (s.serve topo req) recs' := by
  cases req with
  | create member =>
    rcases h.create member with hnull | ⟨ctl, v, hv, hne, hinv⟩
    · exact ⟨recs, by simpa only [Session.serve, hnull, CreateGroupResponse.null, if_pos] using h⟩
    · refine ⟨recs ++ [v], ?_⟩
      have hresp : (v.response topo).groupId ≠ 0 := hne
      simpa only [Session.serve, hv, if_neg hresp] using hinv
  | destroy groupid => exact ⟨_, (h.destroy groupid).2⟩

/-- Every session satisfies the invariant. -/
theorem Inv.run (topo : Topo) (t : Installed) (reqs : List Request) :
    ∃ recs, Inv topo (Session.run topo t reqs) recs := by
  induction reqs using List.reverseRecOn with
  | nil => exact ⟨[], Inv.start topo t⟩
  | append_singleton reqs req ih =>
    obtain ⟨recs, h⟩ := ih
    simpa only [Session.run, List.foldl_append, List.foldl_cons, List.foldl_nil] using h.serve req

/-- **Every sequence of requests leaves the controller's resources partitioned.**  In the
state it reaches, no destroy request fails (so `free_seg` does not exit), and a create
request either succeeds or is refused with the whole state unchanged. -/
theorem session_partitioned (topo : Topo) (t : Installed) (reqs : List Request) :
    let s := Session.run topo t reqs
    s.Partitioned topo ∧
      (∀ groupid, (destroyGroup neverRaises s.ctl groupid).2 = .ok ()) ∧
      ∀ member, createGroup topo neverRaises s.ctl member = (s.ctl, .ok .null) ∨
        ∃ ctl r, createGroup topo neverRaises s.ctl member = (ctl, .ok r) ∧ r.groupId ≠ 0 := by
  obtain ⟨recs, h⟩ := Inv.run topo t reqs
  refine ⟨h.partitioned, fun groupid => (h.destroy groupid).1, fun member => ?_⟩
  refine (h.create member).imp_right ?_
  rintro ⟨ctl, v, hv, hne, -⟩
  exact ⟨ctl, _, hv, hne⟩

end NetCCL.Controller
