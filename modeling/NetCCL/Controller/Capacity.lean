/-
# When the controller has room

`CreateGroup` refuses a group when it finds no block, no id or too few nodes.  All blocks have one
size, `ALLOC_SIZE`, so whatever was created and destroyed before, the free memory is a list of
whole blocks (`Blocks`): the list may be split more than it need be, since `free_seg` does not
always merge, but never so that a free block is not found.  And each resource a live group has is
one the free lists do not have.

* `session_capacity`: a request is granted if and only if fewer than 16 groups are live and there
  is a node for every member.  It depends on what is live alone, so nothing is ever leaked.
-/
import NetCCL.Controller.Entries

namespace NetCCL.Controller

open Lib

variable {topo : Topo} {s : Session} {recs : List GroupVars}

/-! ## 1. Whole blocks -/

/-- Every free entry begins and ends with a block. -/
def Blocks (m : List Seg) : Prop := ∀ g ∈ m, allocSize ∣ g.l ∧ allocSize ∣ g.r

theorem upperalign_of_dvd {x y : ℕ} (hy : 0 < y) (h : y ∣ x) : upperalign x y = x := by
  obtain ⟨k, rfl⟩ := h
  have hdiv : (y * k + y - 1) / y = k := by
    rw [Nat.add_sub_assoc hy, Nat.mul_add_div hy, Nat.div_eq_of_lt (by omega), Nat.add_zero]
  rw [upperalign, hdiv, Nat.mul_comm]

theorem allocSize_pos : 0 < allocSize := by decide

/-- A free entry that is not empty has room for a block, at its start. -/
theorem Blocks.addrInSeg {m : List Seg} (h : Blocks m) {g : Seg} (hg : g ∈ m) (hlt : g.l < g.r) :
    addrInSeg g allocSize = some g.l := by
  obtain ⟨hl, hr⟩ := h g hg
  have hle : g.l + allocSize ≤ g.r := by
    obtain ⟨a, ha⟩ := hl
    obtain ⟨b, hb⟩ := hr
    have hab : a < b := Nat.lt_of_mul_lt_mul_left (ha ▸ hb ▸ hlt)
    calc g.l + allocSize = allocSize * (a + 1) := by rw [ha, Nat.mul_succ]
      _ ≤ allocSize * b := Nat.mul_le_mul_left _ hab
      _ = g.r := hb.symm
  rw [Controller.addrInSeg, upperalign_of_dvd allocSize_pos hl]
  exact if_pos hle

theorem Blocks.fitFrom {m : List Seg} (h : Blocks m) (hne : ∀ g ∈ m, g.l < g.r) (k : ℕ) :
    (fitFrom allocSize k m).isSome = !m.isEmpty := by
  cases m with
  | nil => rfl
  | cons g m =>
    rw [Controller.fitFrom, h.addrInSeg List.mem_cons_self (hne g List.mem_cons_self)]
    rfl

/-- What `alloc_seg` leaves of an entry. -/
theorem Blocks.give {A B : List Seg} {g : Seg} {addr : ℕ} (h : Blocks (A ++ g :: B))
    (haddr : allocSize ∣ addr) :
    Blocks (A ++ (g.before addr ++ (g.after (addr + allocSize) ++ B))) := by
  obtain ⟨hl, hr⟩ := h g (by simp)
  intro t ht
  simp only [List.mem_append] at ht
  rcases ht with ht | ht | ht | ht
  · exact h t (by simp [ht])
  · rw [Seg.before] at ht
    split at ht
    · rw [List.mem_singleton.mp ht]
      exact ⟨hl, haddr⟩
    · exact absurd ht List.not_mem_nil
  · rw [Seg.after] at ht
    split at ht
    · rw [List.mem_singleton.mp ht]
      exact ⟨Nat.dvd_add haddr (Nat.dvd_refl _), hr⟩
    · exact absurd ht List.not_mem_nil
  · exact h t (by simp [ht])

theorem Blocks.replace {A C B : List Seg} (h : Blocks (A ++ C ++ B)) {g : Seg}
    (hl : allocSize ∣ g.l) (hr : allocSize ∣ g.r) : Blocks (A ++ g :: B) := by
  intro t ht
  rcases List.mem_append.mp ht with ht | ht
  · exact h t (by simp [ht])
  rcases List.mem_cons.mp ht with rfl | ht
  · exact ⟨hl, hr⟩
  · exact h t (by simp [ht])

/-- Merged or not, a freed block begins and ends with a block. -/
theorem Blocks.free {m m' : List Seg} {addr : ℕ} (h : Blocks m) (haddr : allocSize ∣ addr)
    (hsort : Sorted m) (hne : ∀ s ∈ m, s.l < s.r)
    (hdis : ∀ s ∈ m, s.Disjoint ⟨addr, addr + allocSize⟩)
    (hm : freeSeg m addr (addr + allocSize) = some m') : Blocks m' := by
  have hstop : allocSize ∣ addr + allocSize := Nat.dvd_add haddr (Nat.dvd_refl _)
  obtain ⟨A, B, rfl, -, -, hcase⟩ :=
    freeSeg_cases (Nat.lt_add_of_pos_right allocSize_pos) hsort hne hdis
  rcases hcase with ⟨A', a, rfl, -, hm'⟩ | ⟨-, ⟨b, B', rfl, -, hm'⟩ | ⟨-, hm'⟩⟩ <;>
    obtain rfl := Option.some.inj (hm.symm.trans hm')
  · exact h.replace (h a (by simp)).1 hstop
  · exact Blocks.replace (C := [b]) (by simpa using h) haddr (h b (by simp)).2
  · exact Blocks.replace (C := []) (by simpa using h) haddr hstop

/-! ## 2. What a request does to the free lists -/

/-- **A request to create, in terms of what is free.** -/
theorem Inv.create_cases (h : Inv topo s recs) (hblocks : Blocks s.ctl.memseg)
    (member : List ℕ) :
    (Blocks (createGroup topo neverRaises s.ctl member).1.memseg) ∧
      ((∃ r, (createGroup topo neverRaises s.ctl member).2 = .ok r ∧ r.groupId ≠ 0) ↔
        s.ctl.memseg ≠ [] ∧ s.ctl.freeGroup ≠ [] ∧ member.length ≤ s.ctl.freeNode.length) := by
  have hfit := hblocks.fitFrom (fun g hg => h.memory.nonempty g (List.mem_append_right _ hg)) 0
  have hnull : ¬ ∃ r, (Except.ok .null : Except Failure CreateGroupResponse) = .ok r ∧
      r.groupId ≠ 0 := by
    rintro ⟨r, hr, hne⟩
    exact hne (congrArg CreateGroupResponse.groupId (Except.ok.inj hr)).symm
  simp only [createGroup, fitSeg_allocSize]
  cases hfound : fitFrom allocSize 0 s.ctl.memseg with
  | none =>
    rw [hfound] at hfit
    have hempty : s.ctl.memseg = [] := by simpa using hfit
    exact ⟨hblocks, iff_of_false hnull fun hfree => hfree.1 hempty⟩
  | some found =>
    obtain ⟨segIndex, segAddr⟩ := found
    obtain ⟨A, g, B, hm, hidx, haddr⟩ := fitFrom_spec hfound
    obtain ⟨-, -, hdvd⟩ := addrInSeg_spec allocSize_pos haddr
    obtain rfl : segIndex = A.length := hidx.trans (Nat.zero_add _)
    cases hg : s.ctl.freeGroup with
    | nil => exact ⟨hblocks, iff_of_false hnull fun hfree => hfree.2.1 rfl⟩
    | cons groupid fg =>
      dsimp only
      split
      · rename_i hlen
        exact ⟨hblocks, iff_of_false hnull fun hfree => absurd hfree.2.2 (by omega)⟩
      rename_i hlen
      have hports : s.ctl.recirPortCnt ≠ [] := by
        intro h0
        exact topo.recirPort_ne (List.length_eq_zero_iff.mp (h.portLen ▸ by simp [h0]))
      rw [execAll_script topo hm (selectRecirPortIdx_lt hports)]
      refine ⟨(hm ▸ hblocks).give hdvd, iff_of_true ⟨_, rfl, ?_⟩ ⟨?_, ?_, by omega⟩⟩
      · have hid : groupid ∈ List.range' 1 (maxGroupNum - 1) :=
          h.groups.subset (List.mem_append_right _ (hg ▸ List.mem_cons_self))
        have hpos := (List.mem_range'_1.mp hid).1
        change groupid ≠ 0
        omega
      · rw [hm]
        simp
      · simp

theorem Inv.destroy_blocks (h : Inv topo s recs) (hblocks : Blocks s.ctl.memseg) (groupid : ℕ) :
    Blocks (destroyGroup neverRaises s.ctl groupid).1.memseg := by
  simp only [destroyGroup]
  cases hlk : s.ctl.undo.lookup groupid with
  | none => exact hblocks
  | some funcs =>
    rw [h.undo] at hlk
    obtain ⟨v, hv, rfl, rfl⟩ := mem_of_lookup hlk
    obtain ⟨R₁, R₂, rfl⟩ := List.append_of_mem hv
    have hdis : ∀ t ∈ s.ctl.memseg, t.Disjoint v.seg := fun t ht x htx hvx =>
      (List.pairwise_append.mp h.memory.partition.disjoint).2.2 v.seg (by simp) t ht x hvx htx
    have hne : ∀ t ∈ s.ctl.memseg, t.l < t.r := fun t ht =>
      h.memory.nonempty t (List.mem_append_right _ ht)
    obtain ⟨m, hfree, -⟩ := freeSeg_spec (Nat.lt_add_of_pos_right allocSize_pos) h.sorted hne hdis
    dsimp only
    rw [execAll_undo topo hfree (h.portLen ▸ h.portIdx v hv)]
    exact hblocks.free (h.aligned v hv) h.sorted hne hdis hfree

theorem Inv.serve_blocks (h : Inv topo s recs) (hblocks : Blocks s.ctl.memseg) (req : Request) :
    Blocks (s.serve topo req).ctl.memseg := by
  cases req with
  | create member =>
    have hcreate := (h.create_cases hblocks member).1
    simp only [Session.serve]
    split <;> rename_i hr <;> rw [hr] at hcreate <;> exact hcreate
  | destroy groupid => exact h.destroy_blocks hblocks groupid

theorem blocks_run (topo : Topo) (t : Installed) (reqs : List Request) :
    ∃ recs, Inv topo (Session.run topo t reqs) recs ∧ Entries topo (Session.run topo t reqs) ∧
      Blocks (Session.run topo t reqs).ctl.memseg := by
  induction reqs using List.reverseRecOn with
  | nil =>
    refine ⟨[], Inv.start topo t, Entries.start topo t, fun g hg => ?_⟩
    rw [List.mem_singleton.mp (show g ∈ [⟨0, switchMemSize⟩] from hg)]
    exact ⟨Nat.dvd_zero _, by decide⟩
  | append_singleton reqs req ih =>
    obtain ⟨recs, h, he, hblocks⟩ := ih
    obtain ⟨recs', h'⟩ := h.serve req
    rw [Session.run, List.foldl_append]
    exact ⟨recs', h', he.serve h req, h.serve_blocks hblocks req⟩

/-! ## 3. What is free, in terms of what is live -/

/-- The number of blocks. -/
def blockCnt : ℕ := switchMemSize / allocSize

theorem block_lt {addr : ℕ} (h : addr < switchMemSize) : addr / allocSize < blockCnt :=
  Nat.div_lt_of_lt_mul (Nat.lt_of_lt_of_eq h (by decide))

theorem eq_of_block {a b : ℕ} (ha : allocSize ∣ a) (hb : allocSize ∣ b)
    (h : a / allocSize = b / allocSize) : a = b := by
  rw [← Nat.div_mul_cancel ha, h, Nat.div_mul_cancel hb]

theorem GroupVars.seg_has (v : GroupVars) : v.seg.Has v.segAddr :=
  ⟨Nat.le_refl _, Nat.lt_add_of_pos_right allocSize_pos⟩

/-- No two live groups have the same block. -/
theorem Inv.block_nodup (h : Inv topo s recs) : (recs.map (·.segAddr / allocSize)).Nodup := by
  have hdis : recs.Pairwise fun v w => v.seg.Disjoint w.seg :=
    List.pairwise_map.mp (List.pairwise_append.mp h.memory.partition.disjoint).1
  refine List.pairwise_map.mpr (hdis.imp_of_mem fun {v w} hv hw hvw heq => ?_)
  have haddr := eq_of_block (h.aligned v hv) (h.aligned w hw) heq
  exact hvw v.segAddr v.seg_has (haddr ▸ w.seg_has)

/-- **There is a free block** as long as fewer than 16 groups are live. -/
theorem Inv.block_iff (h : Inv topo s recs) (hblocks : Blocks s.ctl.memseg) :
    s.ctl.memseg ≠ [] ↔ s.live.length < blockCnt := by
  have hcover := h.memory.partition.cover
  have hlen : s.live.length = recs.length := by rw [h.live, List.length_map]
  rw [hlen]
  constructor
  · intro hne
    obtain ⟨g, hg⟩ := List.exists_mem_of_ne_nil _ hne
    have hghas : g.Has g.l :=
      ⟨Nat.le_refl _, h.memory.nonempty g (List.mem_append_right _ hg)⟩
    have hfree : g.l / allocSize ∉ recs.map (·.segAddr / allocSize) := by
      intro hmem
      obtain ⟨v, hv, heq⟩ := List.mem_map.mp hmem
      have haddr := eq_of_block (h.aligned v hv) (hblocks g hg).1 heq
      exact (List.pairwise_append.mp h.memory.partition.disjoint).2.2 v.seg
        (List.mem_map_of_mem hv) g hg v.segAddr v.seg_has (haddr ▸ hghas)
    have hsub : g.l / allocSize :: recs.map (·.segAddr / allocSize) ⊆ List.range blockCnt := by
      intro i hi
      rcases List.mem_cons.mp hi with rfl | hi
      · exact List.mem_range.mpr
          (block_lt ((hcover _).mp ⟨g, List.mem_append_right _ hg, hghas⟩))
      · obtain ⟨v, hv, rfl⟩ := List.mem_map.mp hi
        exact List.mem_range.mpr (block_lt ((hcover _).mp
          ⟨v.seg, List.mem_append_left _ (List.mem_map_of_mem hv), v.seg_has⟩))
    have hle := ((List.nodup_cons.mpr ⟨hfree, h.block_nodup⟩).subperm hsub).length_le
    rw [List.length_cons, List.length_map, List.length_range] at hle
    exact hle
  · intro hlt hempty
    refine absurd hlt (Nat.not_lt.mpr ?_)
    -- every block is a group's
    have hsub : List.range blockCnt ⊆ recs.map (·.segAddr / allocSize) := by
      intro i hi
      have hsize : i * allocSize < switchMemSize :=
        Nat.lt_of_lt_of_eq (Nat.mul_lt_mul_of_pos_right (List.mem_range.mp hi) allocSize_pos)
          (by decide)
      obtain ⟨t, ht, hl, hr⟩ := (hcover _).mpr hsize
      rw [hempty, List.append_nil] at ht
      obtain ⟨v, hv, rfl⟩ := List.mem_map.mp ht
      obtain ⟨k, hk⟩ := h.aligned v hv
      refine List.mem_map.mpr ⟨v, hv, ?_⟩
      change v.segAddr ≤ i * allocSize at hl
      change i * allocSize < v.segAddr + allocSize at hr
      rw [hk, Nat.mul_comm] at hl hr
      have hki : k ≤ i := Nat.le_of_mul_le_mul_right hl allocSize_pos
      have hik : i < k + 1 := by
        rw [← Nat.mul_succ] at hr
        exact Nat.lt_of_mul_lt_mul_left hr
      rw [hk, Nat.mul_div_cancel_left _ allocSize_pos]
      omega
    have hle := (List.nodup_range.subperm hsub).length_le
    rwa [List.length_map, List.length_range] at hle

/-- A live group has a node for every member. -/
theorem Inv.node_length (h : Inv topo s recs) (he : Entries topo s) {v : GroupVars}
    (hv : v ∈ recs) : v.node.length = (v.response topo).member.length := by
  obtain ⟨w, hw, hi⟩ := he.groups _ (h.live ▸ List.mem_map_of_mem hv)
  have hid : w.groupid = v.groupid := congrArg CreateGroupResponse.groupId hw
  have hnodes := h.nodes_response hv
  have hlookup := hi.mgid
  rw [hid] at hlookup
  change (s.ctl.installed.mgid.lookup v.groupid).getD [] = v.node at hnodes
  rw [hlookup] at hnodes
  calc v.node.length = w.member.length := by rw [← hnodes, ← hi.size]; rfl
    _ = (w.response topo).member.length := (List.length_map ..).symm
    _ = _ := by rw [hw]

/-- The nodes that are not the live groups' are free. -/
theorem Inv.freeNode_length (h : Inv topo s recs) (he : Entries topo s) :
    (s.live.map fun r => r.member.length).sum + s.ctl.freeNode.length = maxWorkerNum - 1 := by
  have hlen := h.nodes.length_eq
  rw [List.length_append, List.length_flatMap, List.length_range'] at hlen
  rw [← hlen, h.live, List.map_map]
  congr 2
  exact List.map_congr_left fun v hv => (h.node_length he hv).symm

theorem Inv.freeGroup_length (h : Inv topo s recs) :
    s.live.length + s.ctl.freeGroup.length = maxGroupNum - 1 := by
  have hlen := h.groups.length_eq
  rw [List.length_append, List.length_map, List.length_range'] at hlen
  rw [← hlen, h.live, List.length_map]

/-! ## 4. Any sequence of requests -/

theorem Inv.capacity (h : Inv topo s recs) (he : Entries topo s) (hblocks : Blocks s.ctl.memseg)
    (member : List ℕ) :
    (∃ r, (createGroup topo neverRaises s.ctl member).2 = .ok r ∧ r.groupId ≠ 0) ↔
      s.live.length < blockCnt ∧
        (s.live.map fun r => r.member.length).sum + member.length < maxWorkerNum := by
  have hnode := h.freeNode_length he
  have hgroup := h.freeGroup_length
  have hids : maxGroupNum - 1 = 255 := rfl
  have hcnt : blockCnt = 16 := rfl
  have hworkers : maxWorkerNum = 1024 := rfl
  rw [(h.create_cases hblocks member).2, h.block_iff hblocks]
  constructor
  · rintro ⟨hlt, -, hle⟩
    exact ⟨hlt, by omega⟩
  · rintro ⟨hlt, hsum⟩
    refine ⟨hlt, fun hnil => ?_, by omega⟩
    rw [hnil, List.length_nil] at hgroup
    omega

/-- **When a group is granted.**  After any requests, whatever was created and destroyed before,
there is room if and only if fewer than 16 groups are live and the nodes suffice. -/
theorem session_capacity (topo : Topo) (t : Installed) (reqs : List Request) (member : List ℕ) :
    let s := Session.run topo t reqs
    (∃ r, (createGroup topo neverRaises s.ctl member).2 = .ok r ∧ r.groupId ≠ 0) ↔
      s.live.length < switchMemSize / allocSize ∧
        (s.live.map fun r => r.member.length).sum + member.length < maxWorkerNum := by
  obtain ⟨recs, h, he, hblocks⟩ := blocks_run topo t reqs
  exact h.capacity he hblocks member

end NetCCL.Controller
