/-
# Which slot a packet uses

Three parts of the system decide on the aggregator slot of a packet: `CreateGroup` gives a
group a range of slots, `try_post_op` gives every worker a part of it, and `fill_pkt` goes
round in that part, by the PSN.  Nothing but these three computations keeps packets that are
out at the same time from sharing a slot.

* `slots_within`, `slots_workers`, `slots_groups`: the ranges are nested and disjoint, for any
  number of workers;
* `slots_exclusive_iff`: within its range a worker has no collisions exactly if the length of
  the range divides 2^32, because the PSN wraps there and the remainder starts over;
* `slots_exclusive_fails`: with three workers it does not.
-/
import NetCCL.Controller.Partitioned
import NetCCL.Backend.LoadBalancer
import NetCCL.Backend.Packets

namespace NetCCL

open Lib Controller Backend

/-! ## 1. Slots -/

/-- The slots of a group. -/
def Controller.CreateGroupResponse.slots (g : CreateGroupResponse) : Seg :=
  ⟨g.aggAddr, g.aggAddr + g.aggLen⟩

/-- The slots of a sub-op. -/
def slotsOf (s : SubOp) : Seg := ⟨s.aggAddr, s.aggAddr + s.aggLen⟩

/-- The slot in the header `fill_pkt` writes. -/
def slot (mem : ℕ → Byte) (s : SubOp) (p : PktState) : ℕ := (fillPkt mem s p).pkt.inc.aggAddr.toNat

/-- An op of a group: its `group_t` is what the controller has answered. -/
structure OfGroup (op : Op) (g : CreateGroupResponse) : Prop where
  groupId : op.group.groupId.toNat = g.groupId
  aggAddr : op.group.aggAddr = g.aggAddr
  aggLen : op.group.aggLen = g.aggLen

/-- `s` is what `try_post_op` queues for worker `i`, for some op of the group. -/
def PostedTo (g : CreateGroupResponse) (nworker i : ℕ) (s : SubOp) : Prop :=
  ∃ op, OfGroup op g ∧ (subOps op nworker)[i]? = some s

/-- **Slots are assigned without collisions**, for one live group. -/
structure SlotsExclusive (live : List CreateGroupResponse) (g : CreateGroupResponse)
    (nworker : ℕ) : Prop where
  inside : ∀ i s mem p, PostedTo g nworker i s →
    (slotsOf s).Has (slot mem s p) ∧ g.slots.Has (slot mem s p)
  workers : ∀ i j s t, PostedTo g nworker i s → PostedTo g nworker j t → i ≠ j →
    (slotsOf s).Disjoint (slotsOf t)
  groups : ∀ g' ∈ live, g' ≠ g → g.slots.Disjoint g'.slots
  distinct : ∀ i s t mem mem' p q, PostedTo g nworker i s → PostedTo g nworker i t →
    p.psn ≠ q.psn → (q.psn - p.psn).toNat < s.aggLen → slot mem s p ≠ slot mem' t q

/-! ## 2. From the controller to the packet -/

/-- The slots of a live group are among the switch's, and there is one at least. -/
theorem slots_bound {topo : Topo} {s : Session} (h : s.Partitioned topo) {g : CreateGroupResponse}
    (hg : g ∈ s.live) : 0 < g.aggLen ∧ g.aggAddr + g.aggLen ≤ 2 ^ 14 := by
  have hmem : g.seg ∈ s.live.map CreateGroupResponse.seg ++ s.ctl.memseg :=
    List.mem_append_left _ (List.mem_map_of_mem hg)
  have hne := h.memory.nonempty _ hmem
  have hlast : (g.aggAddr + g.aggLen) * mtuSize - 1 < switchMemSize :=
    (h.memory.cover _).mp ⟨_, hmem, by simp only [CreateGroupResponse.seg] at hne ⊢; omega,
      by simp only [CreateGroupResponse.seg] at hne ⊢; omega⟩
  simp only [CreateGroupResponse.seg, mtuSize, switchMemSize] at *
  omega

/-- **What `try_post_op` gives worker `i`.** -/
theorem PostedTo.range {g : CreateGroupResponse} {nworker i : ℕ} {s : SubOp}
    (hbound : g.aggAddr + g.aggLen ≤ 2 ^ 14) (h : PostedTo g nworker i s) :
    i < nworker ∧ s.aggAddr = g.aggAddr + g.aggLen / nworker * i ∧
      s.aggLen = g.aggLen / nworker ∧ s.aggAddr + s.aggLen ≤ g.aggAddr + g.aggLen := by
  obtain ⟨op, hop, hget⟩ := h
  rw [subOps_eq, List.getElem?_map] at hget
  obtain ⟨i', hi', rfl⟩ := Option.map_eq_some_iff.mp hget
  obtain ⟨hi, rfl⟩ := List.getElem?_eq_some_iff.mp hi'
  rw [List.length_range] at hi
  rw [List.getElem_range]
  have hpart : g.aggLen / nworker * i + g.aggLen / nworker ≤ g.aggLen := by
    rw [← Nat.mul_succ]
    exact (Nat.mul_le_mul_left _ hi).trans (Nat.div_mul_le_self _ _)
  have hle : g.aggLen / nworker * i ≤ g.aggLen := Nat.le_of_add_right_le hpart
  have hle' : g.aggLen / nworker ≤ g.aggLen := Nat.div_le_self _ _
  have haddr : (subOp op nworker i (subOffset op.size nworker i)).aggAddr =
      g.aggAddr + g.aggLen / nworker * i := by
    rw [subOp, hop.aggAddr, hop.aggLen]
    exact Nat.mod_eq_of_lt (by omega)
  have hlen : (subOp op nworker i (subOffset op.size nworker i)).aggLen = g.aggLen / nworker := by
    rw [subOp, hop.aggLen]
    exact Nat.mod_eq_of_lt (by omega)
  exact ⟨hi, haddr, hlen, by rw [haddr, hlen, Nat.add_assoc]; exact Nat.add_le_add_left hpart _⟩

/-- **The slot `fill_pkt` computes**, where nothing is cut off. -/
theorem slot_eq {s : SubOp} (hlen : 0 < s.aggLen) (hbound : s.aggAddr + s.aggLen ≤ 2 ^ 14)
    (mem : ℕ → Byte) (p : PktState) : slot mem s p = s.aggAddr + p.psn.toNat % s.aggLen := by
  have hlt := Nat.mod_lt p.psn.toNat hlen
  rw [slot, (fillPkt_cut mem s p).2.2, incHdr, BitVec.toNat_ofNat, Nat.mod_eq_of_lt]
  omega

/-- Every worker of a live group is given something. -/
theorem exists_postedTo {g : CreateGroupResponse} (hid : g.groupId < 2 ^ 8) {nworker i : ℕ}
    (hi : i < nworker) : ∃ s, PostedTo g nworker i s := by
  have hget : i < (subOps ⟨.allReduce, 0, 0, 0, ⟨BitVec.ofNat 8 g.groupId, 1, 0, g.aggAddr,
      g.aggLen⟩⟩ nworker).length := by rw [subOps_length]; exact hi
  exact ⟨_, _, ⟨by rw [BitVec.toNat_ofNat, Nat.mod_eq_of_lt hid], rfl, rfl⟩,
    List.getElem?_eq_getElem hget⟩

section Ranges

variable {topo : Topo} {s : Session} {g : CreateGroupResponse} {nworker : ℕ}

/-- Every worker has a slot, as long as there are enough for all: `fill_pkt` does not divide by
zero. -/
theorem PostedTo.aggLen_pos (hbound : g.aggAddr + g.aggLen ≤ 2 ^ 14) (hworker : nworker ≤ g.aggLen)
    {i : ℕ} {t : SubOp} (ht : PostedTo g nworker i t) : 0 < t.aggLen := by
  obtain ⟨hi, -, hlen, -⟩ := ht.range hbound
  rw [hlen]
  exact Nat.div_pos hworker (Nat.zero_lt_of_lt hi)

/-- **A packet stays in its ranges.** -/
theorem slots_within (h : s.Partitioned topo) (hg : g ∈ s.live) (hworker : nworker ≤ g.aggLen)
    {i : ℕ} {t : SubOp} (ht : PostedTo g nworker i t) (mem : ℕ → Byte) (p : PktState) :
    (slotsOf t).Has (slot mem t p) ∧ g.slots.Has (slot mem t p) := by
  obtain ⟨hpos, hbound⟩ := slots_bound h hg
  obtain ⟨hi, haddr, hlen, hle⟩ := ht.range hbound
  have hlen' := ht.aggLen_pos hbound hworker
  have hmod := Nat.mod_lt p.psn.toNat hlen'
  rw [slot_eq hlen' (by omega)]
  simp only [Seg.Has, slotsOf, CreateGroupResponse.slots]
  rw [haddr] at hle ⊢
  generalize g.aggLen / nworker * i = a at *
  omega

/-- **No packet names an address past the end of the registers.** -/
theorem slot_lt_registerLen (h : s.Partitioned topo) (hg : g ∈ s.live) (hworker : nworker ≤ g.aggLen)
    {i : ℕ} {t : SubOp} (ht : PostedTo g nworker i t) (mem : ℕ → Byte) (p : PktState) :
    slot mem t p < Switch.registerLen := by
  have hslot := (slots_within h hg hworker ht mem p).2.2
  have hbound := (slots_bound h hg).2
  exact Nat.lt_of_lt_of_le hslot hbound

/-- **Workers do not share slots.** -/
theorem slots_workers (hbound : g.aggAddr + g.aggLen ≤ 2 ^ 14) {i j : ℕ} {t u : SubOp}
    (ht : PostedTo g nworker i t) (hu : PostedTo g nworker j u) (hij : i ≠ j) :
    (slotsOf t).Disjoint (slotsOf u) := by
  obtain ⟨-, ht, htl, -⟩ := ht.range hbound
  obtain ⟨-, hu, hul, -⟩ := hu.range hbound
  have hstep : ∀ a b : ℕ, a < b →
      g.aggLen / nworker * a + g.aggLen / nworker ≤ g.aggLen / nworker * b := by
    intro a b hab
    rw [← Nat.mul_succ]
    exact Nat.mul_le_mul_left _ hab
  intro x hx hx'
  simp only [Seg.Has, slotsOf, ht, htl, hu, hul] at hx hx'
  rcases Nat.lt_or_gt_of_ne hij with hlt | hlt
  · have := hstep i j hlt
    omega
  · have := hstep j i hlt
    omega

/-- **Groups do not share slots.** -/
theorem slots_groups (h : s.Partitioned topo) (hg : g ∈ s.live) {g' : CreateGroupResponse}
    (hg' : g' ∈ s.live) (hne : g' ≠ g) : g.slots.Disjoint g'.slots := by
  have hdis : (s.live.map CreateGroupResponse.seg).Pairwise Seg.Disjoint :=
    (List.pairwise_append.mp h.memory.disjoint).1
  rw [List.pairwise_map] at hdis
  have hsym : Std.Symm fun a b : CreateGroupResponse => a.seg.Disjoint b.seg :=
    ⟨fun _ _ hab x hx hx' => hab x hx' hx⟩
  have hseg : g.seg.Disjoint g'.seg := hdis.forall hg hg' hne.symm
  intro x hx hx'
  refine hseg (x * mtuSize) ?_ ?_ <;>
    simp only [Seg.Has, CreateGroupResponse.slots, CreateGroupResponse.seg, mtuSize] at * <;> omega

end Ranges

/-! ## 3. When nothing collides -/

/-- A packet of which only the PSN matters. -/
def barePkt (psn : BitVec 32) : PktState :=
  ⟨false, 0, 0, 0, psn, true, ⟨⟨0, 0, 0, 0, 0, 0⟩, 0, 0, fun _ => 0⟩⟩

/-- **Slot assignment is collision-free** for a live group exactly if the length of a worker's
range divides 2^32. -/
theorem slots_exclusive_iff (topo : Topo) (t : Installed) (reqs : List Request)
    {g : CreateGroupResponse} (hg : g ∈ (Session.run topo t reqs).live) {nworker : ℕ}
    (hpos : 1 ≤ nworker) (hworker : nworker ≤ g.aggLen) :
    SlotsExclusive (Session.run topo t reqs).live g nworker ↔ g.aggLen / nworker ∣ 2 ^ 32 := by
  have hpart := (session_partitioned topo t reqs).1
  obtain ⟨-, hbound⟩ := slots_bound hpart hg
  have hd : 0 < g.aggLen / nworker := Nat.div_pos hworker hpos
  have hle : g.aggLen / nworker ≤ 2 ^ 32 := (Nat.div_le_self _ _).trans (by omega)
  have hslot : ∀ i s, PostedTo g nworker i s → ∀ mem p, slot mem s p =
      g.aggAddr + g.aggLen / nworker * i + p.psn.toNat % (g.aggLen / nworker) := by
    intro i s hs mem p
    obtain ⟨-, haddr, hlen, hend⟩ := hs.range hbound
    rw [slot_eq (by omega) (by omega), haddr, hlen]
  rw [← residues_apart_iff hd hle]
  constructor
  · intro h p q hne hlt heq
    have hid : g.groupId < 2 ^ 8 := by
      have hmem := hpart.groups.subset (List.mem_append_left _ (List.mem_map_of_mem hg))
      rw [List.mem_range'_1] at hmem
      simp only [maxGroupNum] at hmem
      omega
    obtain ⟨s, hs⟩ := exists_postedTo hid hpos
    have hlen := (hs.range hbound).2.2.1
    refine h.distinct 0 s s (fun _ => 0) (fun _ => 0) (barePkt p) (barePkt q) hs hs hne
      (by rw [hlen]; exact hlt) ?_
    rw [hslot 0 s hs, hslot 0 s hs]
    exact congrArg _ heq
  · intro h
    refine ⟨fun i s mem p hs => slots_within hpart hg hworker hs mem p,
      fun i j s u hs hu hij => slots_workers hbound hs hu hij,
      fun g' hg' hne => slots_groups hpart hg hg' hne, ?_⟩
    intro i s u mem mem' p q hs hu hne hlt heq
    rw [hslot i s hs, hslot i u hu] at heq
    rw [(hs.range hbound).2.2.1] at hlt
    exact h p.psn q.psn hne hlt (Nat.add_left_cancel heq)

/-- A switch with two hosts, and what its controller has created for them. -/
def twoHosts : Topo := ⟨[1, 2], [10, 11], 99, [68], by simp, by simp⟩
def oneCreated : Session :=
  Session.run twoHosts ⟨[], [], [], [], [], fun _ => ⟨0, 0⟩⟩ [.create [10, 11]]

theorem oneCreated_live : oneCreated.live = [⟨1, 0, 1024, [99, 99]⟩] := by decide +kernel

/-- Two groups of these hosts. -/
def twoCreated : Session :=
  Session.run twoHosts ⟨[], [], [], [], [], fun _ => ⟨0, 0⟩⟩ [.create [10, 11], .create [11]]

/-- With four workers each has 256 slots, in either of two groups, and the groups have none in
common. -/
theorem slots_exclusive_four : ∃ g ∈ twoCreated.live, ∃ g' ∈ twoCreated.live, g' ≠ g ∧
    SlotsExclusive twoCreated.live g 4 ∧ SlotsExclusive twoCreated.live g' 4 ∧
    g.slots.Disjoint g'.slots := by
  have hlive : twoCreated.live = [⟨1, 0, 1024, [99, 99]⟩, ⟨2, 1024, 1024, [99]⟩] := by
    decide +kernel
  have hfirst : ⟨1, 0, 1024, [99, 99]⟩ ∈ twoCreated.live := by
    rw [hlive]
    exact List.mem_cons_self
  have hsecond : ⟨2, 1024, 1024, [99]⟩ ∈ twoCreated.live := by
    rw [hlive]
    exact List.mem_cons_of_mem _ List.mem_cons_self
  have hexclusive : SlotsExclusive twoCreated.live ⟨1, 0, 1024, [99, 99]⟩ 4 :=
    (slots_exclusive_iff _ _ _ hfirst (by decide) (by decide)).mpr (by decide)
  exact ⟨_, hfirst, _, hsecond, by decide, hexclusive,
    (slots_exclusive_iff _ _ _ hsecond (by decide) (by decide)).mpr (by decide),
    hexclusive.groups _ hsecond (by decide)⟩

/-- The first of three parts of an empty all-reduce of that group. -/
def firstOfThree : SubOp := ⟨⟨.allReduce, 0, 0, 0, ⟨1, 2, 0, 0, 1024⟩⟩, 0, 0, 0, 341⟩

/-- **Three workers collide**: each has 341 slots, and the last PSN shares its slot with the
fourth after it. -/
theorem slots_exclusive_fails : ∃ g ∈ oneCreated.live, PostedTo g 3 0 firstOfThree ∧
    (3#32 - 0xFFFFFFFF#32).toNat < firstOfThree.aggLen ∧
    slot (fun _ => 0) firstOfThree (barePkt 0xFFFFFFFF) =
      slot (fun _ => 0) firstOfThree (barePkt 3) ∧
    ¬ SlotsExclusive oneCreated.live g 3 := by
  have hs : PostedTo ⟨1, 0, 1024, [99, 99]⟩ 3 0 firstOfThree :=
    ⟨firstOfThree.op, ⟨rfl, rfl, rfl⟩, by decide⟩
  have hlt : (3#32 - 0xFFFFFFFF#32).toNat < firstOfThree.aggLen := by decide
  have hslot : slot (fun _ => 0) firstOfThree (barePkt 0xFFFFFFFF) =
      slot (fun _ => 0) firstOfThree (barePkt 3) := by
    rw [slot_eq (by decide) (by decide), slot_eq (by decide) (by decide)]
    decide
  refine ⟨⟨1, 0, 1024, [99, 99]⟩, ?_, hs, hlt, hslot,
    fun h => h.distinct 0 _ _ _ _ _ _ hs hs (by decide) hlt hslot⟩
  rw [oneCreated_live]
  exact List.mem_cons_self

end NetCCL
