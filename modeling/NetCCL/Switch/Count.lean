/-
# The switch counts each rank exactly once

A slot sees first-pass packets of any version, from any rank, any number of times.  What it
is FOR is stated by `arrived`: the ranks whose packet with a version has arrived at the slot
since it last changed version.  It is defined from the sequence of packets alone.

`Counts` ties the registers to it -- the slot's ranks are `arrived`, its words are the sums
over `arrived` -- and `Counts.step` is the induction: `arrived_concat` says what one more
packet does to the set, `ingress_first_slot` and `ingress_first_agg` what the pipeline does
to the slot, and the two agree in every combination of old version, old bitmap and rank.

Two things about the environment are assumed, in `Input`.  All packets with one address, one
version and one rank carry the same payload (`pay`), so a duplicate would add nothing new;
and every subset of a group's ranks has sums that fit a word, so the saturating addition of
the aggregators never saturates and the order of arrival does not show.
-/
import Mathlib.Data.Finset.Powerset
import NetCCL.Switch.Ingress

namespace NetCCL.Switch

open Lib

/-! ## 1. Sequences of first-pass packets -/

/-- The registers after a sequence of packets. -/
def Regs.passes (tbl : Tables) (regs : Regs) (ps : List Packet) : Regs :=
  ps.foldl (fun r p => (ingress tbl r p).1) regs

theorem Regs.passes_concat (tbl : Tables) (regs : Regs) (ps : List Packet) (p : Packet) :
    regs.passes tbl (ps ++ [p]) = (ingress tbl (regs.passes tbl ps) p).1 := by
  simp [Regs.passes, List.foldl_append]

/-- No rank in any slot: the state of the registers when the switch starts, and what
`CreateGroup` leaves in the slots of a new group. -/
def Regs.Clear (regs : Regs) : Prop := ∀ a, (regs.regBitmap a).bitmap = 0#32

/-- The `bitmap_mask` of a group of `n` ranks. -/
def groupMask (n : ℕ) : BitVec 32 := BitVec.ofNat 32 (2 ^ n - 1)

/-- The group is registered with `n` ranks. -/
def Registered (tbl : Tables) (groupId : BitVec 8) (n : ℕ) : Prop :=
  n ≤ 32 ∧ tbl.metadataTable groupId = some (groupMask n)

theorem Registered.unique {tbl : Tables} {g : BitVec 8} {n m : ℕ} (hn : Registered tbl g n)
    (hm : Registered tbl g m) : n = m := by
  have h : groupMask n = groupMask m := Option.some.inj (hn.2.symm.trans hm.2)
  rw [groupMask, groupMask, ← bits_inj, bits_mask hn.1, bits_mask hm.1] at h
  simpa using congrArg Finset.card h

/-- What rank `i` contributes to slot `a` under version `v`. -/
abbrev Contributions := BitVec 16 → BitVec 32 → ℕ → Payload

/-- The sums over every subset of `n` ranks fit, in both words of every pair. -/
def Contributions.Fit (pay : Contributions) (a : BitVec 16) (v : BitVec 32) (n : ℕ) : Prop :=
  ∀ k, SubsetFits (Finset.range n) (fun i => (pay a v i k).agg0) ∧
    SubsetFits (Finset.range n) (fun i => (pay a v i k).agg1)

/-- A first-pass packet of a registered group: a rank of the group, carrying that rank's
contribution. -/
structure Input (tbl : Tables) (pay : Contributions) (p : Packet) : Prop where
  first : p.First
  rank : ∃ n, Registered tbl p.netccl.groupId n ∧ p.netccl.rank.toNat < n ∧
    pay.Fit p.netccl.aggAddr p.netccl.version n
  payload : p.payload = pay p.netccl.aggAddr p.netccl.version p.netccl.rank.toNat

/-- The packets that hit slot `a` with version `v` since it last changed version, latest
first. -/
def streak (ps : List Packet) (a : BitVec 16) (v : BitVec 32) : List Packet :=
  (ps.reverse.filter fun p => p.netccl.aggAddr = a).takeWhile fun p => p.netccl.version = v

/-- Their ranks. -/
def arrived (ps : List Packet) (a : BitVec 16) (v : BitVec 32) : Finset ℕ :=
  ((streak ps a v).map fun p => p.netccl.rank.toNat).toFinset

theorem arrived_nil (a : BitVec 16) (v : BitVec 32) : arrived [] a v = ∅ := rfl

/-- **One more packet.**  It joins the ranks of its own version at its own slot, discards
those of every other version there, and leaves the other slots alone. -/
theorem arrived_concat (ps : List Packet) (p : Packet) (a : BitVec 16) (v : BitVec 32) :
    arrived (ps ++ [p]) a v =
      if a = p.netccl.aggAddr then
        if p.netccl.version = v then insert p.netccl.rank.toNat (arrived ps a v) else ∅
      else arrived ps a v := by
  rcases eq_or_ne a p.netccl.aggAddr with ha | ha
  · rw [if_pos ha]
    split <;> simp [arrived, streak, *]
  · simp [arrived, streak, ha, ha.symm]

/-! ## 2. The invariant -/

/-- The registers hold what has arrived. -/
structure Counts (pay : Contributions) (ps : List Packet) (regs : Regs) : Prop where
  ranks : ∀ a v, regs.ranksAt a v = arrived ps a v
  words : ∀ a v, (arrived ps a v).Nonempty → ∀ k,
    (regs.aggregatorArray a k).agg0.toInt = ∑ i ∈ arrived ps a v, (pay a v i k).agg0.toInt ∧
      (regs.aggregatorArray a k).agg1.toInt = ∑ i ∈ arrived ps a v, (pay a v i k).agg1.toInt

/-- Before the first packet. -/
theorem Counts.nil {pay : Contributions} {regs : Regs} (h : regs.Clear) : Counts pay [] regs := by
  refine ⟨fun a v => ?_, fun a v hne => absurd hne (by simp [arrived_nil])⟩
  rw [arrived_nil, Regs.ranksAt, Regs.ranks, h a, bits_zero, ite_self]

/-- Only ranks of the group arrive. -/
theorem arrived_subset {tbl : Tables} {pay : Contributions} {ps : List Packet}
    (hin : ∀ q ∈ ps, Input tbl pay q) {h : Netccl} {n : ℕ} (hn : Registered tbl h.groupId n) :
    arrived ps h.aggAddr h.version ⊆ Finset.range n := by
  intro i hi
  simp only [arrived, List.mem_toFinset, List.mem_map] at hi
  obtain ⟨q, hq, rfl⟩ := hi
  have hv : q.netccl.version = h.version := of_decide_eq_true
    (List.all_eq_true.mp (List.all_takeWhile (l := List.filter _ _)) q hq)
  have hmem : q ∈ ps := by
    have := (List.takeWhile_sublist _).subset hq
    simpa using (List.mem_filter.mp this).1
  obtain ⟨m, hm, hlt, -⟩ := (hin q hmem).rank
  rw [(version_eq_iff.mp hv).1] at hm
  rw [hn.unique hm]
  exact Finset.mem_range.mpr hlt

/-- **The step.**  A first-pass packet keeps the registers in agreement with what has
arrived. -/
theorem Counts.step {tbl : Tables} {pay : Contributions} {ps : List Packet} {regs : Regs}
    (h : Counts pay ps regs) (hin : ∀ q ∈ ps, Input tbl pay q) {p : Packet}
    (hp : Input tbl pay p) : Counts pay (ps ++ [p]) (ingress tbl regs p).1 := by
  obtain ⟨n, hreg, hlt, hfit⟩ := hp.rank
  have hr : p.netccl.rank.toNat < 32 := Nat.lt_of_lt_of_le hlt hreg.1
  obtain ⟨hver, hranks⟩ := ingress_first_slot tbl regs hp.first hr
  constructor
  · intro a v
    rw [arrived_concat]
    split
    · rename_i ha
      subst ha
      rw [Regs.ranksAt, hver, hranks, h.ranks]
      split
      · rename_i hv
        subst hv
        rfl
      · rfl
    · rename_i ha
      rw [Regs.ranksAt, Regs.ranks, (ingress_frame tbl regs ha).1, ← h.ranks]
      rfl
  · intro a v hne k
    rw [arrived_concat] at hne ⊢
    rcases eq_or_ne a p.netccl.aggAddr with rfl | ha
    · rcases eq_or_ne p.netccl.version v with rfl | hv
      · simp only [if_pos] at hne ⊢
        have hagg := (ingress_first_agg tbl regs hp.first hr k).1
        rw [h.ranks] at hagg
        rw [hagg]
        split
        · -- an empty slot: the words are the packet's own
          rename_i he
          rw [he, insert_empty_eq, Finset.sum_singleton, Finset.sum_singleton, hp.payload]
          exact ⟨rfl, rfl⟩
        rename_i he
        have hold := h.words _ _ (Finset.nonempty_iff_ne_empty.mpr he) k
        split
        · rename_i hm
          rw [Finset.insert_eq_of_mem hm]
          exact hold
        · rename_i hm
          have hsub := arrived_subset hin (h := p.netccl) hreg
          have hmem := Finset.mem_range.mpr hlt
          rw [hp.payload]
          exact ⟨satAdd_sum (by decide) (hfit k).1 hsub hmem hm hold.1,
            satAdd_sum (by decide) (hfit k).2 hsub hmem hm hold.2⟩
      · rw [if_pos rfl, if_neg hv] at hne
        exact absurd hne (by simp)
    · rw [if_neg ha] at hne ⊢
      rw [(ingress_frame tbl regs ha).2]
      exact h.words a v hne k

/-- The registers agree with what has arrived after any sequence of packets. -/
theorem Counts.passes {tbl : Tables} {pay : Contributions} {regs : Regs} (hclear : regs.Clear)
    (ps : List Packet) (hin : ∀ q ∈ ps, Input tbl pay q) :
    Counts pay ps (regs.passes tbl ps) := by
  induction ps using List.reverseRecOn with
  | nil => exact .nil hclear
  | append_singleton ps p ih =>
    have hps : ∀ q ∈ ps, Input tbl pay q := by
      intro q hq
      exact hin q (List.mem_append_left _ hq)
    rw [Regs.passes_concat]
    exact (ih hps).step hps (hin p (by simp))

/-! ## 3. The result -/

/-- **After each packet the slot it hit has counted each arrived rank exactly once.**  The
slot holds the packet's version; its bitmap is a nonempty part of the group's mask, and is
the set of ranks that arrived with this version since the slot last changed version; both
words of every pair are the sums of what these ranks contributed.  It holds at any address of 16
bits, so at the `registerLen` that there are. -/
theorem firstPass_counts_once (tbl : Tables) (pay : Contributions) (regs : Regs)
    (hclear : regs.Clear) (ps : List Packet) (p : Packet)
    (hin : ∀ q ∈ ps ++ [p], Input tbl pay q) :
    let after := regs.passes tbl (ps ++ [p])
    let a := p.netccl.aggAddr
    let v := p.netccl.version
    let slot := after.regBitmap a
    let ranks := arrived (ps ++ [p]) a v
    slot.version = v ∧ slot.bitmap ≠ 0#32 ∧
      (∃ mask, tbl.metadataTable p.netccl.groupId = some mask ∧ bits slot.bitmap ⊆ bits mask) ∧
      bits slot.bitmap = ranks ∧
      ∀ k, (after.aggregatorArray a k).agg0.toInt = ∑ i ∈ ranks, (pay a v i k).agg0.toInt ∧
        (after.aggregatorArray a k).agg1.toInt = ∑ i ∈ ranks, (pay a v i k).agg1.toInt := by
  intro after a v slot ranks
  have hp := hin p (by simp)
  obtain ⟨n, hreg, hlt, -⟩ := hp.rank
  have hcounts := Counts.passes hclear (ps ++ [p]) hin
  have hver : slot.version = v := by
    have := (ingress_first_slot tbl (regs.passes tbl ps) hp.first
      (Nat.lt_of_lt_of_le hlt hreg.1)).1
    rwa [← Regs.passes_concat] at this
  have hbits : bits slot.bitmap = ranks := by
    have := hcounts.ranks a v
    rwa [Regs.ranksAt, if_pos hver] at this
  have hmem : p.netccl.rank.toNat ∈ ranks := by
    simp [ranks, arrived_concat, a, v]
  refine ⟨hver, fun h0 => ?_, ⟨_, hreg.2, ?_⟩, hbits, hcounts.words a v ⟨_, hmem⟩⟩
  · rw [← bits_eq_empty, hbits] at h0
    exact absurd hmem (h0 ▸ Finset.notMem_empty _)
  · rw [hbits, groupMask, bits_mask hreg.1]
    exact arrived_subset hin (h := p.netccl) hreg

/-- A switch with one group, of two ranks. -/
def pairTables : Tables :=
  ⟨fun g => if g = 1 then some (groupMask 2) else none, fun _ => none⟩

/-- Rank 0 contributes 5 to every word, rank 1 contributes 7. -/
def pairContributions : Contributions :=
  fun _ _ i _ => if i = 0 then ⟨5, 5⟩ else ⟨7, 7⟩

/-- The packet of a rank, for slot 9 and PSN 25. -/
def pairPacket (rank : BitVec 8) : Packet :=
  ⟨⟨1, false⟩, ⟨1, 1, rank, 0, 9, 25⟩, pairContributions 9 0 rank.toNat⟩

theorem pairPacket_input {rank : BitVec 8} (hr : rank.toNat < 2) :
    Input pairTables pairContributions (pairPacket rank) := by
  have hsmall : ∀ t ∈ (Finset.range 2).powerset,
      0 ≤ ∑ i ∈ t, (if i = 0 then (5 : BitVec 32) else 7).toInt ∧
        ∑ i ∈ t, (if i = 0 then (5 : BitVec 32) else 7).toInt ≤ 12 := by decide
  have hsub : SubsetFits (Finset.range 2) fun i => if i = 0 then (5 : BitVec 32) else 7 := by
    intro t ht
    obtain ⟨hlo, hhi⟩ := hsmall t (Finset.mem_powerset.mpr ht)
    exact ⟨Int.le_trans (by simp) hlo, Int.lt_of_le_of_lt hhi (by simp)⟩
  refine ⟨rfl, ⟨2, ⟨by decide, rfl⟩, hr, fun k => ?_⟩, rfl⟩
  simp only [pairContributions, apply_ite AggPair.agg0, apply_ite AggPair.agg1]
  exact ⟨hsub, hsub⟩

/-- Rank 0 twice and then rank 1: word 31 holds 12. -/
theorem firstPass_counts_once_pair :
    ((Regs.passes pairTables ⟨fun _ => ⟨0, 0⟩, fun _ _ => ⟨0, 0⟩⟩
      [pairPacket 0, pairPacket 0, pairPacket 1]).aggregatorArray 9 31).agg1.toInt = 12 := by
  have h := firstPass_counts_once pairTables pairContributions
    ⟨fun _ => ⟨0, 0⟩, fun _ _ => ⟨0, 0⟩⟩ (fun _ => rfl) [pairPacket 0, pairPacket 0] (pairPacket 1)
    (by
      intro q hq
      obtain rfl | rfl : q = pairPacket 0 ∨ q = pairPacket 1 := by simpa using hq
      · exact pairPacket_input (by decide)
      · exact pairPacket_input (by decide))
  have hranks : arrived ([pairPacket 0, pairPacket 0] ++ [pairPacket 1]) 9
      (pairPacket 1).netccl.version = {0, 1} := by decide
  have haddr : (pairPacket 1).netccl.aggAddr = 9 := rfl
  refine (h.2.2.2.2 31).2.trans ?_
  rw [haddr, hranks]
  rfl

end NetCCL.Switch
