/-
# The verdict on a first pass

After a first pass the switch drops the packet, or recirculates it for a second pass; and a
recirculated packet is answered to the whole group, or to its sender alone.

The code decides this with two equalities on the old bitmap (`full`) and a ternary table
(`new_packet`).  `ingress_first_verdict` is what they come to in terms of the ranks the pass
found: the slot is `full` when the packet's rank completes it, and the answer goes to
everybody when it was not complete before.  From there on the argument is about the growing
set `arrived`: it is completed at most once before the slot changes version
(`arrived_mono`), so one packet is answered to everybody, and every later one to its sender.
-/
import NetCCL.Switch.Count
import NetCCL.Switch.Pipeline

namespace NetCCL.Switch

open Lib

/-! ## 1. What the tests on the bitmap come to -/

section

variable (tbl : Tables) (regs : Regs) (p : Packet)

/-- The first pass drops the packet. -/
def Dropped : Prop := (ingress tbl regs p).2.2 = .drop

/-- The first pass recirculates the packet, with this `enable_multicast`. -/
def Forwarded (enableMulticast : Bool) : Prop :=
  ∃ port, tbl.recirculateTable p.netccl.groupId = some port ∧
    (ingress tbl regs p).2.2 = .recirculate port ∧
    (ingress tbl regs p).2.1.internal.enableMulticast = enableMulticast

end

/-- `md.full`, by the ranks found. -/
theorem full_iff {n r : ℕ} (hn : n ≤ 32) (hr : r < n) (old : BitVec 32) :
    (old = 1#32 <<< r ^^^ groupMask n ∨ old = groupMask n) ↔
      insert r (bits old) = Finset.range n := by
  have hmask : bits (groupMask n) = Finset.range n := bits_mask hn
  have hmem : r ∈ bits (groupMask n) := by
    rw [hmask]
    exact Finset.mem_range.mpr hr
  rw [← bits_inj, ← bits_inj, bits_xor_of_mem (Nat.lt_of_lt_of_le hr hn) hmem, hmask]
  constructor
  · rintro (h | h)
    · rw [h]
      exact Finset.insert_erase (Finset.mem_range.mpr hr)
    · rw [h]
      exact Finset.insert_eq_of_mem (Finset.mem_range.mpr hr)
  · intro h
    rcases Decidable.em (r ∈ bits old) with hin | hout
    · right
      rwa [Finset.insert_eq_of_mem hin] at h
    · left
      rw [← h, Finset.erase_insert hout]

variable {tbl : Tables} (regs : Regs) {p : Packet} {n : ℕ}

/-- **The verdict on a first pass**, by the ranks found. -/
theorem ingress_first_verdict (hp : p.First) (hn : Registered tbl p.netccl.groupId n)
    (hr : p.netccl.rank.toNat < n) :
    let found := regs.ranksAt p.netccl.aggAddr p.netccl.version
    (ingress tbl regs p).2.2 =
        (if insert p.netccl.rank.toNat found = Finset.range n then
          (tbl.recirculateTable p.netccl.groupId).elim .drop .recirculate
        else .drop) ∧
      (insert p.netccl.rank.toNat found = Finset.range n →
        (ingress tbl regs p).2.1.internal =
          ⟨1, decide (p.netccl.rank.toNat ∉ found)⟩) := by
  have hpass : p.internal.passCnt = 1 := hp
  have hr32 := Nat.lt_of_lt_of_le hr hn.1
  have hold := bits_regBitmapUpdate_old regs p.netccl.aggAddr p.netccl.version
    (bitmapTable p.netccl.rank)
  have hfull := full_iff hn.1 hr (regBitmapUpdate p.netccl.version
    (bitmapTable p.netccl.rank) (regs.regBitmap p.netccl.aggAddr)).2
  rw [hold, ← bitmapTable_of_lt hr32] at hfull
  have hnew := checkNewPacket_eq hr32 (regBitmapUpdate p.netccl.version
    (bitmapTable p.netccl.rank) (regs.regBitmap p.netccl.aggAddr)).2
  rw [hold] at hnew
  have htwo : ¬ ((1 : BitVec 8) = 2 ∧ p.internal.enableMulticast = true) := by simp
  constructor
  · simp only [ingress, forward, hpass, hn.2, Option.getD_some, if_pos, hfull, if_neg htwo]
  · intro h
    simp only [ingress, forward, hpass, hn.2, Option.getD_some, if_pos, hfull, true_and, h, hnew]

/-- The three outcomes, when the group has a recirculation port. -/
theorem verdict_cases (hp : p.First) (hn : Registered tbl p.netccl.groupId n)
    (hr : p.netccl.rank.toNat < n) {port : ℕ}
    (hport : tbl.recirculateTable p.netccl.groupId = some port) :
    let found := regs.ranksAt p.netccl.aggAddr p.netccl.version
    let complete := insert p.netccl.rank.toNat found = Finset.range n
    (Dropped tbl regs p ↔ ¬ complete) ∧
      (Forwarded tbl regs p true ↔ found ≠ Finset.range n ∧ complete) ∧
      (Forwarded tbl regs p false ↔ found = Finset.range n) := by
  intro found complete
  obtain ⟨hverdict, hinternal⟩ := ingress_first_verdict regs hp hn hr
  rw [hport, Option.elim_some] at hverdict
  have hin : p.netccl.rank.toNat ∈ Finset.range n := Finset.mem_range.mpr hr
  -- a complete slot misses the packet's rank or no rank
  have hnew : complete → (p.netccl.rank.toNat ∉ found ↔ found ≠ Finset.range n) := by
    intro hc
    constructor
    · intro hout h
      exact hout (h ▸ hin)
    · intro hne hmem
      exact hne ((Finset.insert_eq_of_mem hmem).symm.trans hc)
  have hold : found = Finset.range n → complete := by
    intro h
    have hcomplete : complete ↔ insert p.netccl.rank.toNat found = Finset.range n := Iff.rfl
    rw [hcomplete, h]
    exact Finset.insert_eq_of_mem hin
  refine ⟨?_, ?_, ?_⟩
  · unfold Dropped
    rw [hverdict]
    split
    · rename_i hc
      simp [complete, found, hc]
    · rename_i hc
      simp [complete, found, hc]
  · constructor
    · rintro ⟨port', -, hv, hmc⟩
      have hc : complete := by
        by_contra hc
        rw [hverdict, if_neg hc] at hv
        exact Verdict.noConfusion hv
      rw [hinternal hc] at hmc
      exact ⟨(hnew hc).mp (of_decide_eq_true hmc), hc⟩
    · rintro ⟨hne, hc⟩
      refine ⟨port, hport, by rw [hverdict, if_pos hc], ?_⟩
      rw [hinternal hc]
      exact decide_eq_true ((hnew hc).mpr hne)
  · constructor
    · rintro ⟨port', -, hv, hmc⟩
      have hc : complete := by
        by_contra hc
        rw [hverdict, if_neg hc] at hv
        exact Verdict.noConfusion hv
      rw [hinternal hc] at hmc
      by_contra hne
      exact absurd ((hnew hc).mpr hne) (of_decide_eq_false hmc)
    · intro h
      refine ⟨port, hport, by rw [hverdict, if_pos (hold h)], ?_⟩
      rw [hinternal (hold h)]
      exact decide_eq_false fun hout => (hnew (hold h)).mp hout h

/-! ## 2. A slot is completed once -/

/-- Between `q` and the end of `ps₂` the slot of `q` keeps its version. -/
def SameStretch (q : Packet) (ps₂ : List Packet) : Prop :=
  ∀ r ∈ ps₂, r.netccl.aggAddr = q.netccl.aggAddr → r.netccl.version = q.netccl.version

/-- **Within a stretch the set of ranks only grows.** -/
theorem arrived_mono (ps₁ : List Packet) {q : Packet} {ps₂ : List Packet}
    (h : SameStretch q ps₂) :
    arrived (ps₁ ++ [q]) q.netccl.aggAddr q.netccl.version ⊆
      arrived (ps₁ ++ q :: ps₂) q.netccl.aggAddr q.netccl.version := by
  induction ps₂ using List.reverseRecOn with
  | nil => exact Finset.Subset.refl _
  | append_singleton ps₂ r ih =>
    have hsub := ih fun r' hr' => h r' (List.mem_append_left _ hr')
    have hsplit : ps₁ ++ q :: (ps₂ ++ [r]) = (ps₁ ++ q :: ps₂) ++ [r] := by simp
    rw [hsplit, arrived_concat (ps₁ ++ q :: ps₂) r]
    split
    · rename_i ha
      rw [if_pos (h r (by simp) ha.symm)]
      exact hsub.trans (Finset.subset_insert _ _)
    · exact hsub

/-! ## 3. The second pass of an answer to one rank -/

/-- **A second pass** changes no register: it reads the odd words and sends the packet on. -/
theorem ingress_secondPass (tbl : Tables) (regs : Regs) {p : Packet}
    (hpass : p.internal.passCnt = 2) : ingress tbl regs p =
      (regs, { p with payload := fun k =>
        { p.payload k with agg1 := (regs.aggregatorArray p.netccl.aggAddr k).agg1 } },
        if p.internal.enableMulticast then .multicast p.netccl.groupId else .l2Forward) := by
  have hfirst : ¬ ((2 : BitVec 8) = 1) := by decide
  simp only [ingress, forward, aggAction, AggAction.run, hpass, hfirst, if_true, true_and,
    false_and, if_false, Function.update_eq_self]

/-- The second pass of a packet that is not multicast changes no header. -/
theorem ingress_second (tbl : Tables) (regs : Regs) {p : Packet} (hpass : p.internal.passCnt = 2)
    (hmc : p.internal.enableMulticast = false) :
    (ingress tbl regs p).2.2 = .l2Forward ∧ (ingress tbl regs p).2.1.internal = p.internal := by
  rw [ingress_secondPass tbl regs hpass, hmc]
  exact ⟨rfl, rfl⟩

/-- `EgressChecksum` and `dcqcn` leave the length alone. -/
theorem length_dcqcn (wred : Bool) (ip : Ip) :
    (dcqcn wred ip).updateChecksum.length = ip.length := by
  unfold dcqcn
  split
  · rfl
  · split <;> rfl

/-- **The second pass returns one copy to the sender**, with the NetCCL header it sent:
whatever happened to the registers in between, and whatever the ECN bits were. -/
theorem secondPass_unicast (m : Match) {p : Packet} (hpass : p.internal.passCnt = 1)
    (hmc : p.internal.enableMulticast = false) {eth : Eth} {sender : ℕ}
    (hsender : m.l2ForwardTable eth.smac = .forward sender) (ip : Ip) (rid : BitVec 16)
    (wred : Bool) (later : Regs) (rest : List Byte) :
    ∃ bs, egressPass m rid wred ((p.headers eth ip.adjustLength).emit ++ rest) = some bs ∧
      ∃ regs' p' ip', ingressPass m later true bs =
          some (regs', (Packet.headers p' eth.setDmac ip').emit ++ rest, [⟨sender, 0⟩]) ∧
        ∀ rid', (egressRespond p' rid').netccl = p.netccl := by
  have hlen := length_dcqcn wred ip.adjustLength
  have htwo : (egressRecirculate p).internal.passCnt = 2 := by
    rw [egressRecirculate, hpass]
    rfl
  obtain ⟨hverdict, hinternal⟩ := ingress_second m.toTables later htwo hmc
  have hback := ingressPass_recirculate m later rest (egressRecirculate p) eth (hlen.trans rfl)
  rw [hverdict, Match.verdict, Match.l2Forward, hsender, copies_forward] at hback
  refine ⟨_, egressPass_recirculate m rest hpass eth _ rid wred, _, _, _, hback, ?_⟩
  intro rid'
  have hcopy : (ingress m.toTables later (egressRecirculate p)).2.1.internal.enableMulticast =
      false := by
    rw [hinternal]
    exact hmc
  unfold egressRespond
  rw [hcopy]
  rfl

/-! ## 4. The result -/

/-- **Dropped, one multicast, then unicasts.**  In any sequence of first-pass packets of
registered groups, a packet is dropped exactly when some rank of its group is still missing
from the slot after it; the packet that completes the ranks, and no other, goes to everybody;
a packet that finds them complete goes to its sender alone, and so does every packet that
comes after the multicast before the slot changes version.  A packet that is not dropped
carries the sums over the whole group in its even words.  As in `firstPass_counts_once` the
address is any of 16 bits, the `registerLen` that there are among them. -/
theorem firstPass_verdict (m : Match) (pay : Contributions) (regs : Regs) (hclear : regs.Clear)
    (ps : List Packet) (p : Packet)
    (hin : ∀ q ∈ ps ++ [p], Input m.toTables pay q ∧
      ∃ port, m.recirculateTable q.netccl.groupId = some port)
    (n : ℕ) (hn : Registered m.toTables p.netccl.groupId n) :
    let before := regs.passes m.toTables ps
    let after := regs.passes m.toTables (ps ++ [p])
    let a := p.netccl.aggAddr
    let v := p.netccl.version
    let out := (ingress m.toTables before p).2.1
    (Dropped m.toTables before p ↔ after.ranks a ≠ Finset.range n) ∧
      (Forwarded m.toTables before p true ↔
        before.ranksAt a v ≠ Finset.range n ∧ after.ranks a = Finset.range n) ∧
      (Forwarded m.toTables before p false ↔ before.ranksAt a v = Finset.range n) ∧
      (∀ ps₁ q ps₂, ps = ps₁ ++ q :: ps₂ → q.netccl.aggAddr = a → q.netccl.version = v →
        SameStretch q ps₂ → Forwarded m.toTables (regs.passes m.toTables ps₁) q true →
        Forwarded m.toTables before p false) ∧
      (Forwarded m.toTables before p false → ∀ eth ip sender,
        m.l2ForwardTable eth.smac = .forward sender → ∀ rid wred later rest,
        ∃ bs, egressPass m rid wred ((out.headers (Eth.setDmac eth) (Ip.adjustLength ip)).emit
            ++ rest) = some bs ∧
          ∃ regs' p' ip', ingressPass m later true bs =
              some (regs', (Packet.headers p' eth.setDmac ip').emit ++ rest, [⟨sender, 0⟩]) ∧
            ∀ rid', (egressRespond p' rid').netccl = p.netccl) ∧
      (¬ Dropped m.toTables before p → ∀ k,
        (out.payload k).agg0.toInt = ∑ i ∈ Finset.range n, (pay a v i k).agg0.toInt) := by
  intro before after a v out
  have hps : ∀ q ∈ ps, Input m.toTables pay q := by
    intro q hq
    exact (hin q (List.mem_append_left _ hq)).1
  obtain ⟨hp, port, hport⟩ := hin p (by simp)
  obtain ⟨n', hn', hr, -⟩ := hp.rank
  rw [hn'.unique hn] at hr
  have hr32 := Nat.lt_of_lt_of_le hr hn.1
  have hbefore := Counts.passes hclear ps hps
  have hlast : after = _ := Regs.passes_concat m.toTables regs ps p
  have hafter : after.ranks a = insert p.netccl.rank.toNat (before.ranksAt a v) := by
    rw [hlast]
    exact (ingress_first_slot m.toTables before hp.first hr32).2
  obtain ⟨hdropped, hmulticast, hunicast⟩ := verdict_cases before hp.first hn hr hport
  rw [← hafter] at hdropped hmulticast
  refine ⟨hdropped, hmulticast, hunicast, ?_, ?_, ?_⟩
  · -- the ranks are complete from the multicast on
    rintro ps₁ q ps₂ rfl hqa hqv hsame hq
    obtain ⟨hqin, hqport⟩ := hin q (by simp)
    obtain ⟨port', hport'⟩ := hqport
    obtain ⟨n', hn', hqr, -⟩ := hqin.rank
    have hgroup := (version_eq_iff.mp hqv).1
    obtain rfl : n = n' := (hn'.unique (hgroup ▸ hn)).symm
    have hps₁ : ∀ r ∈ ps₁, Input m.toTables pay r := by
      intro r hr
      exact hps r (List.mem_append_left _ hr)
    have hcomplete := ((verdict_cases _ hqin.first hn' hqr hport').2.1.mp hq).2
    rw [(Counts.passes hclear ps₁ hps₁).ranks] at hcomplete
    have hgrown := arrived_mono ps₁ hsame
    rw [arrived_concat, if_pos rfl, if_pos rfl, hcomplete, hqa, hqv] at hgrown
    have hall : arrived (ps₁ ++ q :: ps₂) a v = Finset.range n :=
      Finset.Subset.antisymm (arrived_subset hps (h := p.netccl) hn) hgrown
    exact hunicast.mpr ((hbefore.ranks a v).trans hall)
  · intro hforward eth ip sender hsender rid wred later rest
    have hkept : insert p.netccl.rank.toNat (before.ranksAt a v) = Finset.range n := by
      rw [hunicast.mp hforward]
      exact Finset.insert_eq_of_mem (Finset.mem_range.mpr hr)
    have hinternal := (ingress_first_verdict before hp.first hn hr).2 hkept
    obtain ⟨-, -, -, hmc⟩ := hforward
    have hsender' : m.l2ForwardTable eth.setDmac.smac = .forward sender := hsender
    exact secondPass_unicast m (congrArg Internal.passCnt hinternal) hmc hsender' ip rid wred
      later rest
  · intro hkept k
    have hall : after.ranks a = Finset.range n := by
      by_contra hne
      exact hkept (hdropped.mpr hne)
    have hcounts := Counts.passes hclear (ps ++ [p]) fun q hq => (hin q hq).1
    have hranks : arrived (ps ++ [p]) a v = Finset.range n := by
      rw [arrived_concat, if_pos rfl, if_pos rfl, ← hbefore.ranks, ← hall, hafter]
    have hword : (out.payload k).agg0 = (after.aggregatorArray a k).agg0 := by
      rw [hlast]
      have hpair := (ingress_first_agg m.toTables before hp.first hr32 k).2
      exact (congrArg AggPair.agg0 hpair).trans rfl
    have hne : (arrived (ps ++ [p]) a v).Nonempty := by
      rw [hranks]
      exact ⟨_, Finset.mem_range.mpr hr⟩
    rw [hword, (hcounts.words a v hne k).1, hranks]

/-- The switch of `pairTables`, with port 64 for recirculation and the servers on port 1. -/
def pairMatch : Match where
  metadataTable := pairTables.metadataTable
  recirculateTable _ := some 64
  l2ForwardTable _ := .forward 1
  restoreTable _ _ := none
  restoreSmacTable _ := none
  restoreDmacTable _ := none
  mgid _ := []

/-- Rank 0, rank 1, and rank 0 again: the third packet is answered to its sender. -/
theorem firstPass_verdict_pair :
    Forwarded pairMatch.toTables (Regs.passes pairMatch.toTables
      ⟨fun _ => ⟨0, 0⟩, fun _ _ => ⟨0, 0⟩⟩ [pairPacket 0, pairPacket 1]) (pairPacket 0) false := by
  have hinput : ∀ rank : BitVec 8, rank.toNat < 2 →
      Input pairMatch.toTables pairContributions (pairPacket rank) := by
    intro rank hr
    obtain ⟨hfirst, hrank, hpayload⟩ := pairPacket_input hr
    exact ⟨hfirst, hrank, hpayload⟩
  have h := firstPass_verdict pairMatch pairContributions ⟨fun _ => ⟨0, 0⟩, fun _ _ => ⟨0, 0⟩⟩
    (fun _ => rfl) [pairPacket 0, pairPacket 1] (pairPacket 0)
    (by
      intro q hq
      refine ⟨?_, 64, rfl⟩
      obtain rfl | rfl : q = pairPacket 0 ∨ q = pairPacket 1 := by
        simpa [or_comm, or_assoc] using hq
      · exact hinput 0 (by decide)
      · exact hinput 1 (by decide))
    2 ⟨by decide, rfl⟩
  exact h.2.2.2.1 [pairPacket 0] (pairPacket 1) [] rfl rfl rfl (fun _ h => absurd h (by simp))
    ⟨64, rfl, by decide +kernel, by decide +kernel⟩

end NetCCL.Switch
