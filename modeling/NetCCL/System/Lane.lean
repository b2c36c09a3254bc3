/-
# Every lane is a sliding window of its own

`Lane D s k f` relates lane `k` of a state of the cluster to a state of the sliding-window
protocol, in the numbers of the lane's packets: it is `Joint` with the worker of a rank read in
the lane's group only (`Run.builtIn`), and with those frames, packets and responses that are of
the group.

`Lane.turn` is a step of one of the lane's workers, and it does not matter of which group; the
rest of the module is what the switch does.  A first pass for another lane leaves this lane's
slots alone (`Held.aside`), and a second pass changes none.
-/
import NetCCL.System.Cluster

namespace NetCCL

open Lib Switch Backend

variable {W K : Type} [DecidableEq W] {D : Lanes W K} {tbl : Tables}
  {copies : W → BitVec 8 → List (ℕ × W)} {s s' : Cluster W} {k : K} {f : Traffic (Fin (D.n k))}

/-! ## 1. The relation -/

/-- Slots may change that the plan does not use. -/
theorem Held.aside {n : ℕ} {G : Plan} {pay : Pay n} {regs regs' : Regs} {f : Traffic (Fin n)}
    (h : Held G pay regs f) (hregs : ∀ q, regs'.regBitmap (G.addr q) = regs.regBitmap (G.addr q) ∧
      regs'.aggregatorArray (G.addr q) = regs.aggregatorArray (G.addr q)) :
    Held G pay regs' f := by
  refine ⟨fun q hq => by rw [(hregs q).1]; exact h.clear q hq, fun P hP => ?_⟩
  have hshows := h.shows P hP
  refine ⟨by rw [(hregs P).1]; exact hshows.version, ?_, by rw [(hregs P).2]; exact hshows.words⟩
  rw [Regs.ranks, (hregs P).1]
  exact hshows.ranks

/-- The frames of a group on a wire. -/
def onWire (g : BitVec 8) (l : List (ℕ × Frame)) : List (ℕ × Frame) :=
  l.filter fun x => decide (x.2.inc.groupId = g)

theorem mem_onWire {g : BitVec 8} {l : List (ℕ × Frame)} {x : ℕ × Frame} :
    x ∈ onWire g l ↔ x ∈ l ∧ x.2.inc.groupId = g := by
  simp [onWire]

/-- **A lane and the protocol.** -/
structure Lane (D : Lanes W K) (s : Cluster W) (k : K) (f : Traffic (Fin (D.n k))) : Prop where
  share : ∀ i : Fin (D.n k), Share (D.plan k) i (s.host (D.worker k i))
  lo : ∀ i, f.lo i = (s.host (D.worker k i)).completedIn (D.gid k)
  hi : ∀ i, f.hi i = ((s.host (D.worker k i)).builtIn (D.gid k)).length
  acc : ∀ i q, q ∈ f.acc i ↔ (s.host (D.worker k i)).AckedIn (D.gid k) q
  chan : ∀ i, f.chan i = (onWire (D.gid k) (s.wire (D.worker k i))).map (·.1)
  wire : ∀ i, ∀ x ∈ onWire (D.gid k) (s.wire (D.worker k i)), ∃ p,
    ((s.host (D.worker k i)).builtIn (D.gid k))[x.1]? = some p ∧ x.2 = p.pkt
  inv : f.Inv ((D.plan k).aggLen / 2) (D.plan k).aggLen
  held : Held (D.plan k) (D.contribution s k) s.regs f
  recirc : ∀ x ∈ s.recirc, ∀ i, D.worker k i = x.2.1 → x.2.2.netccl.groupId = D.gid k →
    Waits (D.plan k) (D.contribution s k) f x.1 i x.2.2
  back : ∀ x ∈ s.back, ∀ i, D.worker k i = x.2.1 → x.2.2.netccl.groupId = D.gid k →
    Responds (D.plan k) (D.contribution s k) f x.1 i x.2.2

/-- A worker that keeps to its lanes: so far, but for sub-ops that are answered. -/
structure Keeps (D : Lanes W K) (s : Cluster W) (w : W) (ctx : BitVec 8 → BitVec 32) (aggLen : ℕ) :
    Prop where
  serving : Serving ctx aggLen (s.host w)
  lanes : ∀ k i, D.worker k i = w → ctx (D.gid k) = (D.plan k).psn ∧ (D.plan k).aggLen = aggLen
  heap : ∀ ptr < (s.host w).worker.heap.length, ptr ∉ pushed (s.host w).log →
    D.Has w ((s.host w).worker.groupOf ptr)

/-- **The cluster and the protocol**, lane by lane.  What is on its way to the switch is of some
lane; what waits for its second pass may also be left over from a group that is no more. -/
structure Cluster.Joint (D : Lanes W K) (s : Cluster W) : Prop where
  workers : ∀ w, ∃ ctx aggLen, Keeps D s w ctx aggLen
  lanes : ∀ k, ∃ f, Lane D s k f
  wire : ∀ w, ∀ x ∈ s.wire w, D.Has w x.2.inc.groupId
  recirc : ∀ x ∈ s.recirc, D.Has x.2.1 x.2.2.netccl.groupId ∨
    (x.2.2.internal.passCnt = 2 ∧ ∀ k, D.gid k ≠ x.2.2.netccl.groupId)

/-! ## 2. At the beginning -/

omit [DecidableEq W] in
/-- A lane that nobody has used: its members have no sub-ops of the group, nothing of the group
is on its way, and its slots are empty. -/
theorem Lane.unused (hpos : 0 < (D.plan k).aggLen)
    (hhost : ∀ i, ∃ ctx aggLen, Serving ctx aggLen (s.host (D.worker k i)))
    (hheap : ∀ i, ∀ ptr < (s.host (D.worker k i)).worker.heap.length,
      (s.host (D.worker k i)).worker.groupOf ptr ≠ D.gid k)
    (hwire : ∀ i, ∀ x ∈ s.wire (D.worker k i), x.2.inc.groupId ≠ D.gid k)
    (hslots : ∀ j < (D.plan k).aggLen,
      s.regs.regBitmap (BitVec.ofNat 16 ((D.plan k).aggAddr + j)) = ⟨0, 0⟩)
    (hrecirc : ∀ x ∈ s.recirc, x.2.2.netccl.groupId ≠ D.gid k)
    (hback : ∀ x ∈ s.back, x.2.2.netccl.groupId ≠ D.gid k) : Lane D s k Traffic.start := by
  have hbuilt : ∀ i, ∀ p ∈ built (s.host (D.worker k i)).log, p.pkt.inc.groupId ≠ D.gid k := by
    intro i p hp
    obtain ⟨ctx, aggLen, hserving⟩ := hhost i
    obtain ⟨_, _, _, _, hinv⟩ := hserving.inv
    obtain ⟨-, hlt, hinc⟩ := hinv.cursor.header p hp
    rw [hinc]
    exact hheap i p.subOp hlt
  have hnone : ∀ i, (s.host (D.worker k i)).builtIn (D.gid k) = [] := fun i =>
    List.filter_eq_nil_iff.mpr fun p hp => by simpa using hbuilt i p hp
  have hack : ∀ i q, ¬ (s.host (D.worker k i)).AckedIn (D.gid k) q := by
    rintro i q ⟨j, p, hp, hg, -⟩
    exact hbuilt i p (List.mem_of_getElem? hp) hg
  have hchan : ∀ i, onWire (D.gid k) (s.wire (D.worker k i)) = [] := fun i =>
    List.filter_eq_nil_iff.mpr fun x hx => by simpa using hwire i x hx
  refine ⟨fun i ptr hptr hg => absurd hg (hheap i ptr hptr), fun i => ?_, fun i => ?_,
    fun i q => ?_, fun i => by rw [hchan]; rfl, fun i x hx => ?_, .start,
    ⟨fun q _ => ?_, fun P hP => ?_⟩, fun x hx i _ hg => absurd hg (hrecirc x hx),
    fun x hx i _ hg => absurd hg (hback x hx)⟩
  · refine (Nat.le_zero.mp ?_).symm
    rw [Run.completedIn, within_eq_length, List.filter_eq_nil_iff.mpr]
    · exact Nat.le_refl 0
    · intro p hp
      simpa using hbuilt i p (List.mem_of_mem_take hp)
  · rw [hnone]
    rfl
  · exact ⟨fun hq => absurd hq (Set.notMem_empty q), fun hq => absurd hq (hack i q)⟩
  · rw [hchan] at hx
    exact absurd hx List.not_mem_nil
  · exact congrArg BitmapPair.bitmap (hslots _ (Nat.mod_lt _ hpos))
  · cases hP

omit [DecidableEq W] in
theorem Lane.init (hD : D.Created tbl copies) (h : D.Init s) (k : K) :
    Lane D s k Traffic.start := by
  refine Lane.unused (Nat.pos_of_dvd_of_pos (hD.created k).dvd (by decide)) (fun i => ?_)
    (fun i ptr hptr => ?_) (fun i x hx => ?_) (h.slots k) (fun x hx => ?_) fun x hx => ?_
  · obtain ⟨ctx, -, hctx⟩ := h.host (D.worker k i)
    exact ⟨ctx, _, .init (hD.created k).limit hctx⟩
  · obtain ⟨ctx, -, ⟨mem, pkt, hw⟩, -⟩ := h.host (D.worker k i)
    rw [hw] at hptr
    exact absurd hptr (Nat.not_lt_zero _)
  · rw [h.wire] at hx
    exact absurd hx List.not_mem_nil
  · rw [h.recirc] at hx
    exact absurd hx List.not_mem_nil
  · rw [h.back] at hx
    exact absurd hx List.not_mem_nil

omit [DecidableEq W] in
theorem Cluster.Joint.init (hD : D.Created tbl copies) (h : D.Init s) : Cluster.Joint D s := by
  refine ⟨fun w => ?_, fun k => ⟨_, .init hD h k⟩, fun w x hx => ?_, fun x hx => ?_⟩
  · obtain ⟨ctx, hctx, hinit⟩ := h.host w
    have hheap : (s.host w).worker.heap = [] := by
      obtain ⟨⟨mem, pkt, hw⟩, -⟩ := hinit
      rw [hw]
      rfl
    have hnone : ∀ ptr < (s.host w).worker.heap.length, ptr ∉ pushed (s.host w).log →
        D.Has w ((s.host w).worker.groupOf ptr) := by
      intro ptr hptr
      rw [hheap] at hptr
      exact absurd hptr (Nat.not_lt_zero _)
    by_cases hmember : ∃ k i, D.worker k i = w
    · obtain ⟨k, i, rfl⟩ := hmember
      refine ⟨ctx, (D.plan k).aggLen, .init (hD.created k).limit hinit, fun k' i' hw => ?_, hnone⟩
      exact ⟨hctx k' i' hw, hD.lengths k' k i' i hw⟩
    · exact ⟨ctx, 2 * ccCwndMin, .init (by decide) hinit,
        fun k i hw => absurd ⟨k, i, hw⟩ hmember, hnone⟩
  · rw [h.wire] at hx
    exact absurd hx List.not_mem_nil
  · rw [h.recirc] at hx
    exact absurd hx List.not_mem_nil

/-! ## 3. What leaves a lane alone -/

/-- Its workers, its frames and its slots are as before, and what is new on its way is of other
lanes. -/
structure Lane.Untouched (D : Lanes W K) (s s' : Cluster W) (k : K) : Prop where
  host : ∀ i, s'.host (D.worker k i) = s.host (D.worker k i)
  wire : ∀ i, onWire (D.gid k) (s'.wire (D.worker k i)) =
    onWire (D.gid k) (s.wire (D.worker k i))
  regs : ∀ q, s'.regs.regBitmap ((D.plan k).addr q) = s.regs.regBitmap ((D.plan k).addr q) ∧
    s'.regs.aggregatorArray ((D.plan k).addr q) = s.regs.aggregatorArray ((D.plan k).addr q)
  recirc : ∀ x ∈ s'.recirc, x ∈ s.recirc ∨
    ∀ i, D.worker k i = x.2.1 → x.2.2.netccl.groupId ≠ D.gid k
  back : ∀ x ∈ s'.back, x ∈ s.back ∨
    ∀ i, D.worker k i = x.2.1 → x.2.2.netccl.groupId ≠ D.gid k

omit [DecidableEq W] in
theorem Lane.frame (h : Lane D s k f) (hs : Lane.Untouched D s s' k) : Lane D s' k f := by
  have hpay : D.contribution s' k = D.contribution s k := by
    funext i q
    unfold Lanes.contribution
    rw [hs.host i]
  refine ⟨fun i => ?_, fun i => ?_, fun i => ?_, fun i => ?_, fun i => ?_, fun i => ?_, h.inv, ?_,
    fun x hx i hi hg => ?_, fun x hx i hi hg => ?_⟩
  · rw [hs.host i]
    exact h.share i
  · rw [hs.host i]
    exact h.lo i
  · rw [hs.host i]
    exact h.hi i
  · rw [hs.host i]
    exact h.acc i
  · rw [hs.wire i]
    exact h.chan i
  · rw [hs.wire i, hs.host i]
    exact h.wire i
  · rw [hpay]
    exact h.held.aside hs.regs
  · rw [hpay]
    rcases hs.recirc x hx with hx | hne
    · exact h.recirc x hx i hi hg
    · exact absurd hg (hne i hi)
  · rw [hpay]
    rcases hs.back x hx with hx | hne
    · exact h.back x hx i hi hg
    · exact absurd hg (hne i hi)

/-! ## 4. A worker's step -/

omit [DecidableEq W] in
/-- What has arrived was built. -/
theorem Lane.lt_built (h : Lane D s k f) {i : Fin (D.n k)} {q : ℕ} (hq : q ∈ f.arr i) :
    q < ((s.host (D.worker k i)).builtIn (D.gid k)).length := by
  rw [← h.hi]
  exact h.inv.come i q hq

/-- The cluster after a worker's step. -/
def Cluster.stepped (s : Cluster W) (w : W) (r : Run) (out : List (ℕ × Frame)) : Cluster W :=
  { s with
    host := Function.update s.host w r
    wire := Function.update s.wire w (s.wire w ++ out) }

section Stepped

variable {w : W} {r : Run} {out : List (ℕ × Frame)}

@[simp] theorem Cluster.stepped_self : (s.stepped w r out).host w = r := Function.update_self _ _ _

theorem Cluster.stepped_ne {v : W} (hne : v ≠ w) : (s.stepped w r out).host v = s.host v :=
  Function.update_of_ne hne _ _

/-- What a run builds is added at the end. -/
theorem Lane.agree (h : Lane D s k f)
    (hbuilt : (s.host w).builtIn (D.gid k) <+: r.builtIn (D.gid k)) :
    Agree f (D.contribution s k) (D.contribution (s.stepped w r out) k) := by
  intro j q hq
  unfold Lanes.contribution
  rcases eq_or_ne (D.worker k j) w with rfl | hne
  · obtain ⟨rest, hrest⟩ := hbuilt
    rw [Cluster.stepped_self, ← hrest, List.getElem?_append_left (h.lt_built hq)]
  · rw [Cluster.stepped_ne hne]

/-- **A step of a worker of the lane** is a turn of its sender, whichever group it is for. -/
theorem Lane.turn (hD : D.Created tbl copies) (h : Lane D s k f) {i : Fin (D.n k)} {l : Label}
    {events : List Event} (hshare : Share (D.plan k) i r)
    (hturn : TurnIn (D.gid k) (D.plan k).aggLen (s.host (D.worker k i)) r l events)
    (hresp : ∀ fr p q, l = .receive fr → (s.host (D.worker k i)).completedIn (D.gid k) ≤ q →
      Answers ((s.host (D.worker k i)).builtIn (D.gid k)) (p, fr) q → ∀ j, q ∈ f.arr j) :
    ∃ f', Lane D (s.stepped (D.worker k i) r (Cluster.sends r events)) k f' ∧ f'.arr = f.arr := by
  have hne : ∀ j, j ≠ i → D.worker k j ≠ D.worker k i := fun j hj he => hj (hD.members k he)
  have hprefix : (s.host (D.worker k i)).builtIn (D.gid k) <+: r.builtIn (D.gid k) := by
    rcases hturn.built with hb | ⟨p, hb, -⟩
    · rw [hb]
    · rw [hb]
      exact List.prefix_append _ _
  have hagree : Agree f (D.contribution s k) (D.contribution
      (s.stepped (D.worker k i) r (Cluster.sends r events)) k) := h.agree hprefix
  generalize hout : (onWire (D.gid k) (Cluster.sends r events)).map (·.1) = out at *
  -- the frames the step sends for the lane
  have hsent : ∀ x ∈ onWire (D.gid k) (Cluster.sends r events),
      r.completedIn (D.gid k) ≤ x.1 ∧ ∃ p, (r.builtIn (D.gid k))[x.1]? = some p ∧ x.2 = p.pkt := by
    intro x hx
    obtain ⟨hx, hg⟩ := mem_onWire.mp hx
    obtain ⟨⟨pos, fr⟩, hfr, rfl⟩ := List.mem_map.mp hx
    dsimp only at hg ⊢
    rw [hg]
    obtain ⟨p, hle, hp, hpkt⟩ := hturn.sent pos fr hfr hg
    exact ⟨hle, p, hp, hpkt⟩
  have hrange : ∀ q ∈ out, r.completedIn (D.gid k) ≤ q ∧ q < (r.builtIn (D.gid k)).length := by
    intro q hq
    rw [← hout] at hq
    obtain ⟨x, hx, rfl⟩ := List.mem_map.mp hq
    obtain ⟨hle, p, hp, -⟩ := hsent x hx
    exact ⟨hle, (List.getElem?_eq_some_iff.mp hp).1⟩
  have hsteps : f.Steps ((D.plan k).aggLen / 2) (D.plan k).aggLen
      (f.host i (r.completedIn (D.gid k)) (r.builtIn (D.gid k)).length
        {q | r.AckedIn (D.gid k) q} (f.chan i ++ out)) := by
    refine Traffic.steps_host ?_ ?_ ?_ ?_ hrange
    · rw [h.hi, h.lo]
      rcases hturn.built with hb | ⟨p, hb, hlt⟩
      · exact Or.inl (by rw [hb])
      · exact Or.inr ⟨by rw [hb, List.length_append, List.length_singleton], hlt⟩
    · cases hturn.accepts with
      | nothing _ hack =>
        refine Or.inl (Set.ext fun q => ?_)
        rw [h.acc]
        exact hack q
      | @response fr p _ q _ hq hans hack =>
        refine Or.inr ⟨q, hresp fr p q rfl hq hans, Set.ext fun x => ?_⟩
        rw [Set.mem_insert_iff, h.acc]
        exact hack x
    · rw [h.lo]
      exact hturn.le
    · intro q _ hq
      exact hturn.shifted q hq
  have hlo : ∀ j, f.lo j ≤ Function.update f.lo i (r.completedIn (D.gid k)) j := by
    intro j
    rcases eq_or_ne j i with rfl | hj
    · rw [Function.update_self, h.lo]
      exact hturn.le
    · rw [Function.update_of_ne hj]
  have hwire : onWire (D.gid k)
      ((s.stepped (D.worker k i) r (Cluster.sends r events)).wire (D.worker k i)) =
        onWire (D.gid k) (s.wire (D.worker k i)) ++ onWire (D.gid k) (Cluster.sends r events) := by
    unfold Cluster.stepped onWire
    dsimp only
    rw [Function.update_self, List.filter_append]
  have hwire_ne : ∀ j, j ≠ i →
      (s.stepped (D.worker k i) r (Cluster.sends r events)).wire (D.worker k j) =
        s.wire (D.worker k j) := fun j hj => Function.update_of_ne (hne j hj) _ _
  refine ⟨_, ⟨fun j => ?_, fun j => ?_, fun j => ?_, fun j q => ?_, fun j => ?_, fun j x hx => ?_,
    h.inv.steps (Nat.mul_div_le _ 2) hsteps, h.held.congr hagree rfl rfl,
    fun x hx j hj hg => (h.recirc x hx j hj hg).congr hagree fun _ => Set.Subset.refl _,
    fun x hx j hj hg => (h.back x hx j hj hg).congr hagree (fun _ => Set.Subset.refl _) hlo⟩, rfl⟩
  all_goals rcases eq_or_ne j i with rfl | hj
  · rw [Cluster.stepped_self]
    exact hshare
  · rw [Cluster.stepped_ne (hne j hj)]
    exact h.share j
  · simp [Traffic.host]
  · simp [Traffic.host, hj, Cluster.stepped_ne (hne j hj), h.lo]
  · simp [Traffic.host]
  · simp [Traffic.host, hj, Cluster.stepped_ne (hne j hj), h.hi]
  · simp [Traffic.host]
  · simp [Traffic.host, hj, Cluster.stepped_ne (hne j hj), h.acc]
  · rw [hwire, List.map_append, ← h.chan, hout]
    exact Function.update_self _ _ _
  · rw [hwire_ne j hj, ← h.chan]
    exact Function.update_of_ne hj _ _
  · rw [hwire] at hx
    rw [Cluster.stepped_self]
    rcases List.mem_append.mp hx with hx | hx
    · obtain ⟨p, hp, hpkt⟩ := h.wire j x hx
      obtain ⟨rest, hrest⟩ := hprefix
      refine ⟨p, ?_, hpkt⟩
      rw [← hrest, List.getElem?_append_left (List.getElem?_eq_some_iff.mp hp).1, hp]
    · exact (hsent x hx).2
  · rw [hwire_ne j hj] at hx
    rw [Cluster.stepped_ne (hne j hj)]
    exact h.wire j x hx

end Stepped

/-- A step of a worker that is not of the lane. -/
theorem Lane.elsewhere {w : W} {r : Run} {out : List (ℕ × Frame)} (h : Lane D s k f)
    (hw : ∀ i, D.worker k i ≠ w) : Lane D (s.stepped w r out) k f :=
  h.frame
    { host := fun i => Cluster.stepped_ne (hw i)
      wire := fun i => congrArg (onWire (D.gid k)) (Function.update_of_ne (hw i) _ _)
      regs := fun _ => ⟨rfl, rfl⟩
      recirc := fun _ hx => Or.inl hx
      back := fun _ hx => Or.inl hx }

/-! ## 5. The network and the switch -/

/-- A frame is lost on the wire of `w`. -/
theorem Lane.loseWire (hD : D.Created tbl copies) (h : Lane D s k f) (w : W) (m : ℕ) :
    ∃ f', Lane D { s with wire := Function.update s.wire w ((s.wire w).eraseIdx m) } k f' ∧
      f'.arr = f.arr := by
  by_cases hmember : ∃ i, D.worker k i = w
  · obtain ⟨i, rfl⟩ := hmember
    have hne : ∀ j, j ≠ i → D.worker k j ≠ D.worker k i := fun j hj he => hj (hD.members k he)
    have hsub : (onWire (D.gid k) ((s.wire (D.worker k i)).eraseIdx m)).Sublist
        (onWire (D.gid k) (s.wire (D.worker k i))) := (List.eraseIdx_sublist _ _).filter _
    generalize (s.wire (D.worker k i)).eraseIdx m = rest at *
    generalize hl : (onWire (D.gid k) rest).map (·.1) = l
    have hlost : l.Sublist (f.chan i) := by
      rw [h.chan, ← hl]
      exact hsub.map _
    refine ⟨{ f with chan := Function.update f.chan i l },
      { h with
        chan := fun j => ?_
        wire := fun j x hx => ?_
        inv := h.inv.lose hlost
        held := h.held.congr (fun _ _ _ => rfl) rfl rfl
        recirc := fun x hx j hj hg =>
          (h.recirc x hx j hj hg).congr (fun _ _ _ => rfl) fun _ => Set.Subset.refl _
        back := fun x hx j hj hg => (h.back x hx j hj hg).congr (fun _ _ _ => rfl)
          (fun _ => Set.Subset.refl _) fun _ => Nat.le_refl _ }, rfl⟩
    · dsimp only
      rcases eq_or_ne j i with rfl | hj
      · rw [Function.update_self, Function.update_self, hl]
      · rw [Function.update_of_ne hj, Function.update_of_ne (hne j hj), h.chan]
    · dsimp only at hx
      rcases eq_or_ne j i with rfl | hj
      · rw [Function.update_self] at hx
        exact h.wire j x (hsub.subset hx)
      · rw [Function.update_of_ne (hne j hj)] at hx
        exact h.wire j x hx
  · refine ⟨f, h.frame ⟨fun _ => rfl, fun i => ?_, fun _ => ⟨rfl, rfl⟩, fun _ hx => Or.inl hx,
      fun _ hx => Or.inl hx⟩, rfl⟩
    exact congrArg (onWire (D.gid k)) (Function.update_of_ne (fun he => hmember ⟨i, he⟩) _ _)

omit [DecidableEq W] in
/-- The state after a first pass. -/
theorem Cluster.firstPass_spec (tbl : Tables) (s : Cluster W) (q : ℕ) (w : W) (fr : Frame) :
    let s' := Cluster.firstPass tbl s q w fr
    s'.host = s.host ∧ s'.wire = s.wire ∧ s'.back = s.back ∧
      s'.regs = (ingress tbl s.regs (packetOf fr)).1 ∧
      ∀ x ∈ s'.recirc, x ∈ s.recirc ∨
        (x = (q, w, egressRecirculate (ingress tbl s.regs (packetOf fr)).2.1) ∧
          ∃ port, (ingress tbl s.regs (packetOf fr)).2.2 = .recirculate port) := by
  dsimp only [Cluster.firstPass]
  split
  · rename_i port hport
    refine ⟨rfl, rfl, rfl, rfl, fun x hx => ?_⟩
    rcases List.mem_append.mp hx with hx | hx
    · exact Or.inl hx
    · exact Or.inr ⟨List.mem_singleton.mp hx, port, hport⟩
  · exact ⟨rfl, rfl, rfl, rfl, fun x hx => Or.inl hx⟩

omit [DecidableEq W] in
/-- The state after a second pass. -/
theorem Cluster.secondPass_spec (tbl : Tables) (copies : W → BitVec 8 → List (ℕ × W))
    (s : Cluster W) (q : ℕ) (w : W) (p : Packet) :
    let s' := Cluster.secondPass tbl copies s q w p
    s'.host = s.host ∧ s'.wire = s.wire ∧ s'.recirc = s.recirc ∧
      s'.regs = (ingress tbl s.regs p).1 ∧
      ∀ x ∈ s'.back, x ∈ s.back ∨
        (∃ g, (ingress tbl s.regs p).2.2 = .multicast g ∧ ∃ c ∈ copies w g,
          x = (q, c.2, egressRespond (ingress tbl s.regs p).2.1 (BitVec.ofNat 8 c.1))) ∨
        ((ingress tbl s.regs p).2.2 = .l2Forward ∧
          x = (q, w, egressRespond (ingress tbl s.regs p).2.1 0)) := by
  dsimp only [Cluster.secondPass]
  split
  · rename_i g hg
    refine ⟨rfl, rfl, rfl, rfl, fun x hx => ?_⟩
    rcases List.mem_append.mp hx with hx | hx
    · exact Or.inl hx
    · obtain ⟨c, hc, rfl⟩ := List.mem_map.mp hx
      exact Or.inr (Or.inl ⟨g, hg, c, hc, rfl⟩)
  · rename_i hfwd
    refine ⟨rfl, rfl, rfl, rfl, fun x hx => ?_⟩
    rcases List.mem_append.mp hx with hx | hx
    · exact Or.inl hx
    · exact Or.inr (Or.inr ⟨hfwd, List.mem_singleton.mp hx⟩)
  · exact ⟨rfl, rfl, rfl, rfl, fun x hx => Or.inl hx⟩

omit [DecidableEq W] in
/-- A frame on the wire is its packet. -/
theorem Lane.arriving (h : Lane D s k f) {i : Fin (D.n k)}
    (hw : ∃ ctx aggLen, Keeps D s (D.worker k i) ctx aggLen) {x : ℕ × Frame}
    (hx : x ∈ onWire (D.gid k) (s.wire (D.worker k i))) :
    Arriving (D.plan k) (D.contribution s k) x.1 i (packetOf x.2) := by
  obtain ⟨p, hp, hpkt⟩ := h.wire i x hx
  obtain ⟨ctx, aggLen, hkeeps⟩ := hw
  refine ⟨rfl, ?_, ?_⟩
  · rw [hpkt]
    exact ((h.share i).packet hkeeps.serving (hkeeps.lanes k i rfl).1 hp).2.1
  · rw [Lanes.contribution, hp, hpkt]
    rfl

/-- **A first pass of a packet of the lane.** -/
theorem Lane.arrive (hD : D.Created tbl copies) (h : Lane D s k f) {i : Fin (D.n k)}
    (hk : ∃ ctx aggLen, Keeps D s (D.worker k i) ctx aggLen) {q : ℕ} {fr : Frame}
    {rest : List (ℕ × Frame)} (hw : s.wire (D.worker k i) = (q, fr) :: rest)
    (hg : fr.inc.groupId = D.gid k) :
    ∃ f', Lane D (Cluster.firstPass tbl
      { s with wire := Function.update s.wire (D.worker k i) rest } q (D.worker k i) fr) k f' ∧
      (∀ j, f.arr j ⊆ f'.arr j) ∧ q ∈ f'.arr i := by
  have hne : ∀ j, j ≠ i → D.worker k j ≠ D.worker k i := fun j hj he => hj (hD.members k he)
  have hon : onWire (D.gid k) (s.wire (D.worker k i)) = (q, fr) :: onWire (D.gid k) rest := by
    rw [hw]
    exact List.filter_cons_of_pos (decide_eq_true hg)
  have hc : f.chan i = q :: (onWire (D.gid k) rest).map (·.1) := by rw [h.chan, hon]; rfl
  have hp := h.arriving hk (x := (q, fr)) (hon ▸ List.mem_cons_self)
  generalize hf' : Traffic.mk f.lo f.hi f.acc
    (Function.update f.chan i ((onWire (D.gid k) rest).map (·.1)))
    (Function.update f.arr i (insert q (f.arr i)))
    (Function.update f.slot (q % (D.plan k).aggLen) (some q)) = f'
  have hinv' : f'.Inv ((D.plan k).aggLen / 2) (D.plan k).aggLen :=
    hf' ▸ h.inv.arrive (Nat.mul_div_le _ 2) hc
  obtain ⟨hheld, hwaits⟩ :=
    h.held.arrive (hD.created k) (Nat.mul_div_le _ 2) h.inv hc hp hf'.symm
  have harr : ∀ j, f.arr j ⊆ f'.arr j := by
    intro j x hx
    rw [← hf']
    exact Traffic.mem_update_insert.mpr (Or.inr hx)
  have hq : q ∈ f'.arr i := by
    rw [← hf']
    exact Traffic.mem_update_insert.mpr (Or.inl ⟨rfl, rfl⟩)
  obtain ⟨hhost, hwire, hback, hregs, hrecirc⟩ := Cluster.firstPass_spec tbl
    { s with wire := Function.update s.wire (D.worker k i) rest } q (D.worker k i) fr
  dsimp only at hhost hwire hback hregs hrecirc
  generalize Cluster.firstPass tbl { s with wire := Function.update s.wire (D.worker k i) rest } q
    (D.worker k i) fr = s' at *
  have hpay : D.contribution s' k = D.contribution s k := by
    unfold Lanes.contribution
    rw [hhost]
  refine ⟨f', ⟨fun j => ?_, fun j => ?_, fun j => ?_, fun j x => ?_, fun j => ?_, fun j x hx => ?_,
    hinv', ?_, fun x hx j hj hgj => ?_, fun x hx j hj hgj => ?_⟩, harr, hq⟩
  · rw [hhost]
    exact h.share j
  · rw [hhost, ← hf']
    exact h.lo j
  · rw [hhost, ← hf']
    exact h.hi j
  · rw [hhost, ← hf']
    exact h.acc j x
  · rw [hwire, ← hf']
    dsimp only
    rcases eq_or_ne j i with rfl | hj
    · rw [Function.update_self, Function.update_self]
    · rw [Function.update_of_ne hj, Function.update_of_ne (hne j hj), h.chan]
  · rw [hwire] at hx
    rw [hhost]
    rcases eq_or_ne j i with rfl | hj
    · rw [Function.update_self] at hx
      exact h.wire j x (hon ▸ List.mem_cons_of_mem _ hx)
    · rw [Function.update_of_ne (hne j hj)] at hx
      exact h.wire j x hx
  · rw [hpay, hregs]
    exact hheld
  · rw [hpay]
    rcases hrecirc x hx with hx | ⟨rfl, port, hport⟩
    · exact (h.recirc x hx j hj hgj).congr (fun _ _ _ => rfl) harr
    · obtain rfl := hD.members k hj
      exact hwaits port hport
  · rw [hback] at hx
    rw [hpay]
    refine (h.back x hx j hj hgj).congr (fun _ _ _ => rfl) harr fun _ => ?_
    rw [← hf']

/-- **A first pass of a packet of another lane.** -/
theorem Lane.arriveOther (hD : D.Created tbl copies) (h : Lane D s k f) {k' : K} (hk : k' ≠ k)
    {i : Fin (D.n k')} {q : ℕ} {fr : Frame} {rest : List (ℕ × Frame)}
    (hw : s.wire (D.worker k' i) = (q, fr) :: rest)
    (hinc : fr.inc = (D.plan k').header i q) :
    Lane D (Cluster.firstPass tbl { s with wire := Function.update s.wire (D.worker k' i) rest } q
      (D.worker k' i) fr) k f := by
  have hgroup : fr.inc.groupId = D.gid k' := by
    rw [hinc]
    rfl
  -- the lane's own frames are of another group, where the worker is one of its members
  have hother : ∀ j, D.worker k j = D.worker k' i → fr.inc.groupId ≠ D.gid k := fun j hj he =>
    hk (hD.groups k' k i j hj.symm (hgroup.symm.trans he))
  obtain ⟨hhost, hwire, hback, hregs, hrecirc⟩ := Cluster.firstPass_spec tbl
    { s with wire := Function.update s.wire (D.worker k' i) rest } q (D.worker k' i) fr
  dsimp only at hhost hwire hback hregs hrecirc
  refine h.frame ⟨fun j => by rw [hhost], fun j => ?_, fun x => ?_, fun x hx => ?_, fun x hx => ?_⟩
  · rw [hwire]
    by_cases hj : D.worker k j = D.worker k' i
    · rw [hj, Function.update_self, hw]
      exact (List.filter_cons_of_neg (by simpa using hother j hj)).symm
    · rw [Function.update_of_ne hj]
  · rw [hregs]
    have haddr : fr.inc.aggAddr = (D.plan k').addr q := by
      rw [hinc]
      rfl
    exact ingress_frame tbl s.regs fun he => hD.addr_ne hk.symm x q (he.trans haddr)
  · rcases hrecirc x hx with hx | ⟨rfl, -⟩
    · exact Or.inl hx
    · exact Or.inr hother
  · rw [hback] at hx
    exact Or.inl hx

/-- The group of a response. -/
theorem Responds.groupId {n : ℕ} {G : Plan} {pay : Pay n} {f : Traffic (Fin n)} {q : ℕ} {i : Fin n}
    {r : Response} (h : Responds G pay f q i r) : r.netccl.groupId = G.groupId := by
  obtain ⟨payload, rfl, -⟩ := h.eq
  rfl

omit [DecidableEq W] in
/-- **A second pass of a packet of the lane** changes no slot, and answers members of the
lane. -/
theorem Lane.responses (hD : D.Created tbl copies) (h : Lane D s k f) {q : ℕ} {i : Fin (D.n k)}
    {p : Packet} (hp : Waits (D.plan k) (D.contribution s k) f q i p) :
    let s' := Cluster.secondPass tbl copies s q (D.worker k i) p
    s'.host = s.host ∧ s'.wire = s.wire ∧ s'.recirc = s.recirc ∧ s'.regs = s.regs ∧
      ∀ x ∈ s'.back, x ∈ s.back ∨ ∃ j, x.2.1 = D.worker k j ∧
        Responds (D.plan k) (D.contribution s k) f x.1 j x.2.2 := by
  obtain ⟨hregs, hcase⟩ := hp.respond tbl (Nat.mul_div_le _ 2) h.held h.inv
  obtain ⟨hhost, hwire, hrecirc, hregs', hback⟩ :=
    Cluster.secondPass_spec tbl copies s q (D.worker k i) p
  refine ⟨hhost, hwire, hrecirc, hregs'.trans hregs, fun x hx => ?_⟩
  rcases hback x hx with hx | ⟨g, hg, c, hc, rfl⟩ | ⟨hfwd, rfl⟩
  · exact Or.inl hx
  · right
    rcases hcase with ⟨hmc, hresp⟩ | ⟨hfwd, -⟩
    · obtain rfl := Verdict.multicast.inj (hg.symm.trans hmc)
      rw [show (D.plan k).groupId = D.gid k from rfl, hD.copies k i] at hc
      obtain ⟨j, -, rfl⟩ := List.mem_map.mp hc
      exact ⟨j, rfl, hresp j⟩
    · rw [hg] at hfwd
      cases hfwd
  · right
    rcases hcase with ⟨hmc, -⟩ | ⟨-, hresp⟩
    · rw [hfwd] at hmc
      cases hmc
    · exact ⟨i, rfl, hresp⟩

omit [DecidableEq W] in
/-- The lane after a second pass of a packet of its own. -/
theorem Lane.second (hD : D.Created tbl copies) (h : Lane D s k f) {q : ℕ} {i : Fin (D.n k)}
    {p : Packet} (hp : Waits (D.plan k) (D.contribution s k) f q i p) :
    Lane D (Cluster.secondPass tbl copies s q (D.worker k i) p) k f := by
  obtain ⟨hhost, hwire, hrecirc, hregs, hback⟩ := h.responses hD hp
  generalize Cluster.secondPass tbl copies s q (D.worker k i) p = s' at *
  have hpay : D.contribution s' k = D.contribution s k := by
    unfold Lanes.contribution
    rw [hhost]
  refine ⟨by rw [hhost]; exact h.share, by rw [hhost]; exact h.lo, by rw [hhost]; exact h.hi,
    by rw [hhost]; exact h.acc, by rw [hwire]; exact h.chan, by rw [hwire, hhost]; exact h.wire,
    h.inv, by rw [hpay, hregs]; exact h.held, by rw [hpay, hrecirc]; exact h.recirc,
    fun x hx j hj hg => ?_⟩
  rw [hpay]
  rcases hback x hx with hx | ⟨j', hj', hresp⟩
  · exact h.back x hx j hj hg
  · obtain rfl := hD.members k (hj.trans hj')
    exact hresp

omit [DecidableEq W] in
/-- The lane after a second pass of a packet of another lane. -/
theorem Lane.secondOther (hD : D.Created tbl copies) (h : Lane D s k f) {k' : K} (hk : k' ≠ k)
    {f' : Traffic (Fin (D.n k'))} (h' : Lane D s k' f') {q : ℕ} {i : Fin (D.n k')} {p : Packet}
    (hp : Waits (D.plan k') (D.contribution s k') f' q i p) :
    Lane D (Cluster.secondPass tbl copies s q (D.worker k' i) p) k f := by
  obtain ⟨hhost, hwire, hrecirc, hregs, hback⟩ := h'.responses hD hp
  refine h.frame ⟨fun j => by rw [hhost], fun j => by rw [hwire], fun x => by rw [hregs]; exact
    ⟨rfl, rfl⟩, fun x hx => Or.inl (by rwa [hrecirc] at hx), fun x hx => ?_⟩
  rcases hback x hx with hx | ⟨j', hj', hresp⟩
  · exact Or.inl hx
  · exact Or.inr fun j hj hg =>
      hk (hD.groups k' k j' j (hj'.symm.trans hj.symm) (hresp.groupId.symm.trans hg))

/-- A response is of the group of its packet. -/
theorem egressRespond_groupId (p : Packet) (rid : BitVec 8) :
    (egressRespond p rid).netccl.groupId = p.netccl.groupId := by
  unfold egressRespond
  dsimp only
  split <;> rfl

omit [DecidableEq W] in
/-- A second pass of what is left over from another group. -/
theorem Lane.secondNone (h : Lane D s k f) {q : ℕ} {w : W} {p : Packet}
    (hpass : p.internal.passCnt = 2) (hg : ∀ k, D.gid k ≠ p.netccl.groupId) :
    Lane D (Cluster.secondPass tbl copies s q w p) k f := by
  obtain ⟨hhost, hwire, hrecirc, hregs, hback⟩ :=
    Cluster.secondPass_spec tbl copies s q w p
  refine h.frame ⟨fun j => by rw [hhost], fun j => by rw [hwire], fun x => ?_,
    fun x hx => Or.inl (by rwa [hrecirc] at hx), fun x hx => ?_⟩
  · rw [hregs, ingress_secondPass tbl s.regs hpass]
    exact ⟨rfl, rfl⟩
  · have hgroup : (ingress tbl s.regs p).2.1.netccl = p.netccl := rfl
    rcases hback x hx with hx | ⟨g, -, c, -, rfl⟩ | ⟨-, rfl⟩
    · exact Or.inl hx
    all_goals
      refine Or.inr fun j hj he => hg k (he.symm.trans ?_)
      rw [egressRespond_groupId, hgroup]

end NetCCL
