/-
# Who receives a reduction

`call_c_collective` turns the root's global rank into a group rank before it calls the C layer.
`call_collective` itself compares `group_ctx.rank`, a group rank, with the root's GLOBAL rank,
so the member that adds the integers it received need not be the one that received them.

**The residual.**  A root gets its reduction, whatever the tensors, when and only when its two
ranks are the same (`reducesRight_iff`).  Otherwise the result is right only by chance: when
the others' integers add up to zero, and so do those of the member that adds its own by
mistake (`delivers_iff`).  `reduce_scatter_tensor` is one reduce for each member, so it needs
that of every member (`reduceScattersRight_iff`).
-/
import NetCCL.Frontend.Quantised

namespace NetCCL.Frontend.Collective

open Lib

variable {n len : ℕ}

/-! ## 1. One reduce -/

/-- What the root should hold: its own scaled values plus the sum of the others' integers,
scaled back. -/
def reduction (root : Fin n) (xs : Fin n → Tensor len) : Tensor len := fun k =>
  (scaled xs root k + ((∑ j ∈ Finset.univ.erase root, quantised xs j k : ℤ) : ℚ)) / factor xs

/-- The root holds the reduction, and every other member its input. -/
def Delivers (root : Fin n) (xs ys : Fin n → Tensor len) : Prop :=
  ys root = reduction root xs ∧ ∀ i, i ≠ root → ys i = xs i

/-- The integers that end up in the wrong place are all zero. -/
def Unnoticed (g : ProcessGroup n) (root : Fin n) (xs : Fin n → Tensor len) : Prop :=
  (∀ k, ∑ j ∈ Finset.univ.erase root, quantised xs j k = 0) ∧
    ∀ i, i ≠ root → i.val = g.globalRank root → ∀ k, quantised xs i k = 0

/-- **Exactly when one reduce delivers.** -/
theorem delivers_iff {g : ProcessGroup n} {root : Fin n} {xs ys : Fin n → Tensor len}
    (hM : maxAbsValue xs ≠ 0) (h : reduce g (g.globalRank root) xs = some ys) :
    Delivers root xs ys ↔ root.val = g.globalRank root ∨ Unnoticed g root xs := by
  have hpos : factor xs ≠ 0 :=
    (factor_pos (lt_of_le_of_ne (maxAbsValue_nonneg xs) hM.symm)).ne'
  -- adding integers and scaling back changes a value unless they are zero
  have hzero : ∀ i k (z : ℤ), (scaled xs i k + z) / factor xs = xs i k ↔ z = 0 := by
    intro i k z
    rw [← scaled_div hM i k, div_left_inj' hpos, add_eq_left, Int.cast_eq_zero]
  constructor
  · rintro ⟨hroot, hothers⟩
    rcases Decidable.em (root.val = g.globalRank root) with heq | hne
    · exact Or.inl heq
    · right
      refine ⟨fun k => ?_, fun i hi hrank k => ?_⟩
      · have hk := congrFun hroot k
        rw [reduce_eq hM h, if_neg hne] at hk
        exact (hzero root k _).mp hk.symm
      · have hk := congrFun (hothers i hi) k
        rw [reduce_eq hM h, if_pos hrank, if_neg hi] at hk
        exact (hzero i k _).mp hk
  · intro hcase
    refine ⟨funext fun k => ?_, fun i hi => funext fun k => ?_⟩
    · rw [reduce_eq hM h]
      split
      · rw [if_pos rfl]
        rfl
      · rename_i hne
        obtain ⟨hsum, -⟩ := hcase.resolve_left hne
        exact ((hzero root k _).mpr (hsum k)).symm
    · rw [reduce_eq hM h]
      split
      · rename_i hrank
        have hne : root.val ≠ g.globalRank root := fun heq =>
          hi (Fin.ext (hrank.trans heq.symm))
        obtain ⟨-, hown⟩ := hcase.resolve_left hne
        exact (hzero i k _).mpr (hown i hi hrank k)
      · rfl

/-- Member `j` has one, and everybody else zero. -/
def single (j : Fin n) : Fin n → Tensor 1 := fun i _ => if i = j then 1 else 0

theorem maxAbsValue_single (j : Fin n) : maxAbsValue (single j) = 1 := by
  have hmax : ∀ i, maxAbs (single j i) = if i = j then 1 else 0 := by
    intro i
    simp only [maxAbs, single, List.finRange_succ]
    split <;> simp
  rw [maxAbsValue, Finset.sum_congr rfl fun i _ => hmax i, Finset.sum_ite_eq']
  exact if_pos (Finset.mem_univ j)

theorem factor_single (j : Fin n) : factor (single j) = quantMax := by
  rw [factor, maxAbsValue_single, div_one]

theorem quantised_single (j i : Fin n) (k : Fin 1) :
    quantised (single j) i k = if i = j then 0x7fffff80 else 0 := by
  rw [quantised, scaled, factor_single, single]
  split
  · rw [one_mul]
    exact truncate_intCast 0x7fffff80
  · rw [zero_mul, truncate_zero]

/-- Such a tensor does not fall back. -/
theorem reduce_single (g : ProcessGroup n) (dst : ℕ) (j : Fin n) :
    ∃ ys, reduce g dst (single j) = some ys := by
  have hfits : ¬ (factor (single j) > floatMax) := by
    rw [factor_single]
    norm_num [quantMax, floatMax]
  have hne : maxAbsValue (single j) ≠ 0 := by
    rw [maxAbsValue_single]
    exact one_ne_zero
  unfold reduce callCollective
  rw [if_neg hne, if_neg hfits]
  exact ⟨_, rfl⟩

/-- A root with another global rank misses what a single other member sends. -/
theorem single_not_delivered {g : ProcessGroup n} {root j : Fin n} (hj : j ≠ root)
    (hne : root.val ≠ g.globalRank root) {ys : Fin n → Tensor 1}
    (h : reduce g (g.globalRank root) (single j) = some ys) : ¬ Delivers root (single j) ys := by
  have hM : maxAbsValue (single j) ≠ 0 := by
    rw [maxAbsValue_single]
    exact one_ne_zero
  rw [delivers_iff hM h]
  rintro (heq | ⟨hsum, -⟩)
  · exact hne heq
  · have hk := hsum 0
    simp only [quantised_single, Finset.sum_ite_eq', Finset.mem_erase, Finset.mem_univ, and_true,
      if_pos hj] at hk
    exact absurd hk (by decide)

/-- A reduce to this root delivers, whatever the tensors. -/
def ReducesRight (g : ProcessGroup n) (root : Fin n) : Prop :=
  ∀ (len : ℕ) (xs ys : Fin n → Tensor len), maxAbsValue xs ≠ 0 →
    reduce g (g.globalRank root) xs = some ys → Delivers root xs ys

/-- **Exactly when a reduce is right for all tensors.** -/
theorem reducesRight_iff (g : ProcessGroup n) (root : Fin n) :
    ReducesRight g root ↔ root.val = g.globalRank root ∨ n = 1 := by
  constructor
  · intro hright
    by_contra hnot
    obtain ⟨hne, hn⟩ := not_or.mp hnot
    have hpos := root.pos
    obtain ⟨j, hj⟩ : ∃ j : Fin n, j ≠ root := by
      have : Nontrivial (Fin n) := Fin.nontrivial_iff_two_le.mpr (by omega)
      exact exists_ne root
    obtain ⟨ys, hys⟩ := reduce_single g (g.globalRank root) j
    have hM : maxAbsValue (single j) ≠ 0 := by
      rw [maxAbsValue_single]
      exact one_ne_zero
    exact single_not_delivered hj hne hys (hright 1 _ ys hM hys)
  · rintro hcase len xs ys hM h
    rw [delivers_iff hM h]
    rcases hcase with heq | rfl
    · exact Or.inl heq
    · right
      have hroot : ∀ i : Fin 1, i = root := by
        intro i
        exact Subsingleton.elim i root
      refine ⟨fun k => ?_, fun i hi => absurd (hroot i) hi⟩
      rw [Finset.sum_eq_zero]
      intro j hj
      exact absurd (hroot j) (Finset.ne_of_mem_erase hj)

/-! ## 2. Reduce-scatter -/

/-- A round of `reduce_scatter_tensor`: all members reduce their tensor for member `r`. -/
def scatterRound (g : ProcessGroup n) (tensorList : Fin n → Fin n → Tensor len) (r : Fin n) :
    Option (Fin n → Fin n → Tensor len) :=
  (reduce g (g.globalRank r) fun i => tensorList i r).map fun ys i =>
    Function.update (tensorList i) r (ys i)

/-- `reduce_scatter_tensor` on all members: `inputs i r` is segment `r` of the input of member
`i`.  The results are the outputs, and the inputs after the call; the segment a member reduces
for itself is a copy, in its output. -/
def reduceScatterTensor (g : ProcessGroup n) (inputs : Fin n → Fin n → Tensor len) :
    Option ((Fin n → Tensor len) × (Fin n → Fin n → Tensor len)) :=
  ((List.finRange n).foldlM (scatterRound g) inputs).map fun tensorList =>
    (fun i => tensorList i i, fun i r => if r = i then inputs i i else tensorList i r)

/-- **The rounds do not meet**: each reads and writes a column of its own. -/
theorem scatterRounds {g : ProcessGroup n} : ∀ {rs : List (Fin n)}
    {tensorList tensorList' : Fin n → Fin n → Tensor len}, rs.Nodup →
    rs.foldlM (scatterRound g) tensorList = some tensorList' →
    (∀ r ∈ rs, ∃ ys, reduce g (g.globalRank r) (fun i => tensorList i r) = some ys ∧
        ∀ i, tensorList' i r = ys i) ∧
      ∀ r, r ∉ rs → ∀ i, tensorList' i r = tensorList i r
  | [], tensorList, tensorList', _, h => by
    cases h
    exact ⟨fun r hr => absurd hr List.not_mem_nil, fun r _ i => rfl⟩
  | r :: rs, tensorList, tensorList', hnodup, h => by
    obtain ⟨hr, hnodup⟩ := List.nodup_cons.mp hnodup
    rw [List.foldlM_cons] at h
    obtain ⟨t, hround, hrest⟩ := Option.bind_eq_some_iff.mp h
    obtain ⟨ys, hys, rfl⟩ := Option.map_eq_some_iff.mp hround
    obtain ⟨hin, hout⟩ := scatterRounds hnodup hrest
    have hcol : ∀ r', r' ≠ r → ∀ i, Function.update (tensorList i) r (ys i) r' = tensorList i r' :=
      fun r' hne i => Function.update_of_ne hne _ _
    refine ⟨fun r' hr' => ?_, fun r' hr' i => ?_⟩
    · rcases List.mem_cons.mp hr' with rfl | hr'
      · refine ⟨ys, hys, fun i => ?_⟩
        rw [hout _ hr, Function.update_self]
      · obtain ⟨ys', hys', htl⟩ := hin r' hr'
        have hne : r' ≠ r := by
          intro heq
          exact hr (heq ▸ hr')
        simp only [hcol r' hne] at hys'
        exact ⟨ys', hys', htl⟩
    · obtain ⟨hne, hrs⟩ := not_or.mp (mt List.mem_cons.mpr hr')
      rw [hout r' hrs, hcol r' hne]

/-- They end when none of them falls back. -/
theorem scatterRounds_total {g : ProcessGroup n} : ∀ {rs : List (Fin n)}
    {tensorList : Fin n → Fin n → Tensor len}, rs.Nodup →
    (∀ r ∈ rs, ∃ ys, reduce g (g.globalRank r) (fun i => tensorList i r) = some ys) →
    ∃ tensorList', rs.foldlM (scatterRound g) tensorList = some tensorList'
  | [], tensorList, _, _ => ⟨tensorList, rfl⟩
  | r :: rs, tensorList, hnodup, h => by
    obtain ⟨hr, hnodup⟩ := List.nodup_cons.mp hnodup
    obtain ⟨ys, hys⟩ := h r List.mem_cons_self
    have hrest : ∀ r' ∈ rs, ∃ ys', reduce g (g.globalRank r')
        (fun i => Function.update (tensorList i) r (ys i) r') = some ys' := by
      intro r' hr'
      have hne : r' ≠ r := by
        intro heq
        exact hr (heq ▸ hr')
      simp only [Function.update_of_ne hne]
      exact h r' (List.mem_cons_of_mem _ hr')
    obtain ⟨t, ht⟩ := scatterRounds_total hnodup hrest
    refine ⟨t, ?_⟩
    rw [List.foldlM_cons, scatterRound, hys]
    exact ht

/-- Every member's output is the reduction of its own segment, and its input is unchanged. -/
def ReduceScatters (inputs : Fin n → Fin n → Tensor len) (outputs : Fin n → Tensor len)
    (inputs' : Fin n → Fin n → Tensor len) : Prop :=
  (∀ i, outputs i = reduction i fun j => inputs j i) ∧ inputs' = inputs

def ReduceScattersRight (g : ProcessGroup n) : Prop :=
  ∀ (len : ℕ) (inputs inputs' : Fin n → Fin n → Tensor len) (outputs : Fin n → Tensor len),
    reduceScatterTensor g inputs = some (outputs, inputs') →
    ReduceScatters inputs outputs inputs'

/-- The column of a round in the result. -/
theorem reduceScatter_column {g : ProcessGroup n} {inputs inputs' : Fin n → Fin n → Tensor len}
    {outputs : Fin n → Tensor len}
    (h : reduceScatterTensor g inputs = some (outputs, inputs')) (r : Fin n) :
    ∃ ys, reduce g (g.globalRank r) (fun i => inputs i r) = some ys ∧ outputs r = ys r ∧
      inputs' r r = inputs r r ∧ ∀ i, i ≠ r → inputs' i r = ys i := by
  obtain ⟨t, ht, heq⟩ := Option.map_eq_some_iff.mp h
  obtain ⟨rfl, rfl⟩ := Prod.mk.inj heq
  obtain ⟨ys, hys, htl⟩ := (scatterRounds (List.nodup_finRange n) ht).1 r (List.mem_finRange r)
  exact ⟨ys, hys, htl r, if_pos rfl, fun i hi => (if_neg hi.symm).trans (htl i)⟩

/-- All zeros are a reduction of themselves. -/
theorem delivers_zero {g : ProcessGroup n} {root : Fin n} {xs ys : Fin n → Tensor len}
    (hM : maxAbsValue xs = 0) (h : reduce g (g.globalRank root) xs = some ys) :
    Delivers root xs ys := by
  unfold reduce callCollective at h
  rw [if_pos hM] at h
  cases h
  refine ⟨funext fun k => ?_, fun i _ => rfl⟩
  have hq : ∀ j, scaled xs j k = 0 := by
    intro j
    rw [scaled, eq_zero_of_maxAbsValue hM, zero_mul]
  simp [reduction, quantised, hq, eq_zero_of_maxAbsValue hM]

/-- **Exactly when a reduce-scatter is right for all tensors.** -/
theorem reduceScattersRight_iff (g : ProcessGroup n) :
    ReduceScattersRight g ↔ (∀ r : Fin n, r.val = g.globalRank r) ∨ n = 1 := by
  constructor
  · intro hright
    by_contra hnot
    obtain ⟨hrank, hn⟩ := not_or.mp hnot
    obtain ⟨r, hne⟩ := not_forall.mp hrank
    have hpos := r.pos
    obtain ⟨j, hj⟩ : ∃ j : Fin n, j ≠ r := by
      have : Nontrivial (Fin n) := Fin.nontrivial_iff_two_le.mpr (by omega)
      exact exists_ne r
    -- one member has one element, in the segment of `r`
    let inputs : Fin n → Fin n → Tensor 1 := fun i r' => if r' = r then single j i else 0
    have hcol : (fun i => inputs i r) = single j := funext fun i => if_pos rfl
    have htotal : ∀ r' ∈ List.finRange n,
        ∃ ys, reduce g (g.globalRank r') (fun i => inputs i r') = some ys := by
      intro r' _
      rcases eq_or_ne r' r with rfl | hr'
      · rw [hcol]
        exact reduce_single g _ j
      · have hzero : (fun i => inputs i r') = fun _ => (0 : Tensor 1) :=
          funext fun i => if_neg hr'
        have hM : maxAbsValue (fun _ : Fin n => (0 : Tensor 1)) = 0 := by
          simp [maxAbsValue, maxAbs, List.finRange_succ]
        rw [hzero]
        unfold reduce callCollective
        rw [if_pos hM]
        exact ⟨_, rfl⟩
    obtain ⟨t, ht⟩ := scatterRounds_total (List.nodup_finRange n) htotal
    obtain ⟨outputs, inputs', hdone⟩ : ∃ outputs inputs',
        reduceScatterTensor g inputs = some (outputs, inputs') := by
      rw [reduceScatterTensor, ht]
      exact ⟨_, _, rfl⟩
    obtain ⟨hout, hin⟩ := hright 1 _ _ _ hdone
    obtain ⟨ys, hys, hroot, -, hothers⟩ := reduceScatter_column hdone r
    rw [hcol] at hys
    refine single_not_delivered hj hne hys ⟨?_, fun i hi => ?_⟩
    · rw [← hroot, hout r, hcol]
    · rw [← hothers i hi, hin, ← hcol]
  · intro hcase len inputs inputs' outputs h
    have hdelivers : ∀ r ys, reduce g (g.globalRank r) (fun i => inputs i r) = some ys →
        Delivers r (fun i => inputs i r) ys := by
      intro r ys hys
      rcases eq_or_ne (maxAbsValue fun i => inputs i r) 0 with hM | hM
      · exact delivers_zero hM hys
      · have hr : r.val = g.globalRank r ∨ n = 1 := hcase.imp_left fun hall => hall r
        exact (reducesRight_iff g r).mpr hr len _ ys hM hys
    refine ⟨fun r => ?_, funext fun i => funext fun r => ?_⟩
    · obtain ⟨ys, hys, hout, -, -⟩ := reduceScatter_column h r
      rw [hout, (hdelivers r ys hys).1]
    · obtain ⟨ys, hys, -, hown, hothers⟩ := reduceScatter_column h r
      rcases eq_or_ne i r with rfl | hi
      · exact hown
      · rw [hothers i hi, (hdelivers r ys hys).2 i hi]

/-! ## 3. The result -/

/-- **Reduce delivers to the right rank exactly for roots whose two ranks are the same**, and a
reduce-scatter needs that of all members.  The rest is chance: for other roots, exactly the
tensors whose misplaced integers are all zero. -/
theorem reduce_delivers_iff (g : ProcessGroup n) :
    (∀ root : Fin n, ReducesRight g root ↔ root.val = g.globalRank root ∨ n = 1) ∧
      (∀ (root : Fin n) (len : ℕ) (xs ys : Fin n → Tensor len), maxAbsValue xs ≠ 0 →
        reduce g (g.globalRank root) xs = some ys →
        (Delivers root xs ys ↔ root.val = g.globalRank root ∨ Unnoticed g root xs)) ∧
      (ReduceScattersRight g ↔ (∀ r : Fin n, r.val = g.globalRank r) ∨ n = 1) :=
  ⟨reducesRight_iff g, fun _ _ _ _ hM h => delivers_iff hM h, reduceScattersRight_iff g⟩

/-- The group of the global ranks 2 and 3. -/
def upperPair : ProcessGroup 2 := ⟨fun i => i.val + 2, fun i j h => Fin.ext (by simpa using h)⟩

/-- **Rank 2 does not get what rank 3 sends it.** -/
theorem reduce_subgroup_fails : ∃ ys, maxAbsValue (single (1 : Fin 2)) ≠ 0 ∧
    reduce upperPair 2 (single 1) = some ys ∧ ¬ Delivers 0 (single 1) ys := by
  obtain ⟨ys, hys⟩ := reduce_single upperPair (upperPair.globalRank 0) 1
  have hne : (0 : Fin 2).val ≠ upperPair.globalRank 0 := by decide
  refine ⟨ys, ?_, hys, single_not_delivered (by decide) hne hys⟩
  rw [maxAbsValue_single]
  exact one_ne_zero

end NetCCL.Frontend.Collective
