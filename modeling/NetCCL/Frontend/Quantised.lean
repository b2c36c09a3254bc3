/-
# Quantisation does not saturate, and loses little

The factor is chosen so that the members' maxima, scaled, add up to the largest float below
`2^31`.  So whatever subset of the members has arrived at the switch, the sum of its integers
fits a word (`sum_quantised_le`), and the saturating addition of the aggregators adds exactly,
in every order of arrival (`accumulate_eq`).  This discharges, for a float tensor, what the
theorems about the switch assume of their payloads.

Each member's truncation is off by less than one unit, and `factor` units make one: an
`all_reduce` is off by less than `n` units (`allReduce_error`), and a `reduce` too.
-/
import NetCCL.Frontend.Collective
import NetCCL.Lib.Words
import Mathlib.Algebra.BigOperators.Field

namespace NetCCL.Frontend.Collective

open Lib

variable {n len : ℕ} {xs : Fin n → Tensor len}

/-! ## 1. No saturation -/

/-- The scaled maxima add up to `0x7fffff80`. -/
theorem maxAbsValue_mul_factor (hM : 0 < maxAbsValue xs) :
    maxAbsValue xs * factor xs = quantMax :=
  mul_div_cancel₀ _ hM.ne'

/-- **The sum over any members** is bounded by `0x7fffff80`. -/
theorem sum_quantised_le (hM : 0 < maxAbsValue xs) (s : Finset (Fin n)) (k : Fin len) :
    |∑ i ∈ s, quantised xs i k| ≤ 0x7fffff80 := by
  have hpos := factor_pos hM
  have hbound : |((∑ i ∈ s, quantised xs i k : ℤ) : ℚ)| ≤ quantMax := by
    calc |((∑ i ∈ s, quantised xs i k : ℤ) : ℚ)| ≤ ∑ i ∈ s, |scaled xs i k| :=
          abs_sum_truncate_le s fun i => scaled xs i k
      _ = (∑ i ∈ s, |xs i k|) * factor xs := by
          rw [Finset.sum_mul]
          exact Finset.sum_congr rfl fun i _ => by rw [scaled, abs_mul, abs_of_pos hpos]
      _ ≤ maxAbsValue xs * factor xs :=
          mul_le_mul_of_nonneg_right (sum_abs_le xs s k) hpos.le
      _ = quantMax := maxAbsValue_mul_factor hM
  rw [← Int.cast_abs, quantMax] at hbound
  exact_mod_cast hbound

/-- What the packets of member `j` carry: its integers, or zeros. -/
def contribution (opCode : OpCode) (root : Fin n) (xs : Fin n → Tensor len) (j : Fin n)
    (k : Fin len) : ℤ :=
  if sends opCode root j then quantised xs j k else 0

/-- The word of an `int32`. -/
def word (z : ℤ) : BitVec 32 := BitVec.ofInt 32 z

/-- An aggregator that has taken the packet of `i`, and then those of `l`. -/
def accumulate (opCode : OpCode) (root : Fin n) (xs : Fin n → Tensor len) (k : Fin len)
    (i : Fin n) (l : List (Fin n)) : BitVec 32 :=
  l.foldl (fun acc j => satAdd acc (word (contribution opCode root xs j k)))
    (word (contribution opCode root xs i k))

theorem sum_contribution_le (hM : 0 < maxAbsValue xs) (opCode : OpCode) (root : Fin n)
    (s : Finset (Fin n)) (k : Fin len) :
    |∑ i ∈ s, contribution opCode root xs i k| ≤ 0x7fffff80 := by
  unfold contribution
  rw [← Finset.sum_filter]
  exact sum_quantised_le hM _ k

theorem word_toInt (hM : 0 < maxAbsValue xs) (opCode : OpCode) (root j : Fin n) (k : Fin len) :
    (word (contribution opCode root xs j k)).toInt = contribution opCode root xs j k := by
  have h := abs_le.mp (sum_contribution_le hM opCode root {j} k)
  rw [Finset.sum_singleton] at h
  exact BitVec.toInt_ofInt_eq_self (by decide) (by omega) (by omega)

/-- **The payloads of a float tensor fit the aggregators.** -/
theorem contribution_fits (hM : 0 < maxAbsValue xs) (opCode : OpCode) (root : Fin n)
    (k : Fin len) :
    SubsetFits Finset.univ fun j => word (contribution opCode root xs j k) := by
  intro s _
  have h := abs_le.mp (sum_contribution_le hM opCode root s k)
  simp only [word_toInt hM]
  exact ⟨by omega, by omega⟩

/-- **Saturating addition is exact**, in every order of arrival, from its first packet on. -/
theorem accumulate_eq (hM : 0 < maxAbsValue xs) (opCode : OpCode) (root : Fin n) (k : Fin len)
    {i : Fin n} {l : List (Fin n)} (hnodup : (i :: l).Nodup) :
    (accumulate opCode root xs k i l).toInt =
      ∑ j ∈ (i :: l).toFinset, contribution opCode root xs j k := by
  unfold accumulate
  rw [satAdd_foldl (by decide) (contribution_fits hM opCode root k)
    (fun j _ => Finset.mem_univ j) hnodup]
  exact Finset.sum_congr rfl fun j _ => word_toInt hM opCode root j k

/-- When all members have arrived, that is what the C layer delivers. -/
theorem accumulate_complete (hM : 0 < maxAbsValue xs) {opCode : OpCode} {root m : Fin n}
    (hm : receives opCode root m) (k : Fin len) {i : Fin n} {l : List (Fin n)}
    (hnodup : (i :: l).Nodup) (hall : ∀ j, j ∈ i :: l) :
    (accumulate opCode root xs k i l).toInt = postCollective opCode root (quantised xs) m k := by
  have huniv : (i :: l).toFinset = Finset.univ :=
    Finset.eq_univ_of_forall fun j => List.mem_toFinset.mpr (hall j)
  rw [accumulate_eq hM opCode root k hnodup, huniv, postCollective, if_pos hm]
  rfl

/-! ## 2. What the members get -/

/-- An `all_reduce` that does not fall back. -/
theorem allReduce_eq (hM : 0 < maxAbsValue xs) {g : ProcessGroup n} {first : Fin n}
    {ys : Fin n → Tensor len} (h : allReduce g first xs = some ys) (i : Fin n) (k : Fin len) :
    ys i k = ((∑ j, quantised xs j k : ℤ) : ℚ) / factor xs := by
  unfold allReduce callCollective at h
  rw [if_neg hM.ne'] at h
  split at h
  · cases h
  · cases h
    simp [needRx, callCCollective, g.getGroupRank_globalRank, postCollective, receives, sends]

/-- The C layer's reduce: the root has the sum of the others' integers. -/
theorem postCollective_reduce (root i : Fin n) (ints : Fin n → IntTensor len) (k : Fin len) :
    postCollective .reduce root ints i k =
      if i = root then ∑ j ∈ Finset.univ.erase root, ints j k else ints i k := by
  have hother : ∀ j, sends .reduce root j = true ↔ j ≠ root := by
    intro j
    rw [ne_comm]
    simp [sends]
  have hself : receives .reduce root i = true ↔ i = root := by
    rw [eq_comm (a := i)]
    simp [receives]
  unfold postCollective
  simp only [hother, hself, ← Finset.sum_filter]
  congr 2
  ext j
  simp

/-- **A reduce** that does not fall back.  The member whose GROUP rank is the root's global
rank adds the integers it finds to its own scaled values; all others have their input. -/
theorem reduce_eq (hM : maxAbsValue xs ≠ 0) {g : ProcessGroup n} {root : Fin n}
    {ys : Fin n → Tensor len} (h : reduce g (g.globalRank root) xs = some ys) (i : Fin n)
    (k : Fin len) :
    ys i k =
      if i.val = g.globalRank root then
        (scaled xs i k + ((if i = root then ∑ j ∈ Finset.univ.erase root, quantised xs j k
          else quantised xs i k : ℤ) : ℚ)) / factor xs
      else xs i k := by
  have hrx : needRx .reduce i (g.globalRank root) = decide (i.val = g.globalRank root) := by
    simp [needRx, beq_eq_decide]
  unfold reduce callCollective at h
  rw [if_neg hM] at h
  split at h
  · cases h
  · cases h
    simp only [hrx, decide_eq_true_eq, callCCollective, g.getGroupRank_globalRank,
      postCollective_reduce]
    split
    · rfl
    · exact scaled_div hM i k

/-- The true sum, scaled and scaled back. -/
theorem sum_eq_scaled (hM : 0 < maxAbsValue xs) (k : Fin len) :
    ∑ j, xs j k = (∑ j, scaled xs j k) / factor xs := by
  rw [Finset.sum_div]
  exact Finset.sum_congr rfl fun j _ => (scaled_div hM.ne' j k).symm

/-- `factor` units make one. -/
theorem error_of_units (hM : 0 < maxAbsValue xs) {z y : ℚ} (h : |z - y| < n) :
    |z / factor xs - y / factor xs| < n * maxAbsValue xs / quantMax := by
  have hpos := factor_pos hM
  have hunit : (n : ℚ) * maxAbsValue xs / quantMax = n / factor xs := by
    rw [factor, div_div_eq_mul_div]
  rw [← sub_div, abs_div, abs_of_pos hpos, hunit]
  exact div_lt_div_of_pos_right h hpos

/-- **An `all_reduce` is off by less than `n` units.** -/
theorem allReduce_error (hM : 0 < maxAbsValue xs) {g : ProcessGroup n} {first : Fin n}
    {ys : Fin n → Tensor len} (h : allReduce g first xs = some ys) (i : Fin n) (k : Fin len) :
    |ys i k - ∑ j, xs j k| < n * maxAbsValue xs / quantMax := by
  have herror := sum_truncate_error ⟨first, Finset.mem_univ first⟩ fun j => scaled xs j k
  rw [Finset.card_univ, Fintype.card_fin] at herror
  rw [allReduce_eq hM h, sum_eq_scaled hM]
  exact error_of_units hM herror

/-- **A `reduce` is off by less than `n` units** at the root, where the root is the member that
adds its own values: these are not truncated. -/
theorem reduce_error (hM : 0 < maxAbsValue xs) {g : ProcessGroup n} {root : Fin n}
    {ys : Fin n → Tensor len} (h : reduce g (g.globalRank root) xs = some ys)
    (hroot : needRx .reduce root (g.globalRank root)) (k : Fin len) :
    |ys root k - ∑ j, xs j k| < n * maxAbsValue xs / quantMax := by
  have hrank : root.val = g.globalRank root := by
    simpa [needRx] using hroot
  have herror := sum_truncate_error_le (Finset.univ.erase root) fun j => scaled xs j k
  have hcard : ((Finset.univ.erase root).card : ℚ) < n := by
    have hlt : (Finset.univ.erase root).card < n := by
      rw [Finset.card_erase_of_mem (Finset.mem_univ root), Finset.card_univ, Fintype.card_fin]
      exact Nat.sub_lt root.pos Nat.one_pos
    exact_mod_cast hlt
  rw [reduce_eq hM.ne' h, if_pos hrank, if_pos rfl, sum_eq_scaled hM,
    ← Finset.add_sum_erase _ (fun j => scaled xs j k) (Finset.mem_univ root)]
  refine error_of_units hM ?_
  rw [add_sub_add_left_eq_sub]
  exact lt_of_le_of_lt herror hcard

/-! ## 3. The result -/

/-- **Quantisation does not saturate, and has a bounded error.**  The sum of the integers of any
members fits a word; accumulated with saturation, the packets of any members, in any order,
leave exactly their sum, which is what the C layer delivers once all have arrived; and the
result of an `all_reduce` or, at the root that adds its own values, of a `reduce` is off by
less than `n * max_abs_value / 0x7fffff80`. -/
theorem quantisation_bounded (g : ProcessGroup n) (xs : Fin n → Tensor len)
    (hM : 0 < maxAbsValue xs) :
    (∀ k (s : Finset (Fin n)), |∑ i ∈ s, quantised xs i k| ≤ 2 ^ 31 - 1) ∧
      (∀ opCode root k i l, (i :: l).Nodup →
        (accumulate opCode root xs k i l).toInt =
            ∑ j ∈ (i :: l).toFinset, contribution opCode root xs j k ∧
          ((∀ j, j ∈ i :: l) → ∀ m, receives opCode root m →
            (accumulate opCode root xs k i l).toInt =
              postCollective opCode root (quantised xs) m k)) ∧
      (∀ first ys, allReduce g first xs = some ys →
        ∀ i k, |ys i k - ∑ j, xs j k| < n * maxAbsValue xs / quantMax) ∧
      ∀ root ys, reduce g (g.globalRank root) xs = some ys →
        needRx .reduce root (g.globalRank root) →
        ∀ k, |ys root k - ∑ j, xs j k| < n * maxAbsValue xs / quantMax := by
  refine ⟨fun k s => ?_, fun opCode root k i l hnodup => ⟨?_, fun hall m hm => ?_⟩,
    fun first ys h => allReduce_error hM h, fun root ys h => reduce_error hM h⟩
  · exact (sum_quantised_le hM s k).trans (by norm_num)
  · exact accumulate_eq hM opCode root k hnodup
  · exact accumulate_complete hM hm k hnodup hall

/-- The world group of two ranks, and a tensor on each. -/
def worldPair : ProcessGroup 2 := ⟨Fin.val, Fin.val_injective⟩

def pairTensors : Fin 2 → Tensor 1 := fun i _ => if i = 0 then 1 else -1 / 10

/-- Whichever arrives first, the two integers add up exactly; and both collectives are done by
the C layer, and close to the sum. -/
theorem quantisation_bounded_pair :
    (accumulate .allReduce 0 pairTensors 0 1 [0]).toInt =
      ∑ j ∈ {1, 0}, contribution .allReduce 0 pairTensors j 0 ∧
    (∃ ys, allReduce worldPair 0 pairTensors = some ys ∧
      ∀ i, |ys i 0 - 9 / 10| < 2 * (11 / 10) / quantMax) ∧
    ∃ ys, reduce worldPair 1 pairTensors = some ys ∧
      |ys 1 0 - 9 / 10| < 2 * (11 / 10) / quantMax := by
  have hmax : maxAbsValue pairTensors = 11 / 10 := by decide +kernel
  have hsum : ∑ j, pairTensors j 0 = 9 / 10 := by decide +kernel
  have hlarge : quantMax / floatMax ≤ maxAbsValue pairTensors := by decide +kernel
  obtain ⟨-, hacc, hall, hred⟩ :=
    quantisation_bounded worldPair pairTensors (by rw [hmax]; norm_num)
  refine ⟨(hacc .allReduce 0 0 1 [0] (by decide)).1, ?_, ?_⟩
  · obtain ⟨ys, hys⟩ := Option.isSome_iff_exists.mp
      ((allReduce_isSome_iff worldPair 0 pairTensors).mpr (Or.inr hlarge))
    refine ⟨ys, hys, fun i => ?_⟩
    have hclose := hall 0 ys hys i 0
    rwa [hsum, hmax] at hclose
  · obtain ⟨ys, hys⟩ := Option.isSome_iff_exists.mp
      ((reduce_isSome_iff worldPair 1 pairTensors).mpr (Or.inr hlarge))
    have hclose := hred 1 ys hys (by decide) 0
    rw [hsum, hmax] at hclose
    exact ⟨ys, hys, hclose⟩

end NetCCL.Frontend.Collective
