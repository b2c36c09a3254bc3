/-
# Collectives on float tensors

`call_collective` (`frontend/src/py/__init__.py`), for the ops that reduce: the switch adds
integers, so a tensor is scaled by a common factor, truncated, reduced by the C layer, and
scaled back.  The functions here run a collective on all members of a process group at once;
member `i` is the one with group rank `i`.

Floats are rationals, and arithmetic is exact.  Of the C layer only its effect is stated
(`postCollective`): the integers of the members that send, added up, on the members that
receive, where sending and receiving go by GROUP ranks.
-/
import NetCCL.Common
import NetCCL.Lib.Truncate

namespace NetCCL.Frontend.Collective

open Lib

/-! ## 1. Groups and tensors -/

/-- A process group: its members' global ranks, by group rank.  `globalRank` is
`dist.get_global_rank`. -/
structure ProcessGroup (n : ℕ) where
  globalRank : Fin n → ℕ
  distinct : Function.Injective globalRank

variable {n len : ℕ}

/-- `dist.get_group_rank`; `none` stands for the exception it raises for a rank that is not in
the group. -/
def ProcessGroup.getGroupRank (g : ProcessGroup n) (rank : ℕ) : Option (Fin n) :=
  (List.finRange n).find? fun i => g.globalRank i = rank

theorem ProcessGroup.getGroupRank_globalRank (g : ProcessGroup n) (i : Fin n) :
    g.getGroupRank (g.globalRank i) = some i := by
  unfold getGroupRank
  cases hfind : (List.finRange n).find? fun j => g.globalRank j = g.globalRank i with
  | none =>
    have := List.find?_eq_none.mp hfind i (List.mem_finRange i)
    simp at this
  | some j =>
    have hj := List.find?_some hfind
    rw [g.distinct (of_decide_eq_true hj)]

/-- A tensor of floats, flattened, and one of `torch.int32`. -/
abbrev Tensor (len : ℕ) := Fin len → ℚ
abbrev IntTensor (len : ℕ) := Fin len → ℤ

/-- `tensor.abs().max()`. -/
def maxAbs (x : Tensor len) : ℚ := ((List.finRange len).map fun k => |x k|).foldr max 0

/-- `torch.finfo(torch.float32).max`. -/
def floatMax : ℚ := 2 ^ 128 - 2 ^ 104

/-- `0x7fffff80`, the largest float below `2^31`. -/
def quantMax : ℚ := 0x7fffff80

/-! ## 2. The collective -/

/-- `need_tx` and `need_rx`, by group ranks, for the ops that reduce. -/
def sends (opCode : OpCode) (root i : Fin n) : Bool :=
  opCode == .allReduce || (opCode == .reduce && root != i)

def receives (opCode : OpCode) (root i : Fin n) : Bool :=
  opCode == .allReduce || (opCode == .reduce && root == i)

/-- The effect of `netccl._C.post_collective` on all members. -/
def postCollective (opCode : OpCode) (root : Fin n) (ints : Fin n → IntTensor len) :
    Fin n → IntTensor len := fun i k =>
  if receives opCode root i then ∑ j, if sends opCode root j then ints j k else 0 else ints i k

/-- `call_c_collective`, which goes from global to group ranks, and swallows an exception. -/
def callCCollective (g : ProcessGroup n) (opCode : OpCode) (rootGlobalRank : ℕ)
    (ints : Fin n → IntTensor len) : Fin n → IntTensor len :=
  match g.getGroupRank rootGlobalRank with
  | none => ints
  | some root => postCollective opCode root ints

/-- `max_abs_value`: the members' maxima, added up. -/
def maxAbsValue (xs : Fin n → Tensor len) : ℚ := ∑ i, maxAbs (xs i)

/-- `factor`. -/
def factor (xs : Fin n → Tensor len) : ℚ := quantMax / maxAbsValue xs

/-- `need_rx` of `call_collective`: `group_ctx.rank` is a group rank. -/
def needRx (opCode : OpCode) (rank : Fin n) (rootGlobalRank : ℕ) : Bool :=
  opCode == .allReduce || (opCode == .reduce && rank.val == rootGlobalRank)

/-- The scaled tensors, and the integers they are truncated to. -/
def scaled (xs : Fin n → Tensor len) : Fin n → Tensor len := fun i k => xs i k * factor xs

def quantised (xs : Fin n → Tensor len) : Fin n → IntTensor len := fun i k =>
  truncate (scaled xs i k)

/-- `call_collective` on all members of a group with an INC context, for the ops that reduce;
`none` when it goes to `fallback_collective`. -/
def callCollective (g : ProcessGroup n) (opCode : OpCode) (rootGlobalRank : ℕ)
    (xs : Fin n → Tensor len) : Option (Fin n → Tensor len) :=
  if maxAbsValue xs = 0 then some xs
  else if factor xs > floatMax then none
  else
    let ints := callCCollective g opCode rootGlobalRank (quantised xs)
    some fun i k =>
      let t :=
        if needRx opCode i rootGlobalRank then
          if opCode = .allReduce then (ints i k : ℚ) else scaled xs i k + ints i k
        else scaled xs i k
      t / factor xs

/-- `all_reduce`; the root it passes is the first member. -/
def allReduce (g : ProcessGroup n) (first : Fin n) (xs : Fin n → Tensor len) :
    Option (Fin n → Tensor len) :=
  callCollective g .allReduce (g.globalRank first) xs

/-- `reduce`. -/
def reduce (g : ProcessGroup n) (dst : ℕ) (xs : Fin n → Tensor len) :
    Option (Fin n → Tensor len) :=
  callCollective g .reduce dst xs

/-! ## 3. The integers -/

theorem foldr_max_nonneg (l : List ℚ) : 0 ≤ l.foldr max 0 := by
  induction l with
  | nil => exact le_refl 0
  | cons q l ih => exact le_max_of_le_right ih

theorem le_foldr_max {l : List ℚ} {q : ℚ} (h : q ∈ l) : q ≤ l.foldr max 0 := by
  induction l with
  | nil => exact absurd h List.not_mem_nil
  | cons q' l ih =>
    rcases List.mem_cons.mp h with rfl | h
    · exact le_max_left _ _
    · exact le_max_of_le_right (ih h)

theorem abs_le_maxAbs (x : Tensor len) (k : Fin len) : |x k| ≤ maxAbs x :=
  le_foldr_max (List.mem_map.mpr ⟨k, List.mem_finRange k, rfl⟩)

theorem maxAbs_nonneg (x : Tensor len) : 0 ≤ maxAbs x := foldr_max_nonneg _

theorem maxAbsValue_nonneg (xs : Fin n → Tensor len) : 0 ≤ maxAbsValue xs :=
  Finset.sum_nonneg fun i _ => maxAbs_nonneg (xs i)

/-- No sum of absolute values, of one element over some members, exceeds `max_abs_value`. -/
theorem sum_abs_le (xs : Fin n → Tensor len) (s : Finset (Fin n)) (k : Fin len) :
    ∑ i ∈ s, |xs i k| ≤ maxAbsValue xs := by
  calc ∑ i ∈ s, |xs i k| ≤ ∑ i ∈ s, maxAbs (xs i) :=
        Finset.sum_le_sum fun i _ => abs_le_maxAbs (xs i) k
    _ ≤ maxAbsValue xs :=
        Finset.sum_le_sum_of_subset_of_nonneg (Finset.subset_univ s)
          fun i _ _ => maxAbs_nonneg (xs i)

theorem eq_zero_of_maxAbsValue {xs : Fin n → Tensor len} (h : maxAbsValue xs = 0) (i : Fin n)
    (k : Fin len) : xs i k = 0 := by
  have hle := sum_abs_le xs {i} k
  rw [Finset.sum_singleton, h] at hle
  exact abs_nonpos_iff.mp hle

variable {xs : Fin n → Tensor len}

theorem factor_pos (hM : 0 < maxAbsValue xs) : 0 < factor xs :=
  div_pos (by norm_num [quantMax]) hM

/-- Scaling back undoes scaling. -/
theorem scaled_div (hM : maxAbsValue xs ≠ 0) (i : Fin n) (k : Fin len) :
    scaled xs i k / factor xs = xs i k := by
  have hpos : 0 < maxAbsValue xs := lt_of_le_of_ne (maxAbsValue_nonneg xs) hM.symm
  exact mul_div_cancel_right₀ _ (factor_pos hpos).ne'

/-! ## 4. The fallback -/

theorem floatMax_pos : 0 < floatMax := by norm_num [floatMax]

/-- **A collective is done by the C layer** unless the maxima add up to so little that the
factor is no float. -/
theorem callCollective_isSome_iff (g : ProcessGroup n) (opCode : OpCode) (rootGlobalRank : ℕ)
    (xs : Fin n → Tensor len) :
    (callCollective g opCode rootGlobalRank xs).isSome = true ↔
      maxAbsValue xs = 0 ∨ quantMax / floatMax ≤ maxAbsValue xs := by
  rw [callCollective]
  split
  · rename_i hM
    exact iff_of_true rfl (Or.inl hM)
  · rename_i hM
    have hpos : 0 < maxAbsValue xs := lt_of_le_of_ne (maxAbsValue_nonneg xs) (Ne.symm hM)
    have hfactor : quantMax / floatMax ≤ maxAbsValue xs ↔ factor xs ≤ floatMax :=
      div_le_comm₀ floatMax_pos hpos
    rw [or_iff_right hM, hfactor]
    split
    · rename_i hlarge
      exact iff_of_false Bool.false_ne_true (not_le_of_gt hlarge)
    · rename_i hsmall
      exact iff_of_true rfl (le_of_not_gt hsmall)

theorem allReduce_isSome_iff (g : ProcessGroup n) (first : Fin n) (xs : Fin n → Tensor len) :
    (allReduce g first xs).isSome = true ↔
      maxAbsValue xs = 0 ∨ quantMax / floatMax ≤ maxAbsValue xs :=
  callCollective_isSome_iff g .allReduce (g.globalRank first) xs

theorem reduce_isSome_iff (g : ProcessGroup n) (dst : ℕ) (xs : Fin n → Tensor len) :
    (reduce g dst xs).isSome = true ↔
      maxAbsValue xs = 0 ∨ quantMax / floatMax ≤ maxAbsValue xs :=
  callCollective_isSome_iff g .reduce dst xs

end NetCCL.Frontend.Collective
