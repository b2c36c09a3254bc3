/-
# The load balancer's cut

`try_post_op` deals the 32-bit words of an op out to the workers, the first `size % nworker`
of them getting one word more, and gives the bytes that are left over to the last worker.
It also divides the group's aggregator slots evenly among the workers.

* `subOps_eq`: what each worker is given;
* `shares_tile`: the parts of an op tile it, in the order of the workers.
-/
import NetCCL.Common
import NetCCL.Lib.Tiling
import Mathlib.Algebra.Ring.Nat

namespace NetCCL.Backend

open Lib

/-- `sub_size` of worker `i`, for an op of a size. -/
def subSize (size nworker i : ℕ) : ℕ :=
  let sizeInInt32 := size / 4
  let additionalSize := size % 4
  let subSizeInInt32 := sizeInInt32 / nworker + if i < sizeInInt32 % nworker then 1 else 0
  subSizeInInt32 * 4 + if i = nworker - 1 then additionalSize else 0

/-- The sub-op of worker `i`; the slot address and length are `agg_size_t`. -/
def subOp (op : Op) (nworker i offset : ℕ) : SubOp :=
  let aggLen := op.group.aggLen / nworker
  { op, data := op.shmBuffer + offset, size := subSize op.size nworker i
    aggAddr := (op.group.aggAddr + aggLen * i) % 2 ^ 16, aggLen := aggLen % 2 ^ 16 }

/-- The loop of `try_post_op`: `k` workers are left, the next is `i`. -/
def subOpsFrom (op : Op) (nworker : ℕ) : (k i offset : ℕ) → List SubOp
  | 0, _, _ => []
  | k + 1, i, offset =>
    subOp op nworker i offset :: subOpsFrom op nworker k (i + 1) (offset + subSize op.size nworker i)

/-- The sub-ops `try_post_op` pushes, by worker. -/
def subOps (op : Op) (nworker : ℕ) : List SubOp := subOpsFrom op nworker nworker 0 0

/-- The bytes of an op and of a sub-op. -/
def opSpan (op : Op) : Span := ⟨op.shmBuffer, op.size⟩
def subOpSpan (s : SubOp) : Span := ⟨s.data, s.size⟩

/-- Where worker `i` starts: the words dealt to the workers before it. -/
def subOffset (size nworker i : ℕ) : ℕ :=
  4 * (i * (size / 4 / nworker) + min i (size / 4 % nworker))

theorem subOffset_succ (size : ℕ) {nworker i : ℕ} (hi : i + 1 < nworker) :
    subOffset size nworker i + subSize size nworker i = subOffset size nworker (i + 1) := by
  simp only [subOffset, subSize, Nat.succ_mul]
  rw [if_neg (by omega : ¬ i = nworker - 1)]
  generalize size / 4 / nworker = q, size / 4 % nworker = r
  split <;> omega

theorem subOffset_last (size : ℕ) {nworker i : ℕ} (hi : i + 1 = nworker) :
    subOffset size nworker i + subSize size nworker i = size := by
  have hdiv := Nat.div_add_mod (size / 4) nworker
  have hmod := Nat.mod_lt (size / 4) (show 0 < nworker by omega)
  have hmul : nworker * (size / 4 / nworker) =
      i * (size / 4 / nworker) + size / 4 / nworker := by rw [← hi, Nat.succ_mul]
  simp only [subOffset, subSize]
  rw [if_pos (by omega : i = nworker - 1)]
  generalize size / 4 / nworker = q at *
  generalize size / 4 % nworker = r at *
  split <;> omega

/-- The loop, in closed form. -/
theorem subOpsFrom_eq (op : Op) (nworker : ℕ) :
    ∀ k i, i + k = nworker → subOpsFrom op nworker k i (subOffset op.size nworker i) =
      (List.range' i k).map fun j => subOp op nworker j (subOffset op.size nworker j)
  | 0, _, _ => rfl
  | 1, _, _ => rfl
  | k + 2, i, h => by
    have hrest := subOpsFrom_eq op nworker (k + 1) (i + 1) (by omega)
    rw [subOpsFrom, List.range'_succ, List.map_cons, subOffset_succ _ (by omega), hrest]

/-- **What each worker is given.** -/
theorem subOps_eq (op : Op) (nworker : ℕ) :
    subOps op nworker =
      (List.range nworker).map fun i => subOp op nworker i (subOffset op.size nworker i) := by
  have h0 : subOffset op.size nworker 0 = 0 := by simp [subOffset]
  have h := subOpsFrom_eq op nworker nworker 0 (Nat.zero_add _)
  rwa [h0, ← List.range_eq_range'] at h

theorem subOps_length (op : Op) (nworker : ℕ) : (subOps op nworker).length = nworker := by
  rw [subOps_eq, List.length_map, List.length_range]

/-- The bytes of an op worker `i` deals with. -/
def share (size nworker i : ℕ) : Span := ⟨subOffset size nworker i, subSize size nworker i⟩

theorem tiles_share (size nworker : ℕ) :
    ∀ k i, i + (k + 1) = nworker →
      Tiles (subOffset size nworker i) ((List.range' i (k + 1)).map (share size nworker)) size
  | 0, i, h => tiles_cons_iff.mpr ⟨rfl, tiles_nil_iff.mpr (subOffset_last size h)⟩
  | k + 1, i, h => by
    have hsucc : (share size nworker i).stop = subOffset size nworker (i + 1) :=
      subOffset_succ size (by omega)
    rw [List.range'_succ, List.map_cons]
    refine tiles_cons_iff.mpr ⟨rfl, ?_⟩
    exact hsucc ▸ tiles_share size nworker k (i + 1) (by omega)

/-- **The workers' shares tile the op.** -/
theorem shares_tile (size : ℕ) {nworker : ℕ} (hn : 1 ≤ nworker) :
    Tiles 0 ((List.range nworker).map (share size nworker)) size := by
  have h := tiles_share size nworker (nworker - 1) 0 (by omega)
  have h0 : subOffset size nworker 0 = 0 := by simp [subOffset]
  rwa [h0, Nat.sub_add_cancel hn, ← List.range_eq_range'] at h

/-- The sub-ops of an op tile its buffer. -/
theorem subOps_tiles (op : Op) {nworker : ℕ} (hn : 1 ≤ nworker) :
    Tiles op.shmBuffer ((subOps op nworker).map subOpSpan) (opSpan op).stop := by
  have h := (shares_tile op.size hn).shift op.shmBuffer
  rw [Nat.add_zero, List.map_map] at h
  rw [subOps_eq, List.map_map]
  exact h

/-- For the ops the switch adds, whose size is a number of words, so is every part's. -/
theorem four_dvd_subSize {size : ℕ} (h : 4 ∣ size) (nworker i : ℕ) :
    4 ∣ subSize size nworker i := by
  have h0 : size % 4 = 0 := Nat.mod_eq_zero_of_dvd h
  simp only [subSize, h0, ite_self, Nat.add_zero]
  exact Nat.dvd_mul_left _ _

end NetCCL.Backend
