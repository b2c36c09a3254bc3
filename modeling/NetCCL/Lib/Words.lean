/-
# Machine words: bit vectors as finite sets, saturating sums, counters that wrap

Three facts about fixed-width words that hardware counters rest on.

* A word used as a BITMAP is a finite set of indices.  `bits` is that set, and
  `bits_or`, `bits_xor_of_mem`, `bits_mask` say what the bitwise operations do to it.
* A saturating addition is an addition as long as nothing saturates.  `SubsetFits` is the
  hypothesis that makes a saturating ACCUMULATION order-independent: every subset sum fits
  the word.  Under it, `satAdd_sum` adds one more summand to a partial sum exactly.
* A COUNTER that wraps, taken modulo `d`, tells apart values less than `d` from each other
  exactly when `d` divides its range (`residues_apart_iff`).
-/
import Mathlib.Algebra.BigOperators.Group.Finset.Basic
import Mathlib.Data.Nat.ModEq

namespace NetCCL.Lib

/-! ## 1. Bitmaps -/

/-- The indices whose bit is set. -/
def bits {w : ℕ} (b : BitVec w) : Finset ℕ := (Finset.range w).filter fun i => b.getLsbD i = true

@[simp] theorem mem_bits {w i : ℕ} {b : BitVec w} : i ∈ bits b ↔ b.getLsbD i = true := by
  simp only [bits, Finset.mem_filter, Finset.mem_range, and_iff_right_iff_imp]
  exact BitVec.lt_of_getLsbD

/-- A bitmap is determined by its set. -/
theorem bits_inj {w : ℕ} {b c : BitVec w} : bits b = bits c ↔ b = c := by
  constructor
  · intro h
    refine BitVec.eq_of_getLsbD_eq fun i _ => Bool.eq_iff_iff.mpr ?_
    rw [← mem_bits, h, mem_bits]
  · rintro rfl; rfl

@[simp] theorem bits_zero (w : ℕ) : bits (0#w) = ∅ := by
  ext i; simp

theorem bits_eq_empty {w : ℕ} {b : BitVec w} : bits b = ∅ ↔ b = 0#w := by
  rw [← bits_zero w, bits_inj]

@[simp] theorem bits_or {w : ℕ} (b c : BitVec w) : bits (b ||| c) = bits b ∪ bits c := by
  ext i; simp

/-- A single bit. -/
@[simp] theorem bits_one_shiftLeft {w r : ℕ} (hr : r < w) : bits (1#w <<< r) = {r} := by
  ext i
  rw [← BitVec.twoPow_eq, mem_bits, BitVec.getLsbD_twoPow]
  simp [hr, eq_comm]

/-- The mask of the first `n` bits. -/
@[simp] theorem bits_mask {w n : ℕ} (hn : n ≤ w) :
    bits (BitVec.ofNat w (2 ^ n - 1)) = Finset.range n := by
  ext i
  rw [mem_bits, BitVec.getLsbD_ofNat, Nat.testBit_two_pow_sub_one]
  simp only [Bool.and_eq_true, decide_eq_true_eq, Finset.mem_range]
  omega

/-- Flipping a bit that is set removes it. -/
theorem bits_xor_of_mem {w r : ℕ} (hr : r < w) {b : BitVec w} (hb : r ∈ bits b) :
    bits (1#w <<< r ^^^ b) = (bits b).erase r := by
  ext i
  have h1 : (1#w <<< r).getLsbD i = true ↔ i = r := by
    rw [← mem_bits, bits_one_shiftLeft hr, Finset.mem_singleton]
  rw [mem_bits] at hb
  rw [mem_bits, BitVec.getLsbD_xor, Finset.mem_erase, mem_bits]
  rcases Nat.decEq i r with hne | rfl
  · have : (1#w <<< r).getLsbD i = false := by simpa [hne] using h1
    simp [this, hne]
  · simp [h1.mpr rfl, hb]

/-- The bit `r` is clear exactly when masking it out leaves nothing. -/
theorem and_one_shiftLeft_eq_zero {w r : ℕ} (hr : r < w) (b : BitVec w) :
    b &&& 1#w <<< r = 0#w ↔ r ∉ bits b := by
  rw [← bits_inj, bits_zero, Finset.eq_empty_iff_forall_notMem]
  have h1 : ∀ i, (1#w <<< r).getLsbD i = true ↔ i = r := by
    intro i
    rw [← mem_bits, bits_one_shiftLeft hr, Finset.mem_singleton]
  constructor
  · intro h hb
    refine h r (mem_bits.mpr ?_)
    rw [BitVec.getLsbD_and, mem_bits.mp hb, (h1 r).mpr rfl]
    rfl
  · intro h i hi
    rw [mem_bits, BitVec.getLsbD_and, Bool.and_eq_true, h1] at hi
    exact h (mem_bits.mpr (hi.2 ▸ hi.1))

/-! ## 2. Saturating sums -/

/-- `|+|` on signed words. -/
def satAdd {w : ℕ} (x y : BitVec w) : BitVec w :=
  BitVec.ofInt w (max (-2 ^ (w - 1)) (min (2 ^ (w - 1) - 1) (x.toInt + y.toInt)))

/-- The number fits a signed word. -/
def Fits (w : ℕ) (z : ℤ) : Prop := -2 ^ (w - 1) ≤ z ∧ z < 2 ^ (w - 1)

/-- A sum that fits does not saturate. -/
theorem satAdd_toInt {w : ℕ} (hw : 0 < w) {x y : BitVec w} (h : Fits w (x.toInt + y.toInt)) :
    (satAdd x y).toInt = x.toInt + y.toInt := by
  obtain ⟨hlo, hhi⟩ := h
  rw [satAdd, min_eq_right (by omega), max_eq_right hlo, BitVec.toInt_ofInt_eq_self hw hlo hhi]

variable {ι : Type*} [DecidableEq ι]

/-- Every sum of `f` over a subset of `s` fits. -/
def SubsetFits {w : ℕ} (s : Finset ι) (f : ι → BitVec w) : Prop :=
  ∀ t ⊆ s, Fits w (∑ i ∈ t, (f i).toInt)

/-- **One more summand.**  Under `SubsetFits`, a saturating accumulator that holds the sum
over `t` holds the sum over `insert i t` next. -/
theorem satAdd_sum {w : ℕ} (hw : 0 < w) {s t : Finset ι} {f : ι → BitVec w} {acc : BitVec w}
    {i : ι} (hfit : SubsetFits s f) (ht : t ⊆ s) (his : i ∈ s) (hit : i ∉ t)
    (hacc : acc.toInt = ∑ j ∈ t, (f j).toInt) :
    (satAdd acc (f i)).toInt = ∑ j ∈ insert i t, (f j).toInt := by
  have hsum : acc.toInt + (f i).toInt = ∑ j ∈ insert i t, (f j).toInt := by
    rw [Finset.sum_insert hit, hacc, add_comm]
  rw [satAdd_toInt hw (hsum ▸ hfit _ (Finset.insert_subset his ht)), hsum]

/-- **A whole accumulation.**  Under `SubsetFits`, distinct summands in any order leave their
sum in the accumulator, and so does every prefix of that order. -/
theorem satAdd_foldl {w : ℕ} (hw : 0 < w) {s : Finset ι} {f : ι → BitVec w}
    (hfit : SubsetFits s f) {i : ι} {l : List ι} (hsub : ∀ j ∈ i :: l, j ∈ s)
    (hnodup : (i :: l).Nodup) :
    (l.foldl (fun acc j => satAdd acc (f j)) (f i)).toInt =
      ∑ j ∈ (i :: l).toFinset, (f j).toInt := by
  induction l using List.reverseRecOn with
  | nil => simp
  | append_singleton l j ih =>
    have hnodup' : (i :: l).Nodup := by
      rw [← List.cons_append] at hnodup
      exact hnodup.of_append_left
    have hnew : j ∉ (i :: l).toFinset := by
      rw [← List.cons_append] at hnodup
      intro hj
      exact (List.nodup_append.mp hnodup).2.2 j (List.mem_toFinset.mp hj) j (by simp) rfl
    have hsub' : ∀ k ∈ i :: l, k ∈ s := fun k hk => hsub k (by
      rw [← List.cons_append]
      exact List.mem_append_left _ hk)
    have hpart : (i :: l).toFinset ⊆ s := by
      intro k hk
      exact hsub' k (List.mem_toFinset.mp hk)
    have hall : (i :: (l ++ [j])).toFinset = insert j (i :: l).toFinset := by
      ext k
      simp [or_left_comm]
    rw [List.foldl_append, List.foldl_cons, List.foldl_nil, hall]
    exact satAdd_sum hw hfit hpart (hsub j (by simp)) hnew (ih hsub' hnodup')

/-! ## 3. Counters that wrap -/

/-- In a range that `d` divides, equal residues are a multiple of `d` apart, also across the
wrap. -/
theorem toNat_sub_mod {w d : ℕ} (hdvd : d ∣ 2 ^ w) {p q : BitVec w}
    (h : p.toNat % d = q.toNat % d) : (q - p).toNat % d = 0 := by
  have hp := p.isLt
  have hwrap : 2 ^ w - p.toNat + q.toNat + p.toNat ≡ 0 + p.toNat [MOD d] := by
    have hback : 2 ^ w - p.toNat + q.toNat + p.toNat = 2 ^ w + q.toNat := by omega
    rw [hback]
    exact ((Nat.modEq_zero_iff_dvd.mpr hdvd).add_right _).trans (Nat.ModEq.add_left 0 h.symm)
  rw [BitVec.toNat_sub, Nat.mod_mod_of_dvd _ hdvd]
  exact Nat.ModEq.add_right_cancel' _ hwrap

/-- **When residues of a wrapping counter tell near values apart.** -/
theorem residues_apart_iff {w d : ℕ} (hd : 0 < d) (hle : d ≤ 2 ^ w) :
    (∀ p q : BitVec w, p ≠ q → (q - p).toNat < d → p.toNat % d ≠ q.toNat % d) ↔ d ∣ 2 ^ w := by
  constructor
  · intro h
    by_contra hdvd
    have hpos : 0 < 2 ^ w % d := Nat.pos_of_ne_zero fun h0 => hdvd (Nat.dvd_of_mod_eq_zero h0)
    have hlt : 2 ^ w % d < d := Nat.mod_lt _ hd
    -- the last value, and the one that many values after it
    have hp : (BitVec.ofNat w (2 ^ w - 1)).toNat = 2 ^ w - 1 := by
      rw [BitVec.toNat_ofNat, Nat.mod_eq_of_lt (by omega)]
    have hq : (BitVec.ofNat w (2 ^ w % d - 1)).toNat = 2 ^ w % d - 1 := by
      rw [BitVec.toNat_ofNat, Nat.mod_eq_of_lt (by omega)]
    refine h (BitVec.ofNat w (2 ^ w - 1)) (BitVec.ofNat w (2 ^ w % d - 1)) (fun he => ?_) ?_ ?_
    · have hval := congrArg BitVec.toNat he
      omega
    · have hdist : 2 ^ w - (2 ^ w - 1) + (2 ^ w % d - 1) = 2 ^ w % d := by omega
      rw [BitVec.toNat_sub, hp, hq, hdist, Nat.mod_eq_of_lt (by omega)]
      exact hlt
    · have hdiv := Nat.div_add_mod (2 ^ w) d
      have hlast : 2 ^ w - 1 = (2 ^ w % d - 1) + d * (2 ^ w / d) := by omega
      rw [hp, hq, hlast, Nat.add_mul_mod_self_left]
  · intro hdvd p q hne hlt heq
    have hzero := toNat_sub_mod hdvd heq
    rw [Nat.mod_eq_of_lt hlt] at hzero
    have hsub : q - p = 0#w := BitVec.eq_of_toNat_eq hzero
    exact hne (by grind)

end NetCCL.Lib
