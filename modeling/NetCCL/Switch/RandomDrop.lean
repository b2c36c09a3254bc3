/-
# Random drops, and comparing by a ternary table

`switch/random_drop.p4`.  The egress pipeline can drop packets at random, to test the hosts: a
packet is dropped when a random number is less than a configured one.  Tofino has no
comparison of two variables in a condition, so `compare` is a table: for each bit, from the
top, an entry for "0 against 1" and one for "1 against 0".  An entry looks at one bit of each
operand only; it is right because every entry before it has failed, and so all higher bits
are equal.

`compareFrom_eq` is the induction over the entries, from the lowest bits up;
`compare_unsigned` the result, at any width.
-/
import NetCCL.Lib.Words

namespace NetCCL.Switch

open Lib

/-! ## 1. Ternary tables -/

/-- A ternary key `value &&& mask`. -/
structure Ternary (w : ℕ) where
  value : BitVec w
  mask : BitVec w

/-- The bits under the mask agree. -/
def Ternary.hits {w : ℕ} (t : Ternary w) (x : BitVec w) : Bool := x &&& t.mask == t.value &&& t.mask

/-- An entry of `compare_table`: the keys of `x` and `y`, and the argument of `set_ret`. -/
structure CompareEntry (w : ℕ) where
  x : Ternary w
  y : Ternary w
  ret : BitVec 2

def CompareEntry.hits {w : ℕ} (e : CompareEntry w) (x y : BitVec w) : Bool :=
  e.x.hits x && e.y.hits y

/-- `compare_table.apply`: the first entry that matches, or the default action. -/
def applyTable {w : ℕ} (entries : List (CompareEntry w)) (x y : BitVec w) : BitVec 2 :=
  ((entries.find? fun e => e.hits x y).map CompareEntry.ret).getD 0

/-! ## 2. The table of `compare` -/

variable {w : ℕ}

/-- `ZERO_ON_BIT` and `ONE_ON_BIT`. -/
def zeroOnBit (w k : ℕ) : Ternary w := ⟨0, 1#w <<< k⟩
def oneOnBit (w k : ℕ) : Ternary w := ⟨1#w <<< k, 1#w <<< k⟩

/-- `CHECK_BIT`. -/
def checkBit (w k : ℕ) : List (CompareEntry w) :=
  [⟨zeroOnBit w k, oneOnBit w k, 3⟩, ⟨oneOnBit w k, zeroOnBit w k, 1⟩]

/-- The entries for the lowest `n` bits. -/
def compareFrom (w : ℕ) : ℕ → List (CompareEntry w)
  | 0 => []
  | n + 1 => checkBit w n ++ compareFrom w n

/-- `compare`, at any width: 0 on `==`, 1 on `>`, -1 (3) on `<`. -/
def compare (x y : BitVec w) : BitVec 2 := applyTable (compareFrom w w) x y

theorem zeroOnBit_hits {k : ℕ} (hk : k < w) (x : BitVec w) :
    (zeroOnBit w k).hits x = !x.getLsbD k := by
  have hbit := and_one_shiftLeft_eq_zero hk x
  rw [mem_bits] at hbit
  have hvalue : (0 : BitVec w) &&& 1#w <<< k = 0#w := BitVec.zero_and
  rw [Bool.eq_iff_iff]
  simp only [Ternary.hits, zeroOnBit, beq_iff_eq, hvalue]
  rw [hbit, Bool.not_eq_true, Bool.not_eq_true']

theorem oneOnBit_hits {k : ℕ} (hk : k < w) (x : BitVec w) :
    (oneOnBit w k).hits x = x.getLsbD k := by
  rw [Bool.eq_iff_iff]
  simp only [Ternary.hits, oneOnBit, BitVec.and_self, beq_iff_eq]
  rw [← bits_inj, bits_one_shiftLeft hk]
  have hbits : bits (x &&& 1#w <<< k) = bits x ∩ {k} := by
    rw [← bits_one_shiftLeft hk]
    ext i
    simp
  rw [hbits, Finset.inter_singleton, ← mem_bits]
  split
  · simp_all
  · simp_all

/-- The entries for one bit decide, or leave it to the rest. -/
theorem applyTable_checkBit {k : ℕ} (hk : k < w) (rest : List (CompareEntry w)) (x y : BitVec w) :
    applyTable (checkBit w k ++ rest) x y =
      if x.getLsbD k = y.getLsbD k then applyTable rest x y
      else if y.getLsbD k then 3 else 1 := by
  simp only [applyTable, checkBit, List.cons_append, List.nil_append, List.find?_cons,
    CompareEntry.hits, zeroOnBit_hits hk, oneOnBit_hits hk]
  cases x.getLsbD k <;> cases y.getLsbD k <;> rfl

/-- One bit more. -/
theorem mod_two_pow_succ (x : BitVec w) (n : ℕ) :
    x.toNat % 2 ^ (n + 1) = x.toNat % 2 ^ n + if x.getLsbD n then 2 ^ n else 0 := by
  rw [Nat.mod_pow_succ, ← BitVec.testBit_toNat, ← Nat.toNat_testBit]
  cases x.toNat.testBit n <;> simp

/-- **The entries for the lowest `n` bits** compare what these bits denote. -/
theorem compareFrom_eq (x y : BitVec w) : ∀ n ≤ w, applyTable (compareFrom w n) x y =
    if x.toNat % 2 ^ n < y.toNat % 2 ^ n then 3
    else if y.toNat % 2 ^ n < x.toNat % 2 ^ n then 1 else 0
  | 0, _ => by
    rw [pow_zero, Nat.mod_one, Nat.mod_one]
    rfl
  | n + 1, hn => by
    have hx := Nat.mod_lt x.toNat (Nat.two_pow_pos n)
    have hy := Nat.mod_lt y.toNat (Nat.two_pow_pos n)
    rw [compareFrom, applyTable_checkBit hn, compareFrom_eq x y n (Nat.le_of_succ_le hn),
      mod_two_pow_succ x n, mod_two_pow_succ y n]
    -- the bits at `n` are equal, or the one that is set decides
    cases x.getLsbD n <;> cases y.getLsbD n
    · simp
    · have hlt : x.toNat % 2 ^ n < y.toNat % 2 ^ n + 2 ^ n := by omega
      simp [hlt]
    · have hlt : y.toNat % 2 ^ n < x.toNat % 2 ^ n + 2 ^ n := by omega
      have hge : ¬ x.toNat % 2 ^ n + 2 ^ n < y.toNat % 2 ^ n := by omega
      simp [hlt, hge]
    · simp

/-- Every entry sets a result that is not the default. -/
theorem compareFrom_ret {e : CompareEntry w} : ∀ {n : ℕ}, e ∈ compareFrom w n → e.ret ≠ 0
  | n + 1, he => by
    rcases List.mem_append.1 he with he | he
    · rw [checkBit, List.mem_pair] at he
      rcases he with rfl | rfl
      · exact (by decide : (3 : BitVec 2) ≠ 0)
      · exact (by decide : (1 : BitVec 2) ≠ 0)
    · exact compareFrom_ret he

/-- So the default is taken exactly when no entry matches. -/
theorem compare_eq_zero (x y : BitVec w) :
    compare x y = 0 ↔ (compareFrom w w).find? (fun e => e.hits x y) = none := by
  rw [compare, applyTable]
  cases hfind : (compareFrom w w).find? fun e => e.hits x y with
  | none => simp
  | some e => simpa using compareFrom_ret (List.mem_of_find?_eq_some hfind)

theorem compare_eq (x y : BitVec w) :
    compare x y = if x < y then 3 else if y < x then 1 else 0 := by
  rw [compare, compareFrom_eq x y w (Nat.le_refl w), Nat.mod_eq_of_lt x.isLt,
    Nat.mod_eq_of_lt y.isLt]
  rfl

/-! ## 3. Dropping -/

/-- `random_drop.apply`, with what `random_generator` returned and the argument of
`get_probability`: the `drop_ctl` it leaves. -/
def randomDrop (randomValue dropValue : BitVec 32) : BitVec 3 :=
  if compare randomValue dropValue = 3 then 1 else 0

/-- **The table compares unsigned numbers**, at any width: its first matching entry says 1 for
greater and 3 for less, and there is none exactly when the operands are equal; and a packet is
dropped exactly when the random value is below the configured one. -/
theorem compare_unsigned :
    (∀ (w : ℕ) (x y : BitVec w), (compare x y = 1 ↔ y < x) ∧ (compare x y = 3 ↔ x < y) ∧
      (compare x y = 0 ↔ x = y) ∧
      ((compareFrom w w).find? (fun e => e.hits x y) = none ↔ x = y)) ∧
    ∀ randomValue dropValue : BitVec 32,
      (randomDrop randomValue dropValue = 1 ↔ randomValue < dropValue) ∧
        (randomDrop randomValue dropValue = 0 ↔ ¬ randomValue < dropValue) := by
  have hcases : ∀ (w : ℕ) (x y : BitVec w), (compare x y = 1 ↔ y < x) ∧
      (compare x y = 3 ↔ x < y) ∧ (compare x y = 0 ↔ x = y) := by
    intro w x y
    rw [compare_eq]
    rcases BitVec.lt_trichotomy x y with hlt | rfl | hlt
    · have hge : ¬ y < x := by
        intro h
        exact BitVec.lt_irrefl _ (BitVec.lt_trans h hlt)
      have hne : x ≠ y := BitVec.ne_of_lt hlt
      simp [hlt, hge, hne]
    · simp
    · have hge : ¬ x < y := by
        intro h
        exact BitVec.lt_irrefl _ (BitVec.lt_trans h hlt)
      have hne : x ≠ y := (BitVec.ne_of_lt hlt).symm
      simp [hlt, hge, hne]
  refine ⟨fun w x y => ?_, fun randomValue dropValue => ?_⟩
  · obtain ⟨hgt, hlt, heq⟩ := hcases w x y
    exact ⟨hgt, hlt, heq, (compare_eq_zero x y).symm.trans heq⟩
  · obtain ⟨-, hlt, -⟩ := hcases 32 randomValue dropValue
    rw [randomDrop]
    split <;> simp_all

end NetCCL.Switch
