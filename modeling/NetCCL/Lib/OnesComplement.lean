/-
# Ones-complement sums of 16-bit words

The checksum of the internet protocols: words are added with the carry brought around, and
the checksum is the complement of the sum.  A header with its checksum in place sums to all
ones.

Carrying around is arithmetic modulo `2^16 - 1` in which zero has two representations, and
the sum of words that are not all zero never comes out as the first of them
(`onesSum_represents`).  So a header is correct when its words add up to a positive multiple of
`2^16 - 1` (`verifies_iff`), in whatever order, and what a checksum over SOME of the words
achieves depends on the sum of the others only (`verifies_with_checksum`).
-/
import Mathlib.Algebra.BigOperators.Group.List.Basic
import Mathlib.Algebra.Ring.Nat

namespace NetCCL.Lib

/-! ## 1. Sums -/

abbrev Word := BitVec 16

/-- Addition with the carry brought around. -/
def onesAdd (a b : Word) : Word :=
  let s := a.toNat + b.toNat
  BitVec.ofNat 16 (s % 2 ^ 16 + s / 2 ^ 16)

/-- The ones-complement sum. -/
def onesSum (ws : List Word) : Word := ws.foldl onesAdd 0

/-- The checksum of some words. -/
def onesChecksum (ws : List Word) : Word := ~~~ onesSum ws

/-- Words, a checksum among them, that add up to all ones. -/
def Verifies (ws : List Word) : Prop := onesSum ws = BitVec.allOnes 16

instance (ws : List Word) : Decidable (Verifies ws) := inferInstanceAs (Decidable (_ = _))

/-- The plain sum of the words. -/
def natSum (ws : List Word) : ℕ := (ws.map BitVec.toNat).sum

@[simp] theorem natSum_nil : natSum [] = 0 := rfl

@[simp] theorem natSum_cons (w : Word) (ws : List Word) :
    natSum (w :: ws) = w.toNat + natSum ws := by
  simp [natSum]

@[simp] theorem natSum_append (l₁ l₂ : List Word) :
    natSum (l₁ ++ l₂) = natSum l₁ + natSum l₂ := by
  simp [natSum]

/-- `r` stands for the sum `n`: they differ by carries, and `r` is zero only if `n` is. -/
def Represents (r n : ℕ) : Prop :=
  r ≤ 2 ^ 16 - 1 ∧ ∃ carries, n = r + (2 ^ 16 - 1) * carries ∧ (r = 0 → carries = 0)

theorem Represents.onesAdd {n : ℕ} {a : Word} (h : Represents a.toNat n) (b : Word) :
    Represents (Lib.onesAdd a b).toNat (n + b.toNat) := by
  obtain ⟨ha, carries, rfl, hzero⟩ := h
  have hb := b.isLt
  rcases Nat.lt_or_ge (a.toNat + b.toNat) (2 ^ 16) with hs | hs
  · have hsum : (Lib.onesAdd a b).toNat = a.toNat + b.toNat := by
      rw [Lib.onesAdd, BitVec.toNat_ofNat]
      omega
    rw [hsum]
    exact ⟨by omega, carries, by omega, fun h0 => hzero (by omega)⟩
  · have hsum : (Lib.onesAdd a b).toNat = a.toNat + b.toNat - (2 ^ 16 - 1) := by
      rw [Lib.onesAdd, BitVec.toNat_ofNat]
      omega
    rw [hsum]
    exact ⟨by omega, carries + 1, by omega, fun h0 => by omega⟩

/-- **The sum stands for the plain sum.** -/
theorem onesSum_represents (ws : List Word) : Represents (onesSum ws).toNat (natSum ws) := by
  have hfold : ∀ (l : List Word) (n : ℕ) (a : Word), Represents a.toNat n →
      Represents (l.foldl Lib.onesAdd a).toNat (n + natSum l) := by
    intro l
    induction l with
    | nil => exact fun _ _ h => h
    | cons b l ih =>
      intro n a h
      rw [List.foldl_cons, natSum_cons, ← Nat.add_assoc]
      exact ih _ _ (h.onesAdd b)
  have h := hfold ws 0 0 ⟨Nat.zero_le _, 0, rfl, fun _ => rfl⟩
  rwa [Nat.zero_add] at h

/-! ## 2. Correct headers -/

/-- **A header is correct** when its words add up to a positive multiple of `2^16 - 1`. -/
theorem verifies_iff (ws : List Word) :
    Verifies ws ↔ 0 < natSum ws ∧ 2 ^ 16 - 1 ∣ natSum ws := by
  obtain ⟨hle, carries, hsum, hzero⟩ := onesSum_represents ws
  have hiff : Verifies ws ↔ (onesSum ws).toNat = 2 ^ 16 - 1 := by
    constructor
    · intro h
      rw [Verifies] at h
      rw [h]
      rfl
    · intro h
      exact BitVec.eq_of_toNat_eq h
  rw [hiff]
  omega

/-- **A checksum over a part.**  Words that hold the checksum of `fields` besides `fields` and
`others` are correct exactly when the others add up to a multiple of `2^16 - 1`. -/
theorem verifies_with_checksum {ws fields others : List Word}
    (h : natSum ws = natSum fields + (onesChecksum fields).toNat + natSum others)
    (hpos : 0 < natSum fields) : Verifies ws ↔ 2 ^ 16 - 1 ∣ natSum others := by
  obtain ⟨hle, carries, hsum, hzero⟩ := onesSum_represents fields
  have hcheck : (onesChecksum fields).toNat = 2 ^ 16 - 1 - (onesSum fields).toNat := by
    rw [onesChecksum, BitVec.toNat_not]
  rw [verifies_iff, h, hcheck]
  omega

/-! ## 3. Bytes -/

/-- The words of a sequence of bytes, in network order; a last odd byte is padded. -/
def wordsOf : List (BitVec 8) → List Word
  | [] => []
  | [b] => [b ++ 0#8]
  | b₁ :: b₂ :: rest => (b₁ ++ b₂) :: wordsOf rest

theorem wordsOf_append : ∀ {l₁ : List (BitVec 8)}, l₁.length % 2 = 0 → ∀ l₂ : List (BitVec 8),
    wordsOf (l₁ ++ l₂) = wordsOf l₁ ++ wordsOf l₂
  | [], _, _ => rfl
  | [_], h, _ => absurd h (by simp)
  | b₁ :: b₂ :: rest, h, l₂ => by
    have hrest : rest.length % 2 = 0 := by
      simp only [List.length_cons] at h
      omega
    simp only [List.cons_append, wordsOf, wordsOf_append hrest]

end NetCCL.Lib
