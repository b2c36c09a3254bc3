/-
# The controller's memory segments

The switch controller (`switch/bfrt_grpc.py`) hands out aggregator memory from `memseg`, a
sorted list of free segments.  `fit_seg` finds the first entry with room for an aligned
block, `alloc_seg` splits that entry BY INDEX, and `free_seg` puts a block back, merging it
with a neighbour while it deletes from the list it indexes.

The three functions are followed here on plain lists, and each gets one lemma saying what it
leaves:

* `allocSeg_eq`: the entry is replaced by what remains of it on either side;
* `freeSeg_cases`: the block joins its left neighbour, or its right one, or neither -- never
  both, because after a left merge `r_index` points one entry too far;
* `occ`, the number of segments an address lies in, is what both of them preserve, and
  `Exact.partition` turns "every address below `size` lies in exactly one segment" into the
  statement a reader wants.
-/
import Mathlib.Algebra.Ring.Nat
import Mathlib.Data.List.Basic
import Mathlib.Data.List.Pairwise

namespace NetCCL.Controller

/-! ## 1. The code -/

/-- `MTU_SIZE`, the bytes one switch slot stands for. -/
def mtuSize : ℕ := 256

/-- `SWITCH_MEM_SIZE`. -/
def switchMemSize : ℕ := 2 ^ (14 + 8)

/-- One entry `[ptr_l, ptr_r]` of `memseg`: the addresses from `l` up to `r`. -/
structure Seg where
  l : ℕ
  r : ℕ
  deriving DecidableEq, Repr

def ispower2 (x : ℕ) : Bool := 0 < x && x &&& (x - 1) == 0

def upperalign (x y : ℕ) : ℕ := (x + y - 1) / y * y

/-- `addr_in_seg`: the first aligned block of the segment, if there is room for one. -/
def addrInSeg (seg : Seg) (size : ℕ) : Option ℕ :=
  let addr := upperalign seg.l size
  if addr + size ≤ seg.r then some addr else none

/-- The loop of `fit_seg`, from entry number `index` on. -/
def fitFrom (size : ℕ) : ℕ → List Seg → Option (ℕ × ℕ)
  | _, [] => none
  | index, seg :: rest =>
    match addrInSeg seg size with
    | some addr => some (index, addr)
    | none => fitFrom size (index + 1) rest

/-- `fit_seg`: `none` for the bare `return` on an invalid size, `some none` for
`(None, None)`. -/
def fitSeg (memseg : List Seg) (size : ℕ) : Option (Option (ℕ × ℕ)) :=
  if size % mtuSize ≠ 0 ∨ ¬ ispower2 (size / mtuSize) then none
  else some (fitFrom size 0 memseg)

/-- Python's `list.insert`. -/
def pyInsert (l : List Seg) (index : ℕ) (s : Seg) : List Seg :=
  l.take index ++ s :: l.drop index

/-- `alloc_seg`; `none` when `self.memseg[index]` raises. -/
def allocSeg (memseg : List Seg) (index addrL addrR : ℕ) : Option (List Seg) :=
  match memseg[index]? with
  | none => none
  | some seg =>
    let lseg := if seg.l ≠ addrL then some ⟨seg.l, addrL⟩ else none
    let rseg := if seg.r ≠ addrR then some ⟨addrR, seg.r⟩ else none
    let memseg := memseg.eraseIdx index
    let memseg := rseg.elim memseg (pyInsert memseg index)
    let memseg := lseg.elim memseg (pyInsert memseg index)
    some memseg

/-- The loop of `free_seg`: the index of the first entry to the right of the freed range,
the length of the list if there is none, and `none` for `Invalid free`. -/
def rightIndex (addrL addrR : ℕ) : ℕ → List Seg → Option ℕ
  | index, [] => some index
  | index, seg :: rest =>
    if seg.r ≤ addrL then rightIndex addrL addrR (index + 1) rest
    else if seg.l < addrR then none
    else some index

/-- The left merge of `free_seg`: the new `addr_l`, `index` and `memseg`. -/
def mergeLeft (memseg : List Seg) (rIndex addrL : ℕ) : ℕ × ℕ × List Seg :=
  match if rIndex = 0 then none else memseg[rIndex - 1]? with
  | none => (addrL, rIndex, memseg)
  | some seg =>
    if seg.r = addrL then (seg.l, rIndex - 1, memseg.eraseIdx (rIndex - 1))
    else (addrL, rIndex, memseg)

/-- The right merge, on the list the left merge has left: the new `addr_r` and `memseg`. -/
def mergeRight (memseg : List Seg) (rIndex addrR : ℕ) : ℕ × List Seg :=
  match memseg[rIndex]? with
  | none => (addrR, memseg)
  | some seg => if seg.l = addrR then (seg.r, memseg.eraseIdx rIndex) else (addrR, memseg)

/-- `free_seg`; `none` for `exit(1)`. -/
def freeSeg (memseg : List Seg) (addrL addrR : ℕ) : Option (List Seg) :=
  match rightIndex addrL addrR 0 memseg with
  | none => none
  | some rIndex =>
    let (addrL, index, memseg) := mergeLeft memseg rIndex addrL
    let (addrR, memseg) := mergeRight memseg rIndex addrR
    some (pyInsert memseg index ⟨addrL, addrR⟩)

/-! ## 2. Segments as sets of addresses -/

/-- `x` lies in the segment. -/
def Seg.Has (s : Seg) (x : ℕ) : Prop := s.l ≤ x ∧ x < s.r

instance (s : Seg) (x : ℕ) : Decidable (s.Has x) :=
  inferInstanceAs (Decidable (_ ∧ _))

/-- No address lies in both segments. -/
def Seg.Disjoint (s t : Seg) : Prop := ∀ x, s.Has x → ¬ t.Has x

/-- The number of segments of the list that `x` lies in. -/
def occ (segs : List Seg) (x : ℕ) : ℕ := segs.countP fun s => decide (s.Has x)

@[simp] theorem occ_nil (x : ℕ) : occ [] x = 0 := rfl

@[simp] theorem occ_cons (s : Seg) (l : List Seg) (x : ℕ) :
    occ (s :: l) x = occ l x + if s.l ≤ x ∧ x < s.r then 1 else 0 := by
  simp only [occ, List.countP_cons, decide_eq_true_eq]
  rfl

@[simp] theorem occ_append (l₁ l₂ : List Seg) (x : ℕ) :
    occ (l₁ ++ l₂) x = occ l₁ x + occ l₂ x := List.countP_append

theorem occ_pos_iff {l : List Seg} {x : ℕ} : 0 < occ l x ↔ ∃ s ∈ l, s.Has x := by
  simp [occ, List.countP_pos_iff]

/-- **A partition of `[0, size)`**: nonempty segments, no address in two of them, every
address below `size` in one and no other address in any. -/
structure Partition (segs : List Seg) (size : ℕ) : Prop where
  nonempty : ∀ s ∈ segs, s.l < s.r
  disjoint : segs.Pairwise Seg.Disjoint
  cover : ∀ x, (∃ s ∈ segs, s.Has x) ↔ x < size

/-- The same by counting, which is what the operations preserve. -/
structure Exact (segs : List Seg) (size : ℕ) : Prop where
  nonempty : ∀ s ∈ segs, s.l < s.r
  occ_eq : ∀ x, occ segs x = if x < size then 1 else 0

/-- If no address is counted twice, the segments are pairwise disjoint. -/
theorem pairwise_disjoint_of_occ_le {l : List Seg} (h : ∀ x, occ l x ≤ 1) :
    l.Pairwise Seg.Disjoint := by
  induction l with
  | nil => exact .nil
  | cons s l ih =>
    simp only [occ_cons] at h
    refine .cons (fun t ht x hs htx => ?_) (ih fun x => Nat.le_trans (Nat.le_add_right _ _) (h x))
    have h1 : 0 < occ l x := occ_pos_iff.mpr ⟨t, ht, htx⟩
    have h2 := h x
    rw [if_pos (show s.l ≤ x ∧ x < s.r from hs)] at h2
    omega

theorem Exact.partition {l : List Seg} {size : ℕ} (h : Exact l size) : Partition l size := by
  refine ⟨h.nonempty, pairwise_disjoint_of_occ_le fun x => ?_, fun x => ?_⟩
  · rw [h.occ_eq]; split <;> omega
  · rw [← occ_pos_iff, h.occ_eq]; split <;> simp [*]

/-- The segments of a sorted list follow each other. -/
def Sorted (l : List Seg) : Prop := l.Pairwise fun s t => s.r ≤ t.l

/-! ## 3. Positions in a list -/

theorem getElem?_mid (A : List Seg) (s : Seg) (B : List Seg) :
    (A ++ s :: B)[A.length]? = some s := by
  simp

theorem eraseIdx_mid (A : List Seg) (s : Seg) (B : List Seg) :
    (A ++ s :: B).eraseIdx A.length = A ++ B := by
  rw [List.eraseIdx_append_of_length_le (Nat.le_refl _), Nat.sub_self]
  rfl

theorem pyInsert_mid (A : List Seg) (s : Seg) (B : List Seg) :
    pyInsert (A ++ B) A.length s = A ++ s :: B := by
  simp [pyInsert]

/-! ## 4. Allocation -/

theorem le_upperalign {x y : ℕ} (hy : 0 < y) : x ≤ upperalign x y := by
  have h := Nat.div_add_mod (x + y - 1) y
  have := Nat.mod_lt (x + y - 1) hy
  rw [upperalign, Nat.mul_comm]
  omega

/-- What `addr_in_seg` finds is an aligned block of the segment. -/
theorem addrInSeg_spec {s : Seg} {size addr : ℕ} (hsize : 0 < size)
    (h : addrInSeg s size = some addr) : s.l ≤ addr ∧ addr + size ≤ s.r ∧ size ∣ addr := by
  simp only [addrInSeg] at h
  split at h
  · obtain rfl := Option.some.inj h
    exact ⟨le_upperalign hsize, ‹_›, Nat.dvd_mul_left _ _⟩
  · exact absurd h (by simp)

/-- `fit_seg` returns an entry with its index and a block of it. -/
theorem fitFrom_spec {size k i addr : ℕ} {l : List Seg} (h : fitFrom size k l = some (i, addr)) :
    ∃ A s B, l = A ++ s :: B ∧ i = k + A.length ∧ addrInSeg s size = some addr := by
  induction l generalizing k with
  | nil => exact absurd h (by simp [fitFrom])
  | cons s l ih =>
    rw [fitFrom] at h
    cases ha : addrInSeg s size with
    | some a =>
      rw [ha] at h
      simp only [Option.some.injEq, Prod.mk.injEq] at h
      obtain ⟨rfl, rfl⟩ := h
      exact ⟨[], s, l, rfl, rfl, ha⟩
    | none =>
      rw [ha] at h
      obtain ⟨A, t, B, rfl, rfl, ht⟩ := ih h
      exact ⟨s :: A, t, B, rfl, by simp only [List.length_cons]; omega, ht⟩

/-- What is left of a segment to the left of a block of it. -/
def Seg.before (s : Seg) (addrL : ℕ) : List Seg := if s.l ≠ addrL then [⟨s.l, addrL⟩] else []

/-- What is left of a segment to the right of a block of it. -/
def Seg.after (s : Seg) (addrR : ℕ) : List Seg := if s.r ≠ addrR then [⟨addrR, s.r⟩] else []

/-- **`alloc_seg` replaces the entry by what remains of it.** -/
theorem allocSeg_eq (A : List Seg) (s : Seg) (B : List Seg) (addrL addrR : ℕ) :
    allocSeg (A ++ s :: B) A.length addrL addrR =
      some (A ++ (s.before addrL ++ (s.after addrR ++ B))) := by
  simp only [allocSeg, getElem?_mid, eraseIdx_mid, Seg.before, Seg.after]
  split <;> split <;> simp [pyInsert_mid]

/-- An address of the segment lies in exactly one of the block and the two remainders. -/
theorem Seg.occ_split {s : Seg} {addrL addrR : ℕ} (hl : s.l ≤ addrL) (hlr : addrL ≤ addrR)
    (hr : addrR ≤ s.r) (x : ℕ) :
    occ (s.before addrL) x + occ (s.after addrR) x + (if addrL ≤ x ∧ x < addrR then 1 else 0) =
      if s.l ≤ x ∧ x < s.r then 1 else 0 := by
  have hb : occ (s.before addrL) x = if s.l ≤ x ∧ x < addrL then 1 else 0 := by
    simp only [Seg.before]
    split
    · simp
    · rw [occ_nil, if_neg (by omega)]
  have ha : occ (s.after addrR) x = if addrR ≤ x ∧ x < s.r then 1 else 0 := by
    simp only [Seg.after]
    split
    · simp
    · rw [occ_nil, if_neg (by omega)]
  rw [hb, ha]
  split <;> split <;> split <;> split <;> omega

/-- What remains of an entry stays related to the entries around it as the entry was. -/
theorem pairwise_split {R : ℕ → ℕ → Prop} (hmono : ∀ a b c d, R b c → a ≤ b → c ≤ d → R a d)
    {A B : List Seg} {s : Seg} {addrL addrR : ℕ}
    (h : (A ++ s :: B).Pairwise fun s t => R s.r t.l)
    (hl : s.l ≤ addrL) (hlr : R addrL addrR) (hle : addrL ≤ addrR) (hr : addrR ≤ s.r) :
    (A ++ (s.before addrL ++ (s.after addrR ++ B))).Pairwise fun s t => R s.r t.l := by
  rw [List.pairwise_append, List.pairwise_cons] at h
  obtain ⟨hA, ⟨hsB, hB⟩, hAB⟩ := h
  have hbefore : ∀ t ∈ s.before addrL, t = ⟨s.l, addrL⟩ := by
    intro t ht; simp only [Seg.before] at ht; split at ht <;> simp_all
  have hafter : ∀ t ∈ s.after addrR, t = ⟨addrR, s.r⟩ := by
    intro t ht; simp only [Seg.after] at ht; split at ht <;> simp_all
  rw [List.pairwise_append, List.pairwise_append, List.pairwise_append]
  refine ⟨hA, ⟨?_, ⟨?_, hB, ?_⟩, ?_⟩, ?_⟩
  · simp only [Seg.before]; split <;> simp
  · simp only [Seg.after]; split <;> simp
  · intro t ht u hu
    rw [hafter t ht]
    exact hsB u hu
  · intro t ht u hu
    rw [hbefore t ht]
    rcases List.mem_append.mp hu with hu | hu
    · rw [hafter u hu]; exact hlr
    · exact hmono _ _ _ _ (hsB u hu) (Nat.le_trans hle hr) (Nat.le_refl _)
  · intro t ht u hu
    have hts := hAB t ht s List.mem_cons_self
    rcases List.mem_append.mp hu with hu | hu
    · rw [hbefore u hu]; exact hts
    rcases List.mem_append.mp hu with hu | hu
    · rw [hafter u hu]
      exact hmono _ _ _ _ hts (Nat.le_refl _) (Nat.le_trans hl hle)
    · exact hAB t ht u (List.mem_cons_of_mem _ hu)

/-- What remains of an entry stays in order, between the entries around it. -/
theorem Sorted.split {A B : List Seg} {s : Seg} {addrL addrR : ℕ} (h : Sorted (A ++ s :: B))
    (hl : s.l ≤ addrL) (hlr : addrL ≤ addrR) (hr : addrR ≤ s.r) :
    Sorted (A ++ (s.before addrL ++ (s.after addrR ++ B))) :=
  pairwise_split (fun _ _ _ _ h h₁ h₂ => Nat.le_trans h₁ (Nat.le_trans h h₂)) h hl hlr hlr hr

theorem Seg.before_nonempty {s : Seg} {addrL : ℕ} (h : s.l ≤ addrL) :
    ∀ t ∈ s.before addrL, t.l < t.r := by
  intro t ht
  simp only [Seg.before] at ht
  split at ht
  · rw [List.mem_singleton.mp ht]; dsimp only; omega
  · exact absurd ht List.not_mem_nil

theorem Seg.after_nonempty {s : Seg} {addrR : ℕ} (h : addrR ≤ s.r) :
    ∀ t ∈ s.after addrR, t.l < t.r := by
  intro t ht
  simp only [Seg.after] at ht
  split at ht
  · rw [List.mem_singleton.mp ht]; dsimp only; omega
  · exact absurd ht List.not_mem_nil

/-- Giving a block of a free segment out keeps the memory partitioned. -/
theorem Exact.give {live : List Seg} {A B : List Seg} {g : Seg} {l r size : ℕ}
    (h : Exact (live ++ (A ++ g :: B)) size) (hl : g.l ≤ l) (hlr : l < r) (hr : r ≤ g.r) :
    Exact (live ++ [⟨l, r⟩] ++ (A ++ (g.before l ++ (g.after r ++ B)))) size := by
  refine ⟨fun s hs => ?_, fun x => ?_⟩
  · simp only [List.mem_append, List.mem_singleton] at hs
    rcases hs with (hs | rfl) | hs | hs | hs | hs
    · exact h.nonempty s (by simp [hs])
    · exact hlr
    · exact h.nonempty s (by simp [hs])
    · exact Seg.before_nonempty hl s hs
    · exact Seg.after_nonempty hr s hs
    · exact h.nonempty s (by simp [hs])
  · have hold := h.occ_eq x
    have hsplit := Seg.occ_split hl (Nat.le_of_lt hlr) hr x
    simp only [occ_append, occ_cons, occ_nil] at hold ⊢
    omega

/-! ## 5. Freeing -/

/-- The freed range lies between two runs of entries, and the loop finds where. -/
theorem rightIndex_eq {l r : ℕ} (hlr : l < r) :
    ∀ {k : ℕ} {m : List Seg}, Sorted m → (∀ s ∈ m, s.l < s.r) → (∀ s ∈ m, s.Disjoint ⟨l, r⟩) →
      ∃ A B, m = A ++ B ∧ rightIndex l r k m = some (k + A.length) ∧
        (∀ a ∈ A, a.r ≤ l) ∧ ∀ b ∈ B, r ≤ b.l := by
  intro k m
  induction m generalizing k with
  | nil => exact fun _ _ _ => ⟨[], [], rfl, rfl, by simp, by simp⟩
  | cons s m ih =>
    intro hsort hne hdis
    rw [Sorted, List.pairwise_cons] at hsort
    have hs := hne s List.mem_cons_self
    rcases Nat.lt_or_ge l s.r with hright | hleft
    · -- the entry reaches past `l`; being disjoint from the range, it starts at `r` or later
      have hge : r ≤ s.l := by
        rcases Nat.lt_or_ge s.l r with hlt | hge
        · refine absurd (hdis s List.mem_cons_self (max s.l l) ?_ ?_) (fun h => h)
          · exact ⟨Nat.le_max_left _ _, Nat.max_lt.mpr ⟨hs, hright⟩⟩
          · exact ⟨Nat.le_max_right _ _, Nat.max_lt.mpr ⟨hlt, hlr⟩⟩
        · exact hge
      refine ⟨[], s :: m, rfl, ?_, by simp, ?_⟩
      · rw [rightIndex, if_neg (by omega), if_neg (by omega)]; rfl
      · intro b hb
        rcases List.mem_cons.mp hb with rfl | hb
        · exact hge
        · have := hsort.1 b hb; omega
    · obtain ⟨A, B, rfl, hidx, hA, hB⟩ := ih (k := k + 1) hsort.2
        (fun t ht => hne t (List.mem_cons_of_mem _ ht))
        (fun t ht => hdis t (List.mem_cons_of_mem _ ht))
      refine ⟨s :: A, B, rfl, ?_, List.forall_mem_cons.mpr ⟨hleft, hA⟩, hB⟩
      rw [rightIndex, if_pos hleft, hidx, List.length_cons]
      congr 1; omega

/-- After a left merge the right neighbour is at `r_index - 1`, and the entry `free_seg`
looks at instead starts further right: no right merge. -/
theorem mergeRight_after_left {A B : List Seg} {r : ℕ} (hB : ∀ b ∈ B, r ≤ b.l ∧ b.l < b.r)
    (hsort : Sorted B) : mergeRight (A ++ B) (A.length + 1) r = (r, A ++ B) := by
  cases B with
  | nil => simp [mergeRight]
  | cons b B =>
    cases B with
    | nil => simp [mergeRight]
    | cons c B =>
      have hbc : b.r ≤ c.l := (List.pairwise_cons.mp hsort).1 c List.mem_cons_self
      have hb := hB b List.mem_cons_self
      have hget : (A ++ b :: c :: B)[A.length + 1]? = some c := by simp
      simp only [mergeRight, hget]
      rw [if_neg (by omega)]

/-- **What `free_seg` leaves.**  It joins the range with the entry that ends at it; failing
that, with the entry that starts at its end; failing both, it inserts a new entry. -/
theorem freeSeg_cases {m : List Seg} {l r : ℕ} (hlr : l < r) (hsort : Sorted m)
    (hne : ∀ s ∈ m, s.l < s.r) (hdis : ∀ s ∈ m, s.Disjoint ⟨l, r⟩) :
    ∃ A B, m = A ++ B ∧ (∀ a ∈ A, a.r ≤ l) ∧ (∀ b ∈ B, r ≤ b.l) ∧
      ((∃ A' a, A = A' ++ [a] ∧ a.r = l ∧ freeSeg m l r = some (A' ++ ⟨a.l, r⟩ :: B)) ∨
        ((∀ a ∈ A, a.r < l) ∧ ((∃ b B', B = b :: B' ∧ b.l = r ∧
            freeSeg m l r = some (A ++ ⟨l, b.r⟩ :: B')) ∨
          ((∀ b ∈ B, r < b.l) ∧ freeSeg m l r = some (A ++ ⟨l, r⟩ :: B))))) := by
  obtain ⟨A, B, rfl, hidx, hA, hB⟩ := rightIndex_eq (k := 0) hlr hsort hne hdis
  rw [Nat.zero_add] at hidx
  have hBne : ∀ b ∈ B, r ≤ b.l ∧ b.l < b.r :=
    fun b hb => ⟨hB b hb, hne b (List.mem_append_right _ hb)⟩
  have hBs : Sorted B := (List.pairwise_append.mp hsort).2.1
  refine ⟨A, B, rfl, hA, hB, ?_⟩
  simp only [freeSeg, hidx]
  -- whatever the left side did not merge, the right side decides
  have hright : mergeLeft (A ++ B) A.length l = (l, A.length, A ++ B) →
      (∃ b B', B = b :: B' ∧ b.l = r ∧
        (let (addrL, index, memseg) := mergeLeft (A ++ B) A.length l
         let (addrR, memseg) := mergeRight memseg A.length r
         some (pyInsert memseg index ⟨addrL, addrR⟩)) = some (A ++ ⟨l, b.r⟩ :: B')) ∨
      ((∀ b ∈ B, r < b.l) ∧ (let (addrL, index, memseg) := mergeLeft (A ++ B) A.length l
       let (addrR, memseg) := mergeRight memseg A.length r
       some (pyInsert memseg index ⟨addrL, addrR⟩)) = some (A ++ ⟨l, r⟩ :: B)) := by
    intro hleft
    simp only [hleft]
    cases B with
    | nil => right; simp [mergeRight, pyInsert]
    | cons b B' =>
      rcases Nat.lt_or_ge r b.l with hlt | hge
      · right
        refine ⟨fun c hc => ?_, ?_⟩
        · rcases List.mem_cons.mp hc with rfl | hc
          · exact hlt
          · have hbc := (List.pairwise_cons.mp hBs).1 c hc
            have := (hBne b List.mem_cons_self).2
            omega
        · simp only [mergeRight, getElem?_mid]
          rw [if_neg (by omega)]
          simp only [pyInsert_mid]
      · have hbl : b.l = r := Nat.le_antisymm hge (hB b List.mem_cons_self)
        left
        refine ⟨b, B', rfl, hbl, ?_⟩
        simp only [mergeRight, getElem?_mid, if_pos hbl, eraseIdx_mid, pyInsert_mid]
  rcases List.eq_nil_or_concat A with rfl | ⟨A', a, rfl⟩
  · exact Or.inr ⟨by simp, hright (by simp [mergeLeft])⟩
  · rw [List.concat_eq_append] at hright hA hsort hne ⊢
    have hlen : (A' ++ [a]).length = A'.length + 1 := by simp
    have hget : (A' ++ [a] ++ B)[A'.length]? = some a := by simp
    have hmerge : mergeLeft (A' ++ [a] ++ B) (A' ++ [a]).length l =
        if a.r = l then (a.l, A'.length, A' ++ B)
        else (l, (A' ++ [a]).length, A' ++ [a] ++ B) := by
      rw [mergeLeft, hlen, if_neg (Nat.succ_ne_zero _), Nat.add_sub_cancel, hget]
      have herase : (A' ++ [a] ++ B).eraseIdx A'.length = A' ++ B := by
        rw [List.append_assoc]; exact eraseIdx_mid A' a B
      simp only [herase]
    rcases Nat.lt_or_ge a.r l with hlt | hge
    · refine Or.inr ⟨fun c hc => ?_, hright (by rw [hmerge, if_neg (by omega)])⟩
      rcases List.mem_append.mp hc with hc | hc
      · have hca := (List.pairwise_append.mp (List.pairwise_append.mp hsort).1).2.2 c hc a
          List.mem_cons_self
        have := hne a (by simp)
        omega
      · rwa [List.mem_singleton.mp hc]
    · have har : a.r = l := Nat.le_antisymm (hA a (by simp)) hge
      refine Or.inl ⟨A', a, rfl, har, ?_⟩
      rw [hmerge, if_pos har, hlen]
      simp only [mergeRight_after_left hBne hBs, pyInsert_mid]

/-- **`free_seg` gives the range back**: it does not exit, the list stays sorted, and every
address is counted as before, with one more for those in the range. -/
theorem freeSeg_spec {m : List Seg} {l r : ℕ} (hlr : l < r) (hsort : Sorted m)
    (hne : ∀ s ∈ m, s.l < s.r) (hdis : ∀ s ∈ m, s.Disjoint ⟨l, r⟩) :
    ∃ m', freeSeg m l r = some m' ∧ Sorted m' ∧ (∀ s ∈ m', s.l < s.r) ∧
      ∀ x, occ m' x = occ m x + if l ≤ x ∧ x < r then 1 else 0 := by
  obtain ⟨A, B, rfl, hA, hB, hcase⟩ := freeSeg_cases hlr hsort hne hdis
  rw [Sorted, List.pairwise_append] at hsort
  obtain ⟨hsA, hsB, hsAB⟩ := hsort
  have hneA : ∀ s ∈ A, s.l < s.r := by
    intro s hs
    exact hne s (List.mem_append_left _ hs)
  have hneB : ∀ s ∈ B, s.l < s.r := by
    intro s hs
    exact hne s (List.mem_append_right _ hs)
  rcases hcase with ⟨A', a, rfl, har, hf⟩ | ⟨-, ⟨b, B', rfl, hbl, hf⟩ | ⟨-, hf⟩⟩
  · have ha := hneA a (by simp)
    rw [List.pairwise_append] at hsA
    refine ⟨_, hf, ?_, ?_, fun x => ?_⟩
    · rw [Sorted, List.pairwise_append, List.pairwise_cons]
      refine ⟨hsA.1, ⟨hB, hsB⟩, fun t ht u hu => ?_⟩
      rcases List.mem_cons.mp hu with rfl | hu
      · exact hsA.2.2 t ht a (by simp)
      · exact hsAB t (by simp [ht]) u hu
    · intro s hs
      rcases List.mem_append.mp hs with hs | hs
      · exact hneA s (by simp [hs])
      rcases List.mem_cons.mp hs with rfl | hs
      · dsimp only; omega
      · exact hneB s hs
    · simp only [occ_append, occ_cons, occ_nil]
      split <;> split <;> split <;> omega
  · have hb := hneB b (by simp)
    rw [List.pairwise_cons] at hsB
    refine ⟨_, hf, ?_, ?_, fun x => ?_⟩
    · rw [Sorted, List.pairwise_append, List.pairwise_cons]
      refine ⟨hsA, ⟨hsB.1, hsB.2⟩, fun t ht u hu => ?_⟩
      rcases List.mem_cons.mp hu with rfl | hu
      · exact hA t ht
      · exact hsAB t ht u (by simp [hu])
    · intro s hs
      rcases List.mem_append.mp hs with hs | hs
      · exact hneA s hs
      rcases List.mem_cons.mp hs with rfl | hs
      · dsimp only; omega
      · exact hneB s (by simp [hs])
    · simp only [occ_append, occ_cons]
      split <;> split <;> split <;> omega
  · refine ⟨_, hf, ?_, ?_, fun x => ?_⟩
    · rw [Sorted, List.pairwise_append, List.pairwise_cons]
      refine ⟨hsA, ⟨hB, hsB⟩, fun t ht u hu => ?_⟩
      rcases List.mem_cons.mp hu with rfl | hu
      · exact hA t ht
      · exact hsAB t ht u hu
    · intro s hs
      rcases List.mem_append.mp hs with hs | hs
      · exact hneA s hs
      rcases List.mem_cons.mp hs with rfl | hs
      · exact hlr
      · exact hneB s hs
    · simp only [occ_append, occ_cons]
      omega

end NetCCL.Controller
