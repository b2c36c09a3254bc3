/-
# The free list after any sequence of allocations and frees

`free_seg` merges the freed range with the entry on its left and with the entry on its right.
With both merges the free list stays COALESCED: no two neighbouring entries touch, `fit_seg`
fails only when there is no block, and a drained memory is one entry again.

* `Pool.Inv` is the invariant: the entries and the live segments partition the memory, and the
  entries keep a gap between them (`Apart`);
* `Apart.within`: a free interval then lies within ONE entry, which is what completeness and
  the drained list follow from;
* **the residual**: `free_seg` deletes the left neighbour first and then looks for the right
  one at the old index.  A range with free memory on both sides (`Pool.Bridges`) is merged to
  the left only.  `free_list_coalesced` is about the runs without such a free, and says that
  the first one breaks the free list; `free_list_coalesced_fails` is one.
-/
import NetCCL.Controller.Segments
import NetCCL.Lib.Reach
import Mathlib.Data.List.Chain

namespace NetCCL.Controller

open Lib

/-! ## 1. Requests -/

/-- The free list, and the segments handed out. -/
structure Pool where
  memseg : List Seg
  live : List Seg
  deriving DecidableEq

/-- `memseg` after `reinit`. -/
def Pool.start : Pool := ⟨[⟨0, switchMemSize⟩], []⟩

/-- An allocation is `fit_seg` followed by `alloc_seg`. -/
inductive MemOp
  | alloc (size : ℕ)
  | free (seg : Seg)

/-- One request; `none` for a size `fit_seg` takes for invalid, a segment that is not live, and
an exception or exit of the code. -/
def Pool.exec (p : Pool) : MemOp → Option Pool
  | .alloc size =>
    match fitSeg p.memseg size with
    | none => none
    | some none => some p
    | some (some (index, addr)) =>
      (allocSeg p.memseg index addr (addr + size)).map fun memseg =>
        ⟨memseg, p.live ++ [⟨addr, addr + size⟩]⟩
  | .free seg =>
    if seg ∈ p.live then
      (freeSeg p.memseg seg.l seg.r).map fun memseg => ⟨memseg, p.live.erase seg⟩
    else none

def Pool.Step (p : Pool) (op : MemOp) (p' : Pool) : Prop := p.exec op = some p'

/-- An aligned block of which no address is live. -/
def Pool.FreeBlock (p : Pool) (size addr : ℕ) : Prop :=
  size ∣ addr ∧ addr + size ≤ switchMemSize ∧
    ∀ x, addr ≤ x → x < addr + size → ∀ s ∈ p.live, ¬ s.Has x

/-- **A coalesced and complete free list.** -/
structure Pool.Coalesced (p : Pool) : Prop where
  apart : p.memseg.IsChain fun s t => s.r ≠ t.l
  complete : ∀ size, fitSeg p.memseg size = some none → ¬ ∃ addr, p.FreeBlock size addr
  drained : p.live = [] → p.memseg = [⟨0, switchMemSize⟩]

/-- The request frees a segment with free memory on either side. -/
def Pool.Bridges (p : Pool) : MemOp → Prop
  | .alloc _ => False
  | .free seg => (∃ a ∈ p.memseg, a.r = seg.l) ∧ ∃ b ∈ p.memseg, b.l = seg.r

instance (p : Pool) (op : MemOp) : Decidable (p.Bridges op) :=
  match op with
  | .alloc _ => inferInstanceAs (Decidable False)
  | .free _ => inferInstanceAs (Decidable (_ ∧ _))

/-! ## 2. Entries with gaps between them -/

/-- Every entry starts after the earlier ones have ended. -/
def Apart (l : List Seg) : Prop := l.Pairwise fun s t => s.r < t.l

theorem Apart.sorted {l : List Seg} (h : Apart l) : Sorted l := h.imp Nat.le_of_lt

theorem Apart.isChain {l : List Seg} (h : Apart l) : l.IsChain fun s t => s.r ≠ t.l :=
  (List.Pairwise.isChain h).imp fun _ _ => Nat.ne_of_lt

/-- Two entries are the same, or there is a gap between them. -/
theorem Apart.of_mem {l : List Seg} (h : Apart l) {s t : Seg} (hs : s ∈ l) (ht : t ∈ l) :
    t = s ∨ t.r < s.l ∨ s.r < t.l := by
  obtain ⟨A, B, rfl⟩ := List.append_of_mem hs
  obtain ⟨-, hB, hAB⟩ := List.pairwise_append.mp h
  rcases List.mem_append.mp ht with ht | ht
  · exact Or.inr (Or.inl (hAB t ht s List.mem_cons_self))
  rcases List.mem_cons.mp ht with rfl | ht
  · exact Or.inl rfl
  · exact Or.inr (Or.inr ((List.pairwise_cons.mp hB).1 t ht))

/-- **A free interval lies within one entry.** -/
theorem Apart.within {l : List Seg} (h : Apart l) (hne : ∀ s ∈ l, s.l < s.r) {a b : ℕ}
    (hab : a < b) (hfree : ∀ x, a ≤ x → x < b → ∃ s ∈ l, s.Has x) :
    ∃ s ∈ l, s.l ≤ a ∧ b ≤ s.r := by
  obtain ⟨s, hs, hsl, hsr⟩ := hfree a (Nat.le_refl a) hab
  refine ⟨s, hs, hsl, ?_⟩
  rcases Nat.lt_or_ge s.r b with hlt | hge
  · -- the address where `s` ends is free too, but the next entry starts further right
    obtain ⟨t, ht, htl, htr⟩ := hfree s.r (Nat.le_of_lt hsr) hlt
    have hs' := hne s hs
    rcases h.of_mem hs ht with rfl | hgap | hgap <;> omega
  · exact hge

theorem Apart.split {A B : List Seg} {s : Seg} {addrL addrR : ℕ} (h : Apart (A ++ s :: B))
    (hl : s.l ≤ addrL) (hlr : addrL < addrR) (hr : addrR ≤ s.r) :
    Apart (A ++ (s.before addrL ++ (s.after addrR ++ B))) :=
  pairwise_split (fun _ _ _ _ h h₁ h₂ => Nat.lt_of_le_of_lt h₁ (Nat.lt_of_lt_of_le h h₂)) h hl hlr
    (Nat.le_of_lt hlr) hr

/-! ## 3. The free list against the live segments -/

/-- **The invariant.** -/
structure Pool.Inv (p : Pool) : Prop where
  memory : Exact (p.live ++ p.memseg) switchMemSize
  apart : Apart p.memseg

theorem Pool.Inv.start : Pool.start.Inv := by
  refine ⟨⟨fun s hs => ?_, fun x => ?_⟩, List.pairwise_singleton _ _⟩
  · rw [List.mem_singleton.mp hs]
    show 0 < switchMemSize
    decide
  · simp [Pool.start]

variable {p p' : Pool}

theorem Pool.Inv.nonempty (h : p.Inv) : ∀ s ∈ p.memseg, s.l < s.r :=
  fun s hs => h.memory.nonempty s (List.mem_append_right _ hs)

/-- An address that is not live is free. -/
theorem Pool.Inv.free (h : p.Inv) {x : ℕ} (hx : x < switchMemSize)
    (hlive : ∀ s ∈ p.live, ¬ s.Has x) : ∃ s ∈ p.memseg, s.Has x := by
  obtain ⟨s, hs, hsx⟩ := (h.memory.partition.cover x).mpr hx
  rcases List.mem_append.mp hs with hs | hs
  · exact absurd hsx (hlive s hs)
  · exact ⟨s, hs, hsx⟩

theorem fitFrom_none {size k : ℕ} {l : List Seg} (h : fitFrom size k l = none) :
    ∀ s ∈ l, addrInSeg s size = none := by
  induction l generalizing k with
  | nil => exact fun s hs => absurd hs List.not_mem_nil
  | cons s l ih =>
    rw [fitFrom] at h
    cases ha : addrInSeg s size with
    | some a => rw [ha] at h; exact absurd h (by simp)
    | none =>
      rw [ha] at h
      exact List.forall_mem_cons.mpr ⟨ha, ih h⟩

theorem upperalign_le {x y addr : ℕ} (hy : 0 < y) (hdvd : y ∣ addr) (hx : x ≤ addr) :
    upperalign x y ≤ addr := by
  obtain ⟨q, rfl⟩ := hdvd
  have hq : (x + y - 1) / y < q + 1 := by
    rw [Nat.div_lt_iff_lt_mul hy, Nat.succ_mul, Nat.mul_comm q]
    omega
  rw [upperalign, Nat.mul_comm]
  exact Nat.mul_le_mul_left y (Nat.le_of_lt_succ hq)

/-- An entry with an aligned block in it has room for one. -/
theorem addrInSeg_ne_none {s : Seg} {size addr : ℕ} (hsize : 0 < size) (hdvd : size ∣ addr)
    (hl : s.l ≤ addr) (hr : addr + size ≤ s.r) : addrInSeg s size ≠ none := by
  have hle := upperalign_le hsize hdvd hl
  simp only [addrInSeg]
  rw [if_pos (by omega)]
  exact Option.some_ne_none _

/-- What `fit_seg` accepts is a positive size. -/
theorem fitSeg_pos {m : List Seg} {size : ℕ} {found : Option (ℕ × ℕ)}
    (h : fitSeg m size = some found) : 0 < size ∧ fitFrom size 0 m = found := by
  rw [fitSeg] at h
  split at h
  · exact absurd h (by simp)
  · rename_i hvalid
    refine ⟨Nat.pos_of_ne_zero ?_, Option.some.inj h⟩
    rintro rfl
    exact hvalid (Or.inr (by decide))

/-- **Under the invariant the free list is coalesced.** -/
theorem Pool.Inv.coalesced (h : p.Inv) : p.Coalesced := by
  refine ⟨h.apart.isChain, fun size hfit => ?_, fun hlive => ?_⟩
  · rintro ⟨addr, hdvd, hle, hblock⟩
    obtain ⟨hsize, hnone⟩ := fitSeg_pos hfit
    obtain ⟨s, hs, hl, hr⟩ := h.apart.within h.nonempty (b := addr + size) (by omega)
      fun x hx hx' => h.free (by omega) (hblock x hx hx')
    exact addrInSeg_ne_none hsize hdvd hl hr (fitFrom_none hnone s hs)
  · obtain ⟨s, hs, hl, hr⟩ := h.apart.within h.nonempty (a := 0) (b := switchMemSize) (by decide)
      fun x _ hx => h.free hx (by simp [hlive])
    have hbound : ∀ t ∈ p.memseg, t.r ≤ switchMemSize := by
      intro t ht
      have hne := h.nonempty t ht
      have := (h.memory.partition.cover (t.r - 1)).mp
        ⟨t, List.mem_append_right _ ht, by omega, by omega⟩
      omega
    -- no room is left on either side of that entry
    obtain ⟨A, B, hm⟩ := List.append_of_mem hs
    have hapart : Apart (A ++ s :: B) := hm ▸ h.apart
    obtain ⟨-, hB, hAB⟩ := List.pairwise_append.mp hapart
    have hA : A = [] := List.eq_nil_iff_forall_not_mem.mpr fun t ht => by
      have := hAB t ht s List.mem_cons_self
      omega
    have hB' : B = [] := List.eq_nil_iff_forall_not_mem.mpr fun t ht => by
      have htm : t ∈ p.memseg := hm ▸ List.mem_append_right _ (List.mem_cons_of_mem _ ht)
      have := (List.pairwise_cons.mp hB).1 t ht
      have := h.nonempty t htm
      have := hbound t htm
      omega
    have hseg : s = ⟨0, switchMemSize⟩ := by
      obtain ⟨l, r⟩ := s
      have := hbound _ hs
      simp only [Seg.mk.injEq]
      dsimp only at *
      omega
    rw [hm, hA, hB', hseg]
    rfl

/-! ## 4. One request -/

/-- An allocation keeps the invariant. -/
theorem Pool.Inv.alloc (h : p.Inv) {size : ℕ} (hstep : p.Step (.alloc size) p') : p'.Inv := by
  simp only [Pool.Step, Pool.exec] at hstep
  cases hfit : fitSeg p.memseg size with
  | none => rw [hfit] at hstep; exact absurd hstep (by simp)
  | some found =>
    obtain ⟨hsize, hfrom⟩ := fitSeg_pos hfit
    rw [hfit] at hstep
    cases found with
    | none => exact Option.some.inj hstep ▸ h
    | some found =>
      obtain ⟨index, addr⟩ := found
      obtain ⟨A, s, B, hm, hidx, haddr⟩ := fitFrom_spec hfrom
      obtain ⟨hl, hr, -⟩ := addrInSeg_spec hsize haddr
      obtain rfl : index = A.length := hidx.trans (Nat.zero_add _)
      simp only [hm, allocSeg_eq, Option.map_some, Option.some.injEq] at hstep
      subst hstep
      have hmem := h.memory
      have hapart := h.apart
      rw [hm] at hmem hapart
      exact ⟨hmem.give hl (by omega) hr, hapart.split hl (by omega) hr⟩

/-- Freeing a live segment. -/
theorem Pool.Inv.freeSeg (h : p.Inv) {seg : Seg} (hseg : seg ∈ p.live) :
    seg.l < seg.r ∧ ∀ s ∈ p.memseg, s.Disjoint ⟨seg.l, seg.r⟩ :=
  ⟨h.memory.nonempty seg (List.mem_append_left _ hseg), fun s hs x hx hx' =>
    (List.pairwise_append.mp h.memory.partition.disjoint).2.2 seg hseg s hs x hx' hx⟩

/-- What a free leaves partitions the memory again. -/
theorem Pool.Inv.free_memory (h : p.Inv) {seg : Seg} (hseg : seg ∈ p.live) {m : List Seg}
    (hfree : Controller.freeSeg p.memseg seg.l seg.r = some m) :
    Exact (p.live.erase seg ++ m) switchMemSize := by
  obtain ⟨hlr, hdis⟩ := h.freeSeg hseg
  obtain ⟨m', hm', -, hne, hocc⟩ := freeSeg_spec hlr h.apart.sorted h.nonempty hdis
  obtain rfl : m = m' := Option.some.inj (hfree.symm.trans hm')
  refine ⟨fun s hs => ?_, fun x => ?_⟩
  · rcases List.mem_append.mp hs with hs | hs
    · exact h.memory.nonempty s (List.mem_append_left _ (List.mem_of_mem_erase hs))
    · exact hne s hs
  · have hperm : occ p.live x = occ (seg :: p.live.erase seg) x :=
      (List.perm_cons_erase hseg).countP_eq _
    have hold := h.memory.occ_eq x
    have hnew := hocc x
    simp only [occ_append, occ_cons] at hold hnew hperm ⊢
    omega

/-- **A free keeps the entries apart unless it bridges**, and then it leaves two that touch. -/
theorem Pool.Inv.free_apart (h : p.Inv) {seg : Seg} (hseg : seg ∈ p.live) {m : List Seg}
    (hfree : Controller.freeSeg p.memseg seg.l seg.r = some m) :
    (¬ p.Bridges (.free seg) → Apart m) ∧
      (p.Bridges (.free seg) → ¬ m.IsChain fun s t => s.r ≠ t.l) := by
  obtain ⟨hlr, hdis⟩ := h.freeSeg hseg
  have hapart := h.apart
  have hnonempty := h.nonempty
  obtain ⟨A, B, hm, hA, hB, hcase⟩ := freeSeg_cases hlr hapart.sorted hnonempty hdis
  rw [hm] at hapart hnonempty
  obtain ⟨hApart, hBpart, hAB⟩ := List.pairwise_append.mp hapart
  have hneB : ∀ b ∈ B, b.l < b.r := by
    intro b hb
    exact hnonempty b (List.mem_append_right _ hb)
  -- a bridged range ends where the first entry to its right starts
  have hhead : p.Bridges (.free seg) → (∃ a ∈ A, a.r = seg.l) ∧ ∃ b B', B = b :: B' ∧
      b.l = seg.r := by
    rintro ⟨⟨a, ha, har⟩, b, hb, hbl⟩
    rw [hm] at ha hb
    refine ⟨⟨a, (List.mem_append.mp ha).resolve_right fun haB => ?_, har⟩, ?_⟩
    · have := hneB a haB
      have := hB a haB
      omega
    · have hbB : b ∈ B := (List.mem_append.mp hb).resolve_left fun hbA => by
        have := hA b hbA
        have := hnonempty b hb
        omega
      cases B with
      | nil => exact absurd hbB List.not_mem_nil
      | cons c B' =>
        refine ⟨c, B', rfl, ?_⟩
        rcases List.mem_cons.mp hbB with rfl | hbB'
        · exact hbl
        · have := (List.pairwise_cons.mp hBpart).1 b hbB'
          have := hB c List.mem_cons_self
          have := hneB c List.mem_cons_self
          omega
  rcases hcase with ⟨A', a, rfl, har, hf⟩ | ⟨hAlt, hcase⟩
  · obtain rfl := Option.some.inj (hf.symm.trans hfree)
    obtain ⟨hA', -, hA'a⟩ := List.pairwise_append.mp hApart
    refine ⟨fun hno => ?_, fun hbridge hchain => ?_⟩
    · have hlt : ∀ b ∈ B, seg.r < b.l := by
        intro b hb
        refine Nat.lt_of_le_of_ne (hB b hb) fun heq => hno ⟨⟨a, ?_, har⟩, b, ?_, heq.symm⟩
        · rw [hm]; simp
        · rw [hm]; exact List.mem_append_right _ hb
      refine List.pairwise_append.mpr ⟨hA', List.pairwise_cons.mpr ⟨hlt, hBpart⟩, ?_⟩
      intro t ht u hu
      rcases List.mem_cons.mp hu with rfl | hu
      · exact hA'a t ht a List.mem_cons_self
      · exact hAB t (List.mem_append_left _ ht) u hu
    · obtain ⟨-, b, B', rfl, hbl⟩ := hhead hbridge
      exact (List.isChain_append_cons_cons.mp hchain).2.1 hbl.symm
  · refine ⟨fun _ => ?_, fun hbridge => ?_⟩
    · rcases hcase with ⟨b, B', rfl, hbl, hf⟩ | ⟨hBlt, hf⟩
      · obtain rfl := Option.some.inj (hf.symm.trans hfree)
        obtain ⟨hbB', hB'⟩ := List.pairwise_cons.mp hBpart
        refine List.pairwise_append.mpr ⟨hApart, List.pairwise_cons.mpr ⟨hbB', hB'⟩, ?_⟩
        intro t ht u hu
        rcases List.mem_cons.mp hu with rfl | hu
        · exact hAlt t ht
        · exact hAB t ht u (List.mem_cons_of_mem _ hu)
      · obtain rfl := Option.some.inj (hf.symm.trans hfree)
        refine List.pairwise_append.mpr ⟨hApart, List.pairwise_cons.mpr ⟨hBlt, hBpart⟩, ?_⟩
        intro t ht u hu
        rcases List.mem_cons.mp hu with rfl | hu
        · exact hAlt t ht
        · exact hAB t ht u hu
    · obtain ⟨⟨a, ha, har⟩, -⟩ := hhead hbridge
      have := hAlt a ha
      omega

/-- A free request, taken apart. -/
theorem Pool.Step.free_cases {seg : Seg} (hstep : p.Step (.free seg) p') :
    seg ∈ p.live ∧ ∃ m, Controller.freeSeg p.memseg seg.l seg.r = some m ∧
      p' = ⟨m, p.live.erase seg⟩ := by
  simp only [Pool.Step, Pool.exec] at hstep
  split at hstep
  · obtain ⟨m, hm, rfl⟩ := Option.map_eq_some_iff.mp hstep
    exact ⟨‹_›, m, hm, rfl⟩
  · exact absurd hstep (by simp)

/-- **A request that does not bridge keeps the invariant.** -/
theorem Pool.Inv.step (h : p.Inv) {op : MemOp} (hop : ¬ p.Bridges op) (hstep : p.Step op p') :
    p'.Inv := by
  cases op with
  | alloc size => exact h.alloc hstep
  | free seg =>
    obtain ⟨hseg, m, hfree, rfl⟩ := hstep.free_cases
    exact ⟨h.free_memory hseg hfree, (h.free_apart hseg hfree).1 hop⟩

/-- Every allocation of a power of two of MTUs, and every free of a live segment, is served. -/
theorem Pool.Inv.served (h : p.Inv) :
    (∀ k, ∃ p', p.Step (.alloc (mtuSize * 2 ^ k)) p') ∧
      ∀ seg ∈ p.live, ∃ p', p.Step (.free seg) p' := by
  refine ⟨fun k => ?_, fun seg hseg => ?_⟩
  · have hvalid : fitSeg p.memseg (mtuSize * 2 ^ k) =
        some (fitFrom (mtuSize * 2 ^ k) 0 p.memseg) := by
      refine if_neg ?_
      have hpow : ispower2 (2 ^ k) = true := by
        rw [ispower2, Nat.and_two_pow_sub_one_eq_mod, Nat.mod_self, decide_eq_true (Nat.two_pow_pos k)]
        rfl
      rw [Nat.mul_mod_right, Nat.mul_div_cancel_left _ (by decide), hpow]
      simp
    simp only [Pool.Step, Pool.exec, hvalid]
    cases hfit : fitFrom (mtuSize * 2 ^ k) 0 p.memseg with
    | none => exact ⟨p, rfl⟩
    | some found =>
      obtain ⟨index, addr⟩ := found
      obtain ⟨A, s, B, hm, hidx, -⟩ := fitFrom_spec hfit
      obtain rfl : index = A.length := hidx.trans (Nat.zero_add _)
      simp only [hm, allocSeg_eq]
      exact ⟨_, rfl⟩
  · obtain ⟨hlr, hdis⟩ := h.freeSeg hseg
    obtain ⟨m, hm, -⟩ := freeSeg_spec hlr h.apart.sorted h.nonempty hdis
    refine ⟨⟨m, p.live.erase seg⟩, ?_⟩
    simp only [Pool.Step, Pool.exec, if_pos hseg, hm, Option.map_some]

/-! ## 5. Runs -/

theorem Pool.inv_reach (h : Reach (· = Pool.start) Pool.Step (fun p op => ¬ p.Bridges op) p) :
    p.Inv :=
  h.invariant (P := Pool.Inv) (fun _ h0 => by rw [h0]; exact .start) fun _ _ _ hinv hop hstep =>
    hinv.step hop hstep

/-- **The free list is coalesced and complete** after every run that never frees a segment
between two free neighbours; the next request leaves it so exactly when it does not either.
Every request of the run is served. -/
theorem free_list_coalesced
    (h : Reach (· = Pool.start) Pool.Step (fun p op => ¬ p.Bridges op) p) :
    p.Coalesced ∧ (∀ op p', p.Step op p' → (p'.Coalesced ↔ ¬ p.Bridges op)) ∧
      (∀ k, ∃ p', p.Step (.alloc (mtuSize * 2 ^ k)) p') ∧
      ∀ seg ∈ p.live, ∃ p', p.Step (.free seg) p' := by
  have hinv := Pool.inv_reach h
  refine ⟨hinv.coalesced, fun op p' hstep => ⟨fun hco hbridge => ?_, fun hop =>
    (hinv.step hop hstep).coalesced⟩, hinv.served⟩
  cases op with
  | alloc size => exact hbridge
  | free seg =>
    obtain ⟨hseg, m, hfree, rfl⟩ := hstep.free_cases
    exact (hinv.free_apart hseg hfree).2 hbridge hco.apart

/-- Some requests, each allowed by `ok`. -/
def Pool.execAll (ok : Pool → MemOp → Bool) (p : Pool) : List MemOp → Option Pool
  | [] => some p
  | op :: ops => if ok p op then (p.exec op).bind fun p' => p'.execAll ok ops else none

theorem Pool.execAll_reach {ok : Pool → MemOp → Bool} {P : Pool → MemOp → Prop}
    (hok : ∀ p op, ok p op = true → P p op) (ops : List MemOp) :
    ∀ {p p' : Pool}, Reach (· = Pool.start) Pool.Step P p → p.execAll ok ops = some p' →
      Reach (· = Pool.start) Pool.Step P p' := by
  induction ops with
  | nil =>
    intro p p' hp h
    exact Option.some.inj h ▸ hp
  | cons op ops ih =>
    intro p p' hp h
    rw [Pool.execAll] at h
    split at h
    · obtain ⟨p₁, h₁, hrest⟩ := Option.bind_eq_some_iff.mp h
      exact ih (.step hp (hok p op ‹_›) h₁) hrest
    · exact absurd h (by simp)

/-- The block number `i` of the size a group gets. -/
def block (i : ℕ) : Seg := ⟨i * (256 * 1024), (i + 1) * (256 * 1024)⟩

/-- Three blocks are allocated, and freed in an order. -/
def threeBlocks (i j k : ℕ) : List MemOp :=
  [.alloc (256 * 1024), .alloc (256 * 1024), .alloc (256 * 1024), .free (block i), .free (block j),
    .free (block k)]

/-- **The middle one, freed last, is not merged to the right**: nothing is live, two entries
touch, and the whole memory cannot be allocated. -/
theorem free_list_coalesced_fails :
    ∃ p, Pool.start.execAll (fun _ _ => true) (threeBlocks 0 2 1) = some p ∧
      Reach (· = Pool.start) Pool.Step Free p ∧
      p = ⟨[⟨0, 512 * 1024⟩, ⟨512 * 1024, switchMemSize⟩], []⟩ ∧
      fitSeg p.memseg switchMemSize = some none ∧ p.FreeBlock switchMemSize 0 ∧
      ¬ p.Coalesced := by
  have hrun : Pool.start.execAll (fun _ _ => true) (threeBlocks 0 2 1) =
      some ⟨[⟨0, 512 * 1024⟩, ⟨512 * 1024, switchMemSize⟩], []⟩ := by decide +kernel
  refine ⟨_, hrun, Pool.execAll_reach (fun _ _ _ => trivial) _ (.init rfl) hrun, rfl,
    by decide +kernel, ⟨Nat.dvd_zero _, by decide, fun _ _ _ s hs => absurd hs List.not_mem_nil⟩,
    fun hco => ?_⟩
  exact absurd (hco.drained rfl) (by decide)

/-- Freed from the right to the left, the three are merged into one entry. -/
theorem free_list_coalesced_rightToLeft :
    ∃ p, Pool.start.execAll (fun p op => !decide (p.Bridges op)) (threeBlocks 2 1 0) = some p ∧
      p = ⟨[⟨0, switchMemSize⟩], []⟩ ∧ p.Coalesced := by
  have hrun : Pool.start.execAll (fun p op => !decide (p.Bridges op)) (threeBlocks 2 1 0) =
      some ⟨[⟨0, switchMemSize⟩], []⟩ := by decide +kernel
  exact ⟨_, hrun, rfl,
    (free_list_coalesced (Pool.execAll_reach (fun _ _ h => by simpa using h) _ (.init rfl) hrun)).1⟩

end NetCCL.Controller
