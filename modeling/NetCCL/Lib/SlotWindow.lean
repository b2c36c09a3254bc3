/-
# Sliding windows over shared slots

Some senders number their packets 0, 1, 2, ... and each keeps a window of at most `W` of them
open: packet `q` may be sent, and sent again, as long as it is in the window, and it leaves
the window in order, once it is accepted.  A channel delivers in order what it does not lose.
At the other end all senders share a table of slots: packet `q` arrives at slot `q % L` and
takes it over, whatever the slot shows.  A packet is accepted anywhere only after it has
arrived from everybody.  Nobody ever releases a slot.

`Traffic` is the state of all this and `Traffic.Step` what may happen, in any order.  With
`2 * W ≤ L` nobody takes over a slot that anybody still needs:

* `Inv.fresh`: a packet arrives at a slot that shows its number, or it is the first of its
  number to arrive;
* `Inv.passed`: if the slot of an arrived packet shows another number, the packet has left
  every window;
* `Inv.recoverable`: a packet accepted by one sender and not by another is still in its slot;
* `Inv.behind`: who has a packet `L` further on knows that all have accepted this one.
-/
import Mathlib.Data.Nat.ModEq
import Mathlib.Data.Set.Insert
import Mathlib.Data.List.Induction
import Mathlib.Logic.Relation

namespace NetCCL.Lib

universe u

/-! ## 1. The state and its steps -/

/-- `lo` and `hi` are the edges of the windows, `acc` what was accepted, `chan` what is on its
way, `arr` what has arrived, and `slot` the number each slot shows. -/
structure Traffic (ι : Type u) where
  lo : ι → ℕ
  hi : ι → ℕ
  acc : ι → Set ℕ
  chan : ι → List ℕ
  arr : ι → Set ℕ
  slot : ℕ → Option ℕ

namespace Traffic

variable {ι : Type u} [DecidableEq ι]

/-- Nothing has happened yet. -/
def start : Traffic ι :=
  ⟨fun _ => 0, fun _ => 0, fun _ => ∅, fun _ => [], fun _ => ∅, fun _ => none⟩

/-- What may happen. -/
inductive Step (W L : ℕ) (f : Traffic ι) : Traffic ι → Prop
  | build (i : ι) : f.hi i < f.lo i + W →
      Step W L f { f with hi := Function.update f.hi i (f.hi i + 1) }
  | send (i : ι) {q : ℕ} : f.lo i ≤ q → q < f.hi i →
      Step W L f { f with chan := Function.update f.chan i (f.chan i ++ [q]) }
  | accept (i : ι) {q : ℕ} : (∀ k, q ∈ f.arr k) →
      Step W L f { f with acc := Function.update f.acc i (insert q (f.acc i)) }
  | shift (i : ι) : f.lo i ∈ f.acc i →
      Step W L f { f with lo := Function.update f.lo i (f.lo i + 1) }
  | lose (i : ι) {l : List ℕ} : l.Sublist (f.chan i) →
      Step W L f { f with chan := Function.update f.chan i l }
  | arrive (i : ι) {q : ℕ} {l : List ℕ} : f.chan i = q :: l →
      Step W L f { f with
        chan := Function.update f.chan i l
        arr := Function.update f.arr i (insert q (f.arr i))
        slot := Function.update f.slot (q % L) (some q) }

/-- Any number of steps. -/
abbrev Steps (W L : ℕ) : Traffic ι → Traffic ι → Prop := Relation.ReflTransGen (Step W L)

/-! ## 2. The invariant -/

/-- **The invariant.** -/
structure Inv (W L : ℕ) (f : Traffic ι) : Prop where
  le : ∀ i, f.lo i ≤ f.hi i
  width : ∀ i, f.hi i ≤ f.lo i + W
  left : ∀ i, ∀ q < f.lo i, q ∈ f.acc i
  whole : ∀ i, ∀ q ∈ f.acc i, ∀ k, q ∈ f.arr k
  sent : ∀ i, ∀ q ∈ f.chan i, q < f.hi i
  come : ∀ i, ∀ q ∈ f.arr i, q < f.hi i
  order : ∀ i, ∀ x ∈ f.arr i, ∀ q ∈ f.chan i, x < q + W
  fifo : ∀ i, (f.chan i).Pairwise fun x q => x < q + W
  empty : ∀ j, f.slot j = none → ∀ i, ∀ x ∈ f.arr i, x % L ≠ j
  holds : ∀ j P, f.slot j = some P →
    P % L = j ∧ (∃ i, P ∈ f.arr i) ∧ ∀ i, ∀ x ∈ f.arr i, x % L = j → x ≤ P

variable {W L : ℕ} {f f' : Traffic ι}

omit [DecidableEq ι] in
theorem Inv.start : Inv W L (start : Traffic ι) :=
  ⟨by simp [Traffic.start], by simp [Traffic.start], by simp [Traffic.start],
    by simp [Traffic.start], by simp [Traffic.start], by simp [Traffic.start],
    by simp [Traffic.start], by simp [Traffic.start], by simp [Traffic.start],
    by simp [Traffic.start]⟩

section Facts

omit [DecidableEq ι]

/-- Numbers with one slot are equal or a lap apart. -/
theorem lap_le {x y : ℕ} (h : x % L = y % L) (hlt : x < y) : x + L ≤ y := by
  obtain ⟨d, hd⟩ : L ∣ y - x := (Nat.modEq_iff_dvd' (Nat.le_of_lt hlt)).mp h
  have hpos : 0 < d := Nat.pos_of_ne_zero fun h0 => by
    rw [h0, Nat.mul_zero] at hd
    omega
  have hL : L ≤ L * d := Nat.le_mul_of_pos_right L hpos
  omega

/-- A window's width behind a packet everything is accepted by its own sender. -/
theorem Inv.accepted (h : Inv W L f) {i : ι} {x y : ℕ} (hx : x < f.hi i) (hy : y + W ≤ x) :
    y ∈ f.acc i := by
  have hw := h.width i
  exact h.left i y (by omega)

/-- Two widths behind, everything has left all windows. -/
theorem Inv.left_all (h : Inv W L f) {i : ι} {x y : ℕ} (hx : x < f.hi i) (hy : y + W + W ≤ x)
    (k : ι) : y < f.lo k := by
  have hacc : y + W ∈ f.acc i := h.accepted hx hy
  have hk := h.come k _ (h.whole i _ hacc k)
  have hw := h.width k
  omega

variable (hWL : 2 * W ≤ L)

include hWL

/-- **Who has a packet `L` further on** knows that all have accepted this one. -/
theorem Inv.behind (h : Inv W L f) {i : ι} {x q : ℕ} (hx : x < f.hi i) (hq : q + L ≤ x) (k : ι) :
    q ∈ f.acc k :=
  h.left k q (h.left_all hx (by omega) k)

/-- **A packet whose slot shows another number** has left every window. -/
theorem Inv.passed (h : Inv W L f) {i : ι} {q P : ℕ} (hq : q ∈ f.arr i)
    (hslot : f.slot (q % L) = some P) (hne : P ≠ q) (k : ι) : q < f.lo k := by
  obtain ⟨hmod, ⟨i', hP⟩, hmax⟩ := h.holds _ _ hslot
  have hle := hmax i q hq rfl
  have hlap := lap_le hmod.symm (Nat.lt_of_le_of_ne hle (Ne.symm hne))
  exact h.left_all (h.come i' P hP) (by omega) k

/-- An arrived packet that is still in a window is in its slot. -/
theorem Inv.kept (h : Inv W L f) {i k : ι} {q : ℕ} (hq : q ∈ f.arr i) (hk : f.lo k ≤ q) :
    f.slot (q % L) = some q := by
  cases hslot : f.slot (q % L) with
  | none => exact absurd rfl (h.empty _ hslot i q hq)
  | some P =>
    by_contra hne
    have hlt := h.passed hWL hq hslot (fun he => hne (congrArg some he)) k
    omega

/-- **A packet accepted by one and not by another** is still in its slot, complete. -/
theorem Inv.recoverable (h : Inv W L f) {i k : ι} {q : ℕ} (hi : q ∈ f.acc i) (hk : q ∉ f.acc k) :
    f.slot (q % L) = some q ∧ ∀ k', q ∈ f.arr k' :=
  ⟨h.kept hWL (h.whole i q hi k) (Nat.le_of_not_lt fun hlt => hk (h.left k q hlt)), h.whole i q hi⟩

/-- **An arriving packet** finds its number in the slot, or is the first of its number; and
then the slot shows nothing, or the number one lap before. -/
theorem Inv.fresh (h : Inv W L f) {i : ι} {q : ℕ} {l : List ℕ} (hc : f.chan i = q :: l) :
    f.slot (q % L) = some q ∨ ((∀ k, q ∉ f.arr k) ∧
      ∀ P, f.slot (q % L) = some P → q = P + L) := by
  have hmem : q ∈ f.chan i := hc ▸ List.mem_cons_self
  have hq := h.sent i q hmem
  cases hslot : f.slot (q % L) with
  | none => exact Or.inr ⟨fun k hk => h.empty _ hslot k q hk rfl, fun P hP => by simp at hP⟩
  | some P =>
    obtain ⟨hmod, ⟨i', hP⟩, hmax⟩ := h.holds _ _ hslot
    have hPhi := h.come i' P hP
    rcases Nat.lt_trichotomy q P with hlt | rfl | hlt
    · -- the sender of `P` has `q + W` accepted, which arrived behind `q`
      have hlap := lap_le hmod.symm hlt
      have hacc : q + W ∈ f.acc i' := h.accepted hPhi (by omega)
      exact absurd (h.order i _ (h.whole i' _ hacc i) q hmem) (Nat.lt_irrefl _)
    · exact Or.inl rfl
    · have hlap := lap_le hmod hlt
      have hnext : q = P + L := by
        by_contra hne
        -- a second lap: the sender of `q` has `P + L` accepted, which arrived behind `P`
        have hmod' : (P + L) % L = q % L := by rw [Nat.add_mod_right, hmod]
        have hlap' := lap_le hmod' (by omega)
        have hacc : P + L ∈ f.acc i := h.accepted hq (by omega)
        have hle := hmax i _ (h.whole i _ hacc i) hmod'
        have hpos : 0 < L := by
          rcases Nat.eq_zero_or_pos L with rfl | hL
          · simp only [Nat.mod_zero] at hmod
            omega
          · exact hL
        omega
      refine Or.inr ⟨fun k hk => ?_, fun P' hP' => ?_⟩
      · have hle := hmax k q hk rfl
        omega
      · rw [← Option.some.inj hP']
        exact hnext

end Facts

/-! ## 3. Every step keeps it -/

theorem Inv.build (h : Inv W L f) {i : ι} (hlt : f.hi i < f.lo i + W) :
    Inv W L { f with hi := Function.update f.hi i (f.hi i + 1) } := by
  have hmono : ∀ k, f.hi k ≤ Function.update f.hi i (f.hi i + 1) k := by
    intro k
    rcases eq_or_ne k i with rfl | hk
    · rw [Function.update_self]
      exact Nat.le_succ _
    · rw [Function.update_of_ne hk]
  refine { h with
    le := fun k => Nat.le_trans (h.le k) (hmono k)
    width := (Function.forall_update_iff f.hi fun k b => b ≤ f.lo k + W).mpr
      ⟨hlt, fun k _ => h.width k⟩
    sent := fun k q hq => Nat.lt_of_lt_of_le (h.sent k q hq) (hmono k)
    come := fun k q hq => Nat.lt_of_lt_of_le (h.come k q hq) (hmono k) }

theorem Inv.send (h : Inv W L f) {i : ι} {q : ℕ} (hlo : f.lo i ≤ q) (hhi : q < f.hi i) :
    Inv W L { f with chan := Function.update f.chan i (f.chan i ++ [q]) } := by
  have hw := h.width i
  refine { h with
    sent := (Function.forall_update_iff f.chan fun k l => ∀ q ∈ l, q < f.hi k).mpr
      ⟨fun x hx => ?_, fun k _ => h.sent k⟩
    order := (Function.forall_update_iff f.chan fun k l =>
        ∀ x ∈ f.arr k, ∀ q ∈ l, x < q + W).mpr ⟨fun x hx y hy => ?_, fun k _ => h.order k⟩
    fifo := (Function.forall_update_iff f.chan fun k l =>
        l.Pairwise fun x q => x < q + W).mpr ⟨?_, fun k _ => h.fifo k⟩ }
  · rcases List.mem_append.mp hx with hx | hx
    · exact h.sent i x hx
    · rwa [List.mem_singleton.mp hx]
  · rcases List.mem_append.mp hy with hy | hy
    · exact h.order i x hx y hy
    · have hcome := h.come i x hx
      rw [List.mem_singleton.mp hy]
      omega
  · refine List.pairwise_append.mpr ⟨h.fifo i, List.pairwise_singleton _ _, fun x hx y hy => ?_⟩
    have hsent := h.sent i x hx
    rw [List.mem_singleton.mp hy]
    omega

theorem Inv.accept (h : Inv W L f) {i : ι} {q : ℕ} (hall : ∀ k, q ∈ f.arr k) :
    Inv W L { f with acc := Function.update f.acc i (insert q (f.acc i)) } := by
  refine { h with
    left := (Function.forall_update_iff f.acc fun k s => ∀ q < f.lo k, q ∈ s).mpr
      ⟨fun x hx => Set.mem_insert_of_mem _ (h.left i x hx), fun k _ => h.left k⟩
    whole := (Function.forall_update_iff f.acc fun k s => ∀ q ∈ s, ∀ k', q ∈ f.arr k').mpr
      ⟨fun x hx => ?_, fun k _ => h.whole k⟩ }
  rcases hx with rfl | hx
  · exact hall
  · exact h.whole i x hx

theorem Inv.shift (h : Inv W L f) {i : ι} (hacc : f.lo i ∈ f.acc i) :
    Inv W L { f with lo := Function.update f.lo i (f.lo i + 1) } := by
  have hlt : f.lo i < f.hi i := h.come i _ (h.whole i _ hacc i)
  have hw := h.width i
  refine { h with
    le := (Function.forall_update_iff f.lo fun k a => a ≤ f.hi k).mpr ⟨hlt, fun k _ => h.le k⟩
    width := (Function.forall_update_iff f.lo fun k a => f.hi k ≤ a + W).mpr
      ⟨by omega, fun k _ => h.width k⟩
    left := (Function.forall_update_iff f.lo fun k a => ∀ q < a, q ∈ f.acc k).mpr
      ⟨fun q hq => ?_, fun k _ => h.left k⟩ }
  rcases Nat.eq_or_lt_of_le (Nat.le_of_lt_succ hq) with rfl | hq
  · exact hacc
  · exact h.left i q hq

theorem Inv.lose (h : Inv W L f) {i : ι} {l : List ℕ} (hsub : l.Sublist (f.chan i)) :
    Inv W L { f with chan := Function.update f.chan i l } := by
  refine { h with
    sent := (Function.forall_update_iff f.chan fun k l => ∀ q ∈ l, q < f.hi k).mpr
      ⟨fun x hx => h.sent i x (hsub.subset hx), fun k _ => h.sent k⟩
    order := (Function.forall_update_iff f.chan fun k l => ∀ x ∈ f.arr k, ∀ q ∈ l, x < q + W).mpr
      ⟨fun x hx q hq => h.order i x hx q (hsub.subset hq), fun k _ => h.order k⟩
    fifo := (Function.forall_update_iff f.chan fun k l => l.Pairwise fun x q => x < q + W).mpr
      ⟨(h.fifo i).sublist hsub, fun k _ => h.fifo k⟩ }

/-- What has arrived after one more arrival. -/
theorem mem_update_insert {i k : ι} {q x : ℕ} :
    x ∈ Function.update f.arr i (insert q (f.arr i)) k ↔ (k = i ∧ x = q) ∨ x ∈ f.arr k := by
  rcases eq_or_ne k i with rfl | hk
  · rw [Function.update_self, Set.mem_insert_iff]
    simp
  · rw [Function.update_of_ne hk]
    simp [hk]

theorem Inv.arrive (hWL : 2 * W ≤ L) (h : Inv W L f) {i : ι} {q : ℕ} {l : List ℕ}
    (hc : f.chan i = q :: l) :
    Inv W L { f with
      chan := Function.update f.chan i l
      arr := Function.update f.arr i (insert q (f.arr i))
      slot := Function.update f.slot (q % L) (some q) } := by
  have hfresh := h.fresh hWL hc
  have hlost := h.lose (i := i) (l := l) (hc ▸ List.sublist_cons_self q l)
  have hq : q < f.hi i := h.sent i q (hc ▸ List.mem_cons_self)
  have hfifo := h.fifo i
  rw [hc, List.pairwise_cons] at hfifo
  refine { hlost with
    whole := fun k x hx k' => mem_update_insert.mpr (Or.inr (h.whole k x hx k'))
    come := fun k x hx => ?_
    order := fun k x hx y hy => ?_
    empty := fun j hj k x hx => ?_
    holds := fun j P hP => ?_ }
  · rcases mem_update_insert.mp hx with ⟨rfl, rfl⟩ | hx
    · exact hq
    · exact h.come k x hx
  · rcases mem_update_insert.mp hx with ⟨rfl, rfl⟩ | hx
    · exact hfifo.1 y (by simpa using hy)
    · exact hlost.order k x hx y hy
  · have hne : j ≠ q % L := by
      rintro rfl
      simp at hj
    dsimp only at hj
    rw [Function.update_of_ne hne] at hj
    rcases mem_update_insert.mp hx with ⟨-, rfl⟩ | hx
    · exact hne.symm
    · exact h.empty j hj k x hx
  · dsimp only at hP
    rcases eq_or_ne j (q % L) with rfl | hne
    · rw [Function.update_self] at hP
      obtain rfl := Option.some.inj hP
      refine ⟨rfl, ⟨i, mem_update_insert.mpr (Or.inl ⟨rfl, rfl⟩)⟩, fun k x hx hmod => ?_⟩
      rcases mem_update_insert.mp hx with ⟨-, rfl⟩ | hx
      · exact Nat.le_refl _
      · rcases hfresh with hslot | ⟨-, hslot⟩
        · exact (h.holds _ _ hslot).2.2 k x hx hmod
        · cases hold : f.slot (q % L) with
          | none => exact absurd hmod (h.empty _ hold k x hx)
          | some P =>
            have hle := (h.holds _ _ hold).2.2 k x hx hmod
            have hnext := hslot P hold
            omega
    · rw [Function.update_of_ne hne] at hP
      obtain ⟨hmod, ⟨k, hk⟩, hmax⟩ := h.holds j P hP
      refine ⟨hmod, ⟨k, mem_update_insert.mpr (Or.inr hk)⟩, fun k' x hx hx' => ?_⟩
      rcases mem_update_insert.mp hx with ⟨-, rfl⟩ | hx
      · exact absurd hx'.symm hne
      · exact hmax k' x hx hx'

/-- **Every step keeps the invariant.** -/
theorem Inv.step (hWL : 2 * W ≤ L) (h : Inv W L f) (hstep : Step W L f f') : Inv W L f' := by
  cases hstep with
  | build i hlt => exact h.build hlt
  | send i hlo hhi => exact h.send hlo hhi
  | accept i hall => exact h.accept hall
  | shift i hacc => exact h.shift hacc
  | lose i hsub => exact h.lose hsub
  | arrive i hc => exact h.arrive hWL hc

/-- **So does every run.** -/
theorem Inv.steps (hWL : 2 * W ≤ L) (h : Inv W L f) (hsteps : Steps W L f f') : Inv W L f' := by
  induction hsteps with
  | refl => exact h
  | tail _ hstep ih => exact ih.step hWL hstep

/-! ## 4. What one sender does at a time -/

/-- Another state of sender `i`. -/
def host (f : Traffic ι) (i : ι) (lo hi : ℕ) (acc : Set ℕ) (chan : List ℕ) : Traffic ι :=
  { f with
    lo := Function.update f.lo i lo
    hi := Function.update f.hi i hi
    acc := Function.update f.acc i acc
    chan := Function.update f.chan i chan }

variable {i : ι} {lo hi : ℕ} {acc : Set ℕ} {chan : List ℕ}

theorem host_self (f : Traffic ι) (i : ι) :
    f.host i (f.lo i) (f.hi i) (f.acc i) (f.chan i) = f := by
  simp [host]

theorem steps_host_accept {q : ℕ} (h : ∀ k, q ∈ f.arr k) :
    Steps W L (f.host i lo hi acc chan) (f.host i lo hi (insert q acc) chan) := by
  have hstep := Step.accept (W := W) (L := L) (f := f.host i lo hi acc chan) i h
  simp only [host, Function.update_self, Function.update_idem] at hstep
  exact .single hstep

theorem steps_host_build (h : hi < lo + W) :
    Steps W L (f.host i lo hi acc chan) (f.host i lo (hi + 1) acc chan) := by
  have hstep := Step.build (W := W) (L := L) (f := f.host i lo hi acc chan) i
    (by simpa [host] using h)
  simp only [host, Function.update_self, Function.update_idem] at hstep
  exact .single hstep

theorem steps_host_shift (n : ℕ) (h : ∀ q, lo ≤ q → q < lo + n → q ∈ acc) :
    Steps W L (f.host i lo hi acc chan) (f.host i (lo + n) hi acc chan) := by
  induction n with
  | zero => exact .refl
  | succ n ih =>
    refine (ih fun q hq hq' => h q hq (by omega)).tail ?_
    have hstep := Step.shift (W := W) (L := L) (f := f.host i (lo + n) hi acc chan) i
      (by simpa [host] using h (lo + n) (by omega) (by omega))
    simpa only [host, Function.update_self, Function.update_idem, Nat.add_assoc] using hstep

theorem steps_host_send (out : List ℕ) (h : ∀ q ∈ out, lo ≤ q ∧ q < hi) :
    Steps W L (f.host i lo hi acc chan) (f.host i lo hi acc (chan ++ out)) := by
  induction out using List.reverseRecOn with
  | nil => rw [List.append_nil]
  | append_singleton out q ih =>
    refine (ih fun x hx => h x (List.mem_append_left _ hx)).tail ?_
    obtain ⟨hlo, hhi⟩ := h q (by simp)
    have hstep := Step.send (W := W) (L := L) (f := f.host i lo hi acc (chan ++ out)) i (q := q)
      (by simpa [host] using hlo) (by simpa [host] using hhi)
    simpa only [host, Function.update_self, Function.update_idem, List.append_assoc] using hstep

/-- **A sender's turn**: it may build a packet, or accept one, then shift its window, and send
what is in it. -/
theorem steps_host {lo' hi' : ℕ} {acc' : Set ℕ} {out : List ℕ}
    (hbuild : hi' = f.hi i ∨ (hi' = f.hi i + 1 ∧ f.hi i < f.lo i + W))
    (hacc : acc' = f.acc i ∨ ∃ q, (∀ k, q ∈ f.arr k) ∧ acc' = insert q (f.acc i))
    (hlo : f.lo i ≤ lo') (hshift : ∀ q, f.lo i ≤ q → q < lo' → q ∈ acc')
    (hout : ∀ q ∈ out, lo' ≤ q ∧ q < hi') :
    Steps W L f (f.host i lo' hi' acc' (f.chan i ++ out)) := by
  have hbuilt : Steps W L f (f.host i (f.lo i) hi' (f.acc i) (f.chan i)) := by
    obtain rfl | ⟨rfl, hlt⟩ := hbuild
    · rw [host_self]
    · have hsteps : Steps W L (f.host i (f.lo i) (f.hi i) (f.acc i) (f.chan i))
          (f.host i (f.lo i) (f.hi i + 1) (f.acc i) (f.chan i)) := steps_host_build hlt
      rwa [host_self] at hsteps
  have haccepted : Steps W L (f.host i (f.lo i) hi' (f.acc i) (f.chan i))
      (f.host i (f.lo i) hi' acc' (f.chan i)) := by
    obtain rfl | ⟨q, hq, rfl⟩ := hacc
    · exact .refl
    · exact steps_host_accept hq
  have hshifted : Steps W L (f.host i (f.lo i) hi' acc' (f.chan i))
      (f.host i (f.lo i + (lo' - f.lo i)) hi' acc' (f.chan i)) :=
    steps_host_shift (lo' - f.lo i) fun q hq hq' => hshift q hq (by omega)
  rw [Nat.add_sub_cancel' hlo] at hshifted
  exact hbuilt.trans (haccepted.trans (hshifted.trans (steps_host_send out hout)))

end Traffic

end NetCCL.Lib
