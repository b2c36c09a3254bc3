/-
# Tilings of an interval by half-open spans

A span `[start, start + len)` of natural numbers, and the statement that a LIST of spans
tiles an interval: each span starts where the previous one ended.  Empty spans are allowed
anywhere.  A tiling is what both a ring allocator's live region and a cut of a buffer into
packets are, so the facts the two developments share live here:

* `tiles_append`: two tilings that meet are one tiling, and conversely;
* `Tiles.pairwise_disjoint`: no point lies in two spans of a tiling;
* `Tiles.mem_iff`: the spans cover exactly the interval.
-/
import Mathlib.Data.List.Basic
import Mathlib.Data.List.Pairwise

namespace NetCCL.Lib

/-! ## 1. Spans -/

/-- The half-open interval `[start, start + len)`. -/
structure Span where
  start : ℕ
  len : ℕ
  deriving DecidableEq, Repr

/-- One past the last point of a span. -/
def Span.stop (s : Span) : ℕ := s.start + s.len

/-- `x` lies in the span. -/
def Span.Has (s : Span) (x : ℕ) : Prop := s.start ≤ x ∧ x < s.stop

instance (s : Span) (x : ℕ) : Decidable (s.Has x) :=
  inferInstanceAs (Decidable (_ ∧ _))

/-- No point lies in both spans. -/
def Span.Disjoint (s t : Span) : Prop := ∀ x, s.Has x → ¬ t.Has x

theorem Span.disjoint_of_le {s t : Span} (h : s.stop ≤ t.start) : s.Disjoint t :=
  fun _ hs ht => by have := hs.2; have := ht.1; omega

theorem Span.Disjoint.symm {s t : Span} (h : s.Disjoint t) : t.Disjoint s :=
  fun x ht hs => h x hs ht

/-- A span moved up by `d`. -/
def Span.shift (d : ℕ) (s : Span) : Span := ⟨d + s.start, s.len⟩

/-! ## 2. Tilings -/

/-- `Tiles lo l hi`: the spans of `l`, in order, tile `[lo, hi)`. -/
inductive Tiles : ℕ → List Span → ℕ → Prop
  | nil (a : ℕ) : Tiles a [] a
  | cons {s : Span} {r : List Span} {hi : ℕ} : Tiles s.stop r hi → Tiles s.start (s :: r) hi

theorem tiles_nil_iff {lo hi : ℕ} : Tiles lo [] hi ↔ lo = hi := by
  constructor
  · rintro ⟨⟩; rfl
  · rintro rfl; exact .nil _

theorem tiles_cons_iff {lo hi : ℕ} {s : Span} {r : List Span} :
    Tiles lo (s :: r) hi ↔ s.start = lo ∧ Tiles s.stop r hi := by
  constructor
  · rintro ⟨⟩; exact ⟨rfl, ‹_›⟩
  · rintro ⟨rfl, h⟩; exact .cons h

theorem tiles_singleton (s : Span) : Tiles s.start [s] s.stop := .cons (.nil _)

/-- A tiling goes up. -/
theorem Tiles.le {lo hi : ℕ} {l : List Span} (h : Tiles lo l hi) : lo ≤ hi := by
  induction h with
  | nil a => exact Nat.le_refl a
  | cons _ ih => exact Nat.le_trans (Nat.le_add_right _ _) ih

/-- Tilings that meet at a point make one tiling, and every cut of the list gives two. -/
theorem tiles_append {lo hi : ℕ} {l₁ l₂ : List Span} :
    Tiles lo (l₁ ++ l₂) hi ↔ ∃ mid, Tiles lo l₁ mid ∧ Tiles mid l₂ hi := by
  induction l₁ generalizing lo with
  | nil =>
    simp only [List.nil_append, tiles_nil_iff]
    exact ⟨fun h => ⟨lo, rfl, h⟩, fun ⟨_, e, h⟩ => e ▸ h⟩
  | cons s r ih =>
    simp only [List.cons_append, tiles_cons_iff, ih]
    constructor
    · rintro ⟨e, mid, h₁, h₂⟩; exact ⟨mid, ⟨e, h₁⟩, h₂⟩
    · rintro ⟨mid, ⟨e, h₁⟩, h₂⟩; exact ⟨e, mid, h₁, h₂⟩

/-- A tiling extended by one span at its end. -/
theorem Tiles.snoc {lo : ℕ} {l : List Span} {s : Span} (h : Tiles lo l s.start) :
    Tiles lo (l ++ [s]) s.stop :=
  tiles_append.mpr ⟨_, h, tiles_singleton s⟩

/-- Every span of a tiling lies inside the tiled interval. -/
theorem Tiles.bounds {lo hi : ℕ} {l : List Span} (h : Tiles lo l hi) :
    ∀ s ∈ l, lo ≤ s.start ∧ s.stop ≤ hi := by
  induction h with
  | nil => simp
  | @cons s r hi hr ih =>
    intro t ht
    rcases List.mem_cons.mp ht with rfl | ht
    · exact ⟨Nat.le_refl _, hr.le⟩
    · exact ⟨Nat.le_trans (Nat.le_add_right _ _) (ih t ht).1, (ih t ht).2⟩

/-- **No point lies in two spans of a tiling.** -/
theorem Tiles.pairwise_disjoint {lo hi : ℕ} {l : List Span} (h : Tiles lo l hi) :
    l.Pairwise Span.Disjoint := by
  induction h with
  | nil => exact .nil
  | cons hr ih => exact .cons (fun t ht => Span.disjoint_of_le (hr.bounds t ht).1) ih

/-- **The spans of a tiling cover exactly the interval.** -/
theorem Tiles.mem_iff {lo hi : ℕ} {l : List Span} (h : Tiles lo l hi) (x : ℕ) :
    (∃ s ∈ l, s.Has x) ↔ lo ≤ x ∧ x < hi := by
  constructor
  · rintro ⟨s, hs, h₁, h₂⟩
    have := h.bounds s hs
    omega
  · induction h with
    | nil => omega
    | @cons s r hi _ ih =>
      rintro ⟨h₁, h₂⟩
      rcases Nat.lt_or_ge x s.stop with hx | hx
      · exact ⟨s, List.mem_cons_self, h₁, hx⟩
      · obtain ⟨t, ht, hx'⟩ := ih ⟨hx, h₂⟩
        exact ⟨t, List.mem_cons_of_mem _ ht, hx'⟩

/-- Counted: a point of the tiled interval lies in one span, any other point in none. -/
theorem Tiles.countP {lo hi : ℕ} {l : List Span} (h : Tiles lo l hi) (x : ℕ) :
    l.countP (fun s => decide (s.Has x)) = if lo ≤ x ∧ x < hi then 1 else 0 := by
  induction h with
  | nil a => rw [List.countP_nil, if_neg (by omega)]
  | @cons s r hi hr ih =>
    have hle := hr.le
    have hstart : s.start ≤ s.stop := Nat.le_add_right _ _
    rw [List.countP_cons, ih]
    by_cases hx : s.Has x
    · obtain ⟨hge, hlt⟩ := id hx
      rw [if_pos (decide_eq_true hx), if_neg (by omega), if_pos (by omega)]
    · have hout : ¬ (s.start ≤ x ∧ x < s.stop) := hx
      rw [decide_eq_false hx, if_neg Bool.false_ne_true, Nat.add_zero]
      split <;> split <;> omega

/-- Moving every span of a tiling up by `d` moves the tiled interval up by `d`. -/
theorem Tiles.shift {lo hi : ℕ} {l : List Span} (h : Tiles lo l hi) (d : ℕ) :
    Tiles (d + lo) (l.map (Span.shift d)) (d + hi) := by
  induction h with
  | nil => exact .nil _
  | @cons s r hi _ ih =>
    have e : (Span.shift d s).stop = d + s.stop := Nat.add_assoc _ _ _
    exact tiles_cons_iff.mpr ⟨rfl, e ▸ ih⟩

end NetCCL.Lib
