/-
# Stretches of a numbered sequence

A queue that is fed in order holds, at every moment, a STRETCH of the sequence it is fed
with: the elements numbered `a`, …, `b - 1`.  Appending moves `b`, removing the front moves
`a`, and what a chain of queues holds between them is the stretch from the first `a` to the
last `b`.  Nothing more than these four facts is needed of a FIFO.
-/
import Mathlib.Data.List.Basic

namespace NetCCL.Lib

universe u v

variable {α : Type u} {β : Type v} {f g : ℕ → α} {a b c : ℕ}

/-- The elements of a sequence from number `a` up to, not including, number `b`. -/
def stretch (f : ℕ → α) (a b : ℕ) : List α := (List.range' a (b - a)).map f

theorem stretch_self (f : ℕ → α) (a : ℕ) : stretch f a a = [] := by simp [stretch]

@[simp] theorem stretch_length (f : ℕ → α) (a b : ℕ) : (stretch f a b).length = b - a := by
  simp [stretch]

theorem stretch_cons (f : ℕ → α) (h : a < b) : stretch f a b = f a :: stretch f (a + 1) b := by
  have hlen : b - a = b - (a + 1) + 1 := by omega
  rw [stretch, stretch, hlen, List.range'_succ, List.map_cons]

/-- Two stretches that meet. -/
theorem stretch_append (f : ℕ → α) (hab : a ≤ b) (hbc : b ≤ c) :
    stretch f a b ++ stretch f b c = stretch f a c := by
  have happ := @List.range'_append_1 a (b - a) (c - b)
  rw [Nat.add_sub_cancel' hab] at happ
  rw [stretch, stretch, stretch, ← List.map_append, happ]
  congr 2
  omega

theorem stretch_snoc (f : ℕ → α) (h : a ≤ b) : stretch f a b ++ [f b] = stretch f a (b + 1) := by
  rw [← stretch_append f h (Nat.le_succ b), stretch_cons f (Nat.lt_succ_self b), stretch_self]

theorem stretch_tail (f : ℕ → α) (a b : ℕ) : (stretch f a b).tail = stretch f (a + 1) b := by
  rcases Nat.lt_or_ge a b with h | h
  · rw [stretch_cons f h, List.tail_cons]
  · rw [stretch, stretch, Nat.sub_eq_zero_of_le h, Nat.sub_eq_zero_of_le (by omega)]
    rfl

/-- The front of a stretch, if there is one, is its first element. -/
theorem stretch_head? {x : α} : (stretch f a b).head? = some x ↔ a < b ∧ x = f a := by
  rcases Nat.lt_or_ge a b with h | h
  · rw [stretch_cons f h, List.head?_cons, Option.some.injEq]
    exact ⟨fun hx => ⟨h, hx.symm⟩, fun hx => hx.2.symm⟩
  · rw [stretch, Nat.sub_eq_zero_of_le h]
    exact ⟨fun hx => absurd hx (by simp), fun hx => absurd hx.1 (by omega)⟩

theorem stretch_map (h : α → β) (f : ℕ → α) (a b : ℕ) :
    (stretch f a b).map h = stretch (h ∘ f) a b := by rw [stretch, stretch, List.map_map]

/-- Only the numbers of the stretch matter. -/
theorem stretch_congr (h : ∀ k, a ≤ k → k < b → f k = g k) : stretch f a b = stretch g a b := by
  refine List.map_congr_left fun k hk => ?_
  obtain ⟨hak, hkb⟩ := List.mem_range'_1.mp hk
  exact h k hak (by omega)

/-- The beginning of a list, as a stretch of its elements. -/
theorem stretch_getD (xs : List β) (h : ℕ → β → α) (d : β) (hb : b ≤ xs.length) :
    stretch (fun k => h k (xs.getD k d)) 0 b = (xs.mapIdx h).take b := by
  refine List.ext_getElem? fun i => ?_
  rw [stretch, List.getElem?_map, List.getElem?_take, List.getElem?_mapIdx, Nat.sub_zero]
  rcases Nat.lt_or_ge i b with hi | hi
  · have hlt : i < xs.length := Nat.lt_of_lt_of_le hi hb
    rw [List.getElem?_range' hi, if_pos hi, List.getElem?_eq_getElem hlt]
    simp [List.getD_eq_getElem?_getD, hlt]
  · rw [List.getElem?_eq_none (by simpa using hi), if_neg (by omega)]
    rfl

end NetCCL.Lib
