/-
# Positions within a class

A list of things of several classes is, class by class, a list of its own: `l.filter p`.  What
stands at position `j` of the list has number `within p l j` in the list of its class.

The two ways of counting go over into each other (`getElem?_filter_within`,
`exists_of_filter`), and what is added at the end changes no number (`within_extend`).
-/
import Mathlib.Data.List.Induction
import Mathlib.Data.Nat.Init

namespace NetCCL.Lib

universe u

variable {α : Type u} {p : α → Bool} {l l' : List α} {i j q : ℕ} {x y : α}

/-- How many of the class stand before position `j`. -/
def within (p : α → Bool) (l : List α) (j : ℕ) : ℕ := (l.take j).countP p

theorem within_eq_length (p : α → Bool) (l : List α) (j : ℕ) :
    within p l j = ((l.take j).filter p).length := List.countP_eq_length_filter

theorem within_length (p : α → Bool) (l : List α) : within p l l.length = (l.filter p).length := by
  rw [within_eq_length, List.take_length]

/-- What is added at the end changes no number. -/
theorem within_extend (h : l <+: l') (hj : j ≤ l.length) : within p l' j = within p l j := by
  obtain ⟨rest, rfl⟩ := h
  rw [within, within, List.take_append_of_le_length hj]

/-- One position further on. -/
theorem within_succ (h : l[j]? = some x) :
    within p l (j + 1) = within p l j + if p x then 1 else 0 := by
  obtain ⟨hlt, rfl⟩ := List.getElem?_eq_some_iff.mp h
  rw [within, within, List.take_succ_eq_append_getElem hlt, List.countP_append,
    List.countP_singleton]

theorem within_mono (hij : i ≤ j) : within p l i ≤ within p l j :=
  (List.take_sublist_take_left hij).countP_le

/-- Between two positions stand no more of the class than there are positions. -/
theorem within_le (hij : i ≤ j) : within p l j ≤ within p l i + (j - i) := by
  induction j, hij using Nat.le_induction with
  | base => exact Nat.le_add_right _ _
  | succ j hij ih =>
    rcases Nat.lt_or_ge j l.length with hj | hj
    · rw [within_succ (List.getElem?_eq_getElem hj)]
      split <;> omega
    · have hsame : within p l (j + 1) = within p l j := by
        rw [within, within, List.take_of_length_le hj, List.take_of_length_le (by omega)]
      omega

/-- A member of the class counts for all later positions. -/
theorem within_lt (hx : l[i]? = some x) (hp : p x = true) (hij : i < j) :
    within p l i < within p l j := by
  have hnext := within_succ (p := p) hx
  rw [if_pos hp] at hnext
  have hmono : within p l (i + 1) ≤ within p l j := within_mono hij
  omega

/-- **The number is the position** in the list of the class. -/
theorem getElem?_filter_within (hx : l[j]? = some x) (hp : p x = true) :
    (l.filter p)[within p l j]? = some x := by
  obtain ⟨hlt, rfl⟩ := List.getElem?_eq_some_iff.mp hx
  have hsplit : l.filter p = (l.take j).filter p ++ (l.drop j).filter p := by
    rw [← List.filter_append, List.take_append_drop]
  rw [hsplit, within_eq_length, List.getElem?_append_right (Nat.le_refl _), Nat.sub_self,
    List.drop_eq_getElem_cons hlt, List.filter_cons_of_pos hp, List.getElem?_cons_zero]

/-- **What is in the list of the class** stands in the list, at a position of that number. -/
theorem exists_of_filter (h : (l.filter p)[q]? = some x) :
    ∃ j, l[j]? = some x ∧ p x = true ∧ within p l j = q := by
  induction l using List.reverseRecOn with
  | nil => exact absurd h (by simp)
  | append_singleton l y ih =>
    rw [List.filter_append] at h
    rcases Nat.lt_or_ge q (l.filter p).length with hq | hq
    · rw [List.getElem?_append_left hq] at h
      obtain ⟨j, hj, hp, hnum⟩ := ih h
      have hlt := (List.getElem?_eq_some_iff.mp hj).1
      refine ⟨j, by rw [List.getElem?_append_left hlt, hj], hp, ?_⟩
      rw [within_extend (List.prefix_append l [y]) (Nat.le_of_lt hlt), hnum]
    · rw [List.getElem?_append_right hq] at h
      obtain ⟨hlt, hx⟩ := List.getElem?_eq_some_iff.mp h
      have hp : p y = true := by
        by_contra hp
        rw [List.filter_cons_of_neg hp] at hlt
        exact absurd hlt (Nat.not_lt_zero _)
      simp only [List.filter_cons_of_pos hp, List.filter_nil, List.length_singleton] at hlt hx
      obtain rfl : y = x := by simpa using hx
      refine ⟨l.length, by rw [List.getElem?_concat_length], hp, ?_⟩
      rw [within_extend (List.prefix_append l [y]) (Nat.le_refl _), within_length]
      omega

/-- ... and at one position only. -/
theorem within_inj (hx : l[i]? = some x) (hpx : p x = true) (hy : l[j]? = some y)
    (hpy : p y = true) (h : within p l i = within p l j) : i = j := by
  rcases Nat.lt_trichotomy i j with hlt | heq | hlt
  · exact absurd h (Nat.ne_of_lt (within_lt hx hpx hlt))
  · exact heq
  · exact absurd h.symm (Nat.ne_of_lt (within_lt hy hpy hlt))

/-- A number below that of position `j` is the number of something before it. -/
theorem exists_of_lt_within (h : q < within p l j) :
    ∃ i x, i < j ∧ l[i]? = some x ∧ p x = true ∧ within p l i = q := by
  rw [within_eq_length] at h
  obtain ⟨i, hi, hp, hnum⟩ := exists_of_filter (List.getElem?_eq_getElem h)
  have hlt := (List.getElem?_eq_some_iff.mp hi).1
  have hij : i < j := Nat.lt_of_lt_of_le hlt (List.length_take_le _ _)
  rw [List.getElem?_take_of_lt hij] at hi
  refine ⟨i, _, hij, hi, hp, ?_⟩
  rw [← hnum, ← within_extend (List.take_prefix j l) (Nat.le_of_lt hlt)]

end NetCCL.Lib
