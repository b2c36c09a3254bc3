/-
# Tables as lists of entries

A table with exact keys, as the list of its entries in the order they were added.  An entry is
added at the end and found by its key; to delete is to filter.
-/
import Mathlib.Data.List.Basic

namespace NetCCL.Lib

variable {κ β : Type} [BEq κ] [LawfulBEq κ] {l l' : List (κ × β)} {a : κ} {b : β}

omit [LawfulBEq κ] in
/-- What was found before is found still. -/
theorem lookup_append_of_some (h : l.lookup a = some b) (l' : List (κ × β)) :
    (l ++ l').lookup a = some b := by
  rw [List.lookup_append, h, Option.some_or]

/-- What has no entry is found among those added. -/
theorem lookup_append_of_not_mem (h : ∀ e ∈ l, e.1 ≠ a) (l' : List (κ × β)) :
    (l ++ l').lookup a = l'.lookup a := by
  have hnone : l.lookup a = none := List.lookup_eq_none_iff.mpr fun e he =>
    bne_iff_ne.mpr (h e he).symm
  rw [List.lookup_append, hnone, Option.none_or]

/-- Entries with other keys may be deleted. -/
theorem lookup_filter_of_pos {p : κ → Bool} (hp : p a = true) (l : List (κ × β)) :
    (l.filter fun e => p e.1).lookup a = l.lookup a := by
  induction l with
  | nil => rfl
  | cons e l ih =>
    rw [List.filter_cons, List.lookup_cons]
    split
    · rw [List.lookup_cons, ih]
    · rename_i hne
      have hkey : (a == e.1) = false := beq_false_of_ne fun he => hne (he ▸ hp)
      rw [ih, hkey]

/-- Entries added under different keys are all found. -/
theorem lookup_map_of_mem {α : Type} {f : α → κ} {g : α → β} {xs : List α}
    (hn : (xs.map f).Nodup) {x : α} (hx : x ∈ xs) :
    (xs.map fun x => (f x, g x)).lookup (f x) = some (g x) := by
  induction xs with
  | nil => exact absurd hx List.not_mem_nil
  | cons y xs ih =>
    rw [List.map_cons, List.nodup_cons] at hn
    rw [List.map_cons, List.lookup_cons]
    rcases List.mem_cons.mp hx with rfl | hx
    · rw [beq_self_eq_true]
    · have hne : (f x == f y) = false :=
        beq_false_of_ne fun he => hn.1 (he ▸ List.mem_map_of_mem hx)
      rw [hne]
      exact ih hn.2 hx

end NetCCL.Lib
