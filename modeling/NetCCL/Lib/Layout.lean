/-
# Layouts of packed headers

A packed header is a sequence of fields with no space between them.  A `Layout` writes a
value as bytes (`emit`) and reads one from the front of a byte list, returning what follows
(`extract`); it carries the law that ties them: what was written is read back, in front of
ANYTHING.  So headers emitted one after the other are extracted one after the other, and a
record of fields gets its law from those of its fields.

* `Layout.pair`, `Layout.iso`: fields in order, under the names of a record;
* `Layout.append`: a bit field of `m + n` bits, most significant bits first;
* `Layout.table`: a fixed number of equal fields.

Nothing is said about byte lists that were not emitted: a header may have padding bits that
are skipped when it is read.
-/
import Mathlib.Data.List.Basic
import Mathlib.Data.Fin.Tuple.Basic

namespace NetCCL.Lib

universe u v

/-- A packed layout of `size` bytes, with the law that what is emitted is extracted. -/
structure Layout (α : Type u) where
  size : ℕ
  emit : α → List (BitVec 8)
  extract : List (BitVec 8) → Option (α × List (BitVec 8))
  emit_length : ∀ a, (emit a).length = size
  extract_emit : ∀ a rest, extract (emit a ++ rest) = some (a, rest)

namespace Layout

variable {α : Type u} {β : Type v}

attribute [simp] emit_length extract_emit

/-- One byte. -/
def byte : Layout (BitVec 8) where
  size := 1
  emit b := [b]
  extract
    | [] => none
    | b :: rest => some (b, rest)
  emit_length _ := rfl
  extract_emit _ _ := rfl

/-- Two fields in order. -/
def pair (l : Layout α) (r : Layout β) : Layout (α × β) where
  size := l.size + r.size
  emit ab := l.emit ab.1 ++ r.emit ab.2
  extract bs := (l.extract bs).bind fun (a, bs) => (r.extract bs).map fun (b, bs) => ((a, b), bs)
  emit_length ab := by rw [List.length_append, l.emit_length, r.emit_length]
  extract_emit ab rest := by simp [List.append_assoc]

/-- The same bytes under other names; `f` may forget what `g` fills in. -/
def iso (l : Layout α) (f : α → β) (g : β → α) (h : ∀ b, f (g b) = b) : Layout β where
  size := l.size
  emit b := l.emit (g b)
  extract bs := (l.extract bs).map fun (a, bs) => (f a, bs)
  emit_length b := l.emit_length (g b)
  extract_emit b rest := by simp [h]

/-- A bit field, most significant bits first. -/
def append {m n : ℕ} (l : Layout (BitVec m)) (r : Layout (BitVec n)) : Layout (BitVec (m + n)) :=
  (l.pair r).iso (fun ab => ab.1 ++ ab.2) (fun x => (x.extractLsb' n m, x.extractLsb' 0 n))
    fun x => by simp

/-- `bit<16>`, `bit<32>` and `bit<48>`, in network order. -/
def be16 : Layout (BitVec 16) := byte.append byte
def be32 : Layout (BitVec 32) := be16.append be16
def be48 : Layout (BitVec 48) := be16.append be32

/-- A part of a part. -/
theorem extract_extract {w : ℕ} (x : BitVec w) {s n t m : ℕ} (h : t + m ≤ n) :
    (x.extractLsb' s n).extractLsb' t m = x.extractLsb' (s + t) m := by
  refine BitVec.eq_of_getLsbD_eq fun i hi => ?_
  have hin : t + i < n := by omega
  simp only [BitVec.getLsbD_extractLsb', hi, hin, decide_true, Bool.true_and, Nat.add_assoc]

/-- The four bytes of a 32-bit field. -/
theorem be32_emit (x : BitVec 32) : be32.emit x =
    [x.extractLsb' 24 8, x.extractLsb' 16 8, x.extractLsb' 8 8, x.extractLsb' 0 8] := by
  calc be32.emit x = [(x.extractLsb' 16 16).extractLsb' 8 8, (x.extractLsb' 16 16).extractLsb' 0 8,
        (x.extractLsb' 0 16).extractLsb' 8 8, (x.extractLsb' 0 16).extractLsb' 0 8] := rfl
    _ = _ := by
      rw [extract_extract x (by decide), extract_extract x (by decide),
        extract_extract x (by decide), extract_extract x (by decide)]

/-- Four bytes put together, taken apart again. -/
theorem extract_bytes (a b c d : BitVec 8) :
    (a ++ (b ++ (c ++ d))).extractLsb' 24 8 = a ∧ (a ++ (b ++ (c ++ d))).extractLsb' 16 8 = b ∧
      (a ++ (b ++ (c ++ d))).extractLsb' 8 8 = c ∧ (a ++ (b ++ (c ++ d))).extractLsb' 0 8 = d := by
  refine ⟨BitVec.extractLsb'_append_eq_left, ?_, ?_, ?_⟩
  · rw [BitVec.extractLsb'_append_eq_of_add_le (by decide)]
    exact BitVec.extractLsb'_append_eq_left
  · rw [BitVec.extractLsb'_append_eq_of_add_le (by decide),
      BitVec.extractLsb'_append_eq_of_add_le (by decide)]
    exact BitVec.extractLsb'_append_eq_left
  · rw [BitVec.extractLsb'_append_eq_of_add_le (by decide),
      BitVec.extractLsb'_append_eq_of_add_le (by decide)]
    exact BitVec.extractLsb'_append_eq_right

/-- `n` equal fields. -/
def table (l : Layout α) : (n : ℕ) → Layout (Fin n → α)
  | 0 => ⟨0, fun _ => [], fun bs => some (Fin.elim0, bs), fun _ => rfl,
      fun a rest => by rw [Subsingleton.elim a Fin.elim0]; rfl⟩
  | n + 1 => (l.pair (l.table n)).iso (fun ab => Fin.cons ab.1 ab.2) (fun t => (t 0, Fin.tail t))
      fun t => Fin.cons_self_tail t

/-- A layout whose header may be absent when it is emitted. -/
def emitOpt (l : Layout α) : Option α → List (BitVec 8)
  | none => []
  | some a => l.emit a

@[simp] theorem emitOpt_none (l : Layout α) : l.emitOpt none = [] := rfl

@[simp] theorem emitOpt_some (l : Layout α) (a : α) : l.emitOpt (some a) = l.emit a := rfl

/-- A table whose entries are cut from one sequence of bytes is emitted as that sequence. -/
theorem table_emit (l : Layout α) : ∀ (n : ℕ) (g : ℕ → α) (b : ℕ → BitVec 8),
    (∀ k, l.emit (g k) = (List.range l.size).map fun j => b (k * l.size + j)) →
    (l.table n).emit (fun k => g k) = (List.range (n * l.size)).map b
  | 0, _, _, _ => by
    rw [Nat.zero_mul]
    rfl
  | n + 1, g, b, h => by
    have htail : (l.table n).emit (fun k => g (k + 1)) =
        (List.range (n * l.size)).map fun j => b (l.size + j) := by
      refine table_emit l n (fun k => g (k + 1)) _ fun k => ?_
      rw [h (k + 1)]
      refine List.map_congr_left fun j _ => congrArg b ?_
      rw [Nat.succ_mul]
      omega
    have hhead := h 0
    rw [Nat.zero_mul] at hhead
    calc (l.table (n + 1)).emit (fun k => g k)
        = l.emit (g 0) ++ (l.table n).emit (fun k => g (k + 1)) := rfl
      _ = (List.range ((n + 1) * l.size)).map b := by
          rw [hhead, htail, Nat.succ_mul, Nat.add_comm, List.range_add, List.map_append]
          simp [Function.comp_def]

end Layout

end NetCCL.Lib
