/-
# Cutting a collective into segments

`post_collective_c` posts a collective of any size as ops of at most `FRONTEND_SEGMENT_SIZE`
bytes, and at least one even when there is nothing to send.  The loop is followed here on
byte offsets; `postCollective_tiles` says that the segments tile the tensor.
-/
import NetCCL.Lib.Tiling
import NetCCL.Frontend.CopyBuffer

namespace NetCCL.Frontend

open Lib

/-- The arguments of one `post_sub_collective` that depend on the segment. -/
structure Segment where
  offset : ℕ
  size : ℕ
  isFirst : Bool
  isLast : Bool
  deriving DecidableEq, Repr

/-- The bytes of a segment. -/
def Segment.span (s : Segment) : Span := ⟨s.offset, s.size⟩

/-- The loop of `post_collective_c`, from `offset` on. -/
def postCollectiveFrom (size offset : ℕ) : List Segment :=
  let isLast := decide (size - offset ≤ frontendSegmentSize)
  let segSize := if isLast then size - offset else frontendSegmentSize
  let seg : Segment := ⟨offset, segSize, offset == 0, isLast⟩
  if offset + frontendSegmentSize < size then
    seg :: postCollectiveFrom size (offset + frontendSegmentSize)
  else [seg]
termination_by size - offset
decreasing_by have : 0 < frontendSegmentSize := by decide
              omega

/-- `post_collective_c`. -/
def postCollective (size : ℕ) : List Segment := postCollectiveFrom size 0

theorem postCollectiveFrom_tiles (size offset : ℕ) (h : offset ≤ size) :
    Tiles offset ((postCollectiveFrom size offset).map Segment.span) size := by
  induction offset using postCollectiveFrom.induct size with
  | case1 offset hlt ih =>
    rw [postCollectiveFrom, if_pos hlt, List.map_cons, tiles_cons_iff]
    refine ⟨rfl, ?_⟩
    simp only [Segment.span, Span.stop]
    rw [if_neg (by simp; omega)]
    exact ih (Nat.le_of_lt hlt)
  | case2 offset hge =>
    rw [postCollectiveFrom, if_neg hge, List.map_singleton, tiles_cons_iff, tiles_nil_iff]
    refine ⟨rfl, ?_⟩
    simp only [Segment.span, Span.stop]
    rw [if_pos (by simp; omega)]
    omega

/-- **The segments of a collective tile its tensor.** -/
theorem postCollective_tiles (size : ℕ) :
    Tiles 0 ((postCollective size).map Segment.span) size :=
  postCollectiveFrom_tiles size 0 (Nat.zero_le _)

theorem postCollective_ne_nil (size : ℕ) : postCollective size ≠ [] := by
  rw [postCollective, postCollectiveFrom]
  split <;> simp

theorem postCollectiveFrom_size_le (size offset : ℕ) :
    ∀ s ∈ postCollectiveFrom size offset, s.size ≤ frontendSegmentSize := by
  induction offset using postCollectiveFrom.induct size with
  | case1 offset hlt ih =>
    rw [postCollectiveFrom, if_pos hlt]
    intro s hs
    rcases List.mem_cons.mp hs with rfl | hs
    · dsimp only; split <;> simp_all
    · exact ih s hs
  | case2 offset hge =>
    rw [postCollectiveFrom, if_neg hge]
    intro s hs
    rw [List.mem_singleton.mp hs]
    dsimp only; split <;> simp_all

end NetCCL.Frontend
