/-
# The copy buffer: a ring allocator that re-derives where a block wrapped

`copy_buffer_t` (`frontend/src/c/common.hpp`) hands out the host memory of each op from a
ring of `SHM_COPY_BUFFER_SIZE + 1` bytes, and takes it back in the same order.  It keeps
nothing but `head` and `tail`.  A block that does not fit before the end of the buffer is
placed at offset 0, and the hole it leaves is not recorded: `fifo_free` is told only the
SIZE of the oldest block and decides from `tail + size` whether that block had wrapped.

`Ring` pairs the code's two cursors with what they are supposed to mean, the list of live
blocks, oldest first.  `Ring.Holds` is what the allocator owes its callers over a whole
sequence of calls, and `holds_iff` says exactly which sequences it serves: those in which
no block that ENDS at the last byte of the buffer is ever freed.

The invariant (`Ring.Inv`) has two shapes, and every call is a case analysis over them:

* straight: the live blocks tile `[tail, head)`;
* wrapped: an older run tiles `[tail, e)`, a younger run tiles `[0, head)`, and either `e`
  is the end of the buffer or the first block of the younger run would not have fitted
  after `e`.

`fifo_free` tests `tail + size > SHM_COPY_BUFFER_SIZE`, which is right for the second
alternative and wrong for the first: a block with `tail + size = SHM_COPY_BUFFER_SIZE + 1`
did not wrap.
-/
import NetCCL.Lib.Tiling

namespace NetCCL.Frontend

open Lib

/-! ## 1. The code -/

/-- `FRONTEND_SEGMENT_SIZE`: the largest size one op asks for. -/
def frontendSegmentSize : ℕ := 2 * 1024 * 1024

/-- `SHM_COPY_BUFFER_SIZE`: the buffer has one byte more, and at most this many are used. -/
def shmCopyBufferSize : ℕ := 8 * 1024 * 1024

/-- `copy_buffer_t`, without the bytes: the allocated range is `[tail, head)`, circularly.
Both cursors stay in `[0, SHM_COPY_BUFFER_SIZE]` (`Ring.Inv`), so none of the unsigned
subtractions below goes under zero. -/
structure CopyBuffer where
  head : ℕ
  tail : ℕ
  deriving DecidableEq, Repr

/-- The constructor `copy_buffer_t()`. -/
def CopyBuffer.empty : CopyBuffer := ⟨0, 0⟩

/-- `available()`: the largest size `fifo_allocate` grants. -/
def CopyBuffer.available (b : CopyBuffer) : ℕ :=
  if b.tail = 0 then shmCopyBufferSize - b.head
  else if b.tail ≤ b.head then max (shmCopyBufferSize + 1 - b.head) (b.tail - 1)
  else b.tail - 1 - b.head

/-- `fifo_allocate(size)`: the offset of the block, or `none` for `NULL`. -/
def CopyBuffer.fifoAllocate (b : CopyBuffer) (size : ℕ) : Option (ℕ × CopyBuffer) :=
  if b.available < size then none
  else
    let ret := b.head
    let head := b.head + size
    let head := if head = shmCopyBufferSize + 1 then 0 else head
    if shmCopyBufferSize + 1 < head then some (0, { b with head := size })
    else some (ret, { b with head := head })

/-- `fifo_free(size)`, with `none` for a failed `assert`. -/
def CopyBuffer.fifoFree (b : CopyBuffer) (size : ℕ) : Option CopyBuffer :=
  if shmCopyBufferSize < size then none
  else if shmCopyBufferSize < b.tail + size then
    -- the block is taken to have wrapped
    if b.tail ≤ b.head then none
    else if (0 ≤ b.head) = (size ≤ b.head) then some { b with tail := size } else none
  else if (b.tail ≤ b.head) = (b.tail + size ≤ b.head) then
    some { b with tail := b.tail + size }
  else none

/-! ## 2. Sequences of calls -/

/-- The cursors together with the live blocks, oldest first.  The blocks are what the
cursors are meant to describe; the code does not store them. -/
structure Ring where
  buf : CopyBuffer
  live : List Span
  deriving DecidableEq, Repr

/-- Nothing allocated. -/
def Ring.empty : Ring := ⟨.empty, []⟩

/-- The two calls of `create_op` and `destroy_op`.  A free names no block: `destroy_op`
passes the size of the op it was handed, which is the oldest one. -/
inductive Call
  | allocate (size : ℕ)
  | free
  deriving DecidableEq, Repr

/-- When a call is made: `post_sub_collective` waits until `available()` suffices, and
`destroy_op` has an op to destroy. -/
def Ring.Guard (s : Ring) : Call → Prop
  | .allocate size => size ≤ frontendSegmentSize ∧ size ≤ s.buf.available
  | .free => s.live ≠ []

instance (s : Ring) : ∀ c : Call, Decidable (s.Guard c)
  | .allocate _ => inferInstanceAs (Decidable (_ ∧ _))
  | .free => inferInstanceAs (Decidable (_ ≠ _))

/-- A call; `none` when `fifo_allocate` returns `NULL` or `fifo_free` fails an assertion. -/
def Ring.call (s : Ring) : Call → Option Ring
  | .allocate size =>
    (s.buf.fifoAllocate size).map fun p => ⟨p.2, s.live ++ [⟨p.1, size⟩]⟩
  | .free =>
    match s.live with
    | [] => none
    | b :: rest => (s.buf.fifoFree b.len).map fun buf => ⟨buf, rest⟩

/-- The circular region from `tail` to `head`. -/
def CopyBuffer.InRegion (b : CopyBuffer) (s : Span) : Prop :=
  if b.tail ≤ b.head then b.tail ≤ s.start ∧ s.stop ≤ b.head
  else (b.tail ≤ s.start ∧ s.stop ≤ shmCopyBufferSize + 1) ∨ s.stop ≤ b.head

/-- What must hold between two calls. -/
structure Ring.Sound (s : Ring) : Prop where
  /-- every live block lies inside `buffer[0 .. SHM_COPY_BUFFER_SIZE]` -/
  inside : ∀ b ∈ s.live, b.stop ≤ shmCopyBufferSize + 1
  /-- no byte belongs to two live blocks -/
  disjoint : s.live.Pairwise Span.Disjoint
  /-- the cursors enclose every live block -/
  region : ∀ b ∈ s.live, s.buf.InRegion b
  /-- the cursors meet when nothing is live -/
  drained : s.live = [] → s.buf.head = s.buf.tail
  /-- an empty ring refuses no segment -/
  grants : s.live = [] → ∀ size ≤ frontendSegmentSize, (s.buf.fifoAllocate size).isSome

/-- **The allocator's contract over a sequence of calls**: every state passed through is
`Sound`, no allocation returns `NULL` and no free fails an assertion. -/
def Ring.Holds : Ring → List Call → Prop
  | s, [] => s.Sound
  | s, c :: cs => s.Sound ∧ (s.Guard c → ∃ s', s.call c = some s' ∧ s'.Holds cs)

/-- The call frees a block that ends exactly at the last byte of the buffer. -/
def Ring.ExactFit (s : Ring) : Call → Prop
  | .allocate _ => False
  | .free => ∃ b, s.live.head? = some b ∧ s.buf.tail + b.len = shmCopyBufferSize + 1

instance (s : Ring) : ∀ c : Call, Decidable (s.ExactFit c)
  | .allocate _ => inferInstanceAs (Decidable False)
  | .free => by
    unfold Ring.ExactFit
    cases s.live.head? with
    | none => exact isFalse (by simp)
    | some b => exact decidable_of_iff (s.buf.tail + b.len = shmCopyBufferSize + 1) (by simp)

/-- No call of the sequence frees such a block. -/
def Ring.NoExactFit : Ring → List Call → Prop
  | _, [] => True
  | s, c :: cs => s.Guard c → ¬ s.ExactFit c ∧ ∀ s', s.call c = some s' → s'.NoExactFit cs

/-! ## 3. The invariant -/

/-- The wrapped shape: `hi` is the older run, `lo` the younger. -/
structure Ring.Wrapped (s : Ring) (hi lo : List Span) (e : ℕ) : Prop where
  live : s.live = hi ++ lo
  older : Tiles s.buf.tail hi e
  younger : Tiles 0 lo s.buf.head
  lt : s.buf.head < s.buf.tail
  hole : e = shmCopyBufferSize + 1 ∨
    e ≤ shmCopyBufferSize ∧ ∃ b rest, lo = b :: rest ∧ shmCopyBufferSize + 1 < e + b.len

/-- The allocator's invariant. -/
structure Ring.Inv (s : Ring) : Prop where
  head_le : s.buf.head ≤ shmCopyBufferSize
  tail_le : s.buf.tail ≤ shmCopyBufferSize
  len_le : ∀ b ∈ s.live, b.len ≤ frontendSegmentSize
  shape : Tiles s.buf.tail s.live s.buf.head ∨ ∃ hi lo e, s.Wrapped hi lo e

/-- Two segments fit into the buffer at once. -/
theorem segment_le_half : 2 * frontendSegmentSize ≤ shmCopyBufferSize := by decide

theorem Ring.inv_empty : Ring.empty.Inv :=
  ⟨Nat.zero_le _, Nat.zero_le _, by simp [Ring.empty], Or.inl (.nil 0)⟩

theorem Ring.Wrapped.end_le {s : Ring} {hi lo : List Span} {e : ℕ} (h : s.Wrapped hi lo e) :
    e ≤ shmCopyBufferSize + 1 := by
  rcases h.hole with he | ⟨he, -⟩ <;> omega

/-- A nonempty wrapped ring: with nothing live the cursors would have met. -/
theorem Ring.Wrapped.live_ne {s : Ring} {hi lo : List Span} {e : ℕ} (h : s.Wrapped hi lo e)
    (ht : s.buf.tail ≤ shmCopyBufferSize) : s.live ≠ [] := by
  intro hnil
  obtain ⟨rfl, rfl⟩ := List.append_eq_nil_iff.mp (h.live ▸ hnil)
  have he := tiles_nil_iff.mp h.older
  rcases h.hole with h1 | ⟨-, b, rest, h2, -⟩
  · omega
  · exact absurd h2 (by simp)

/-- **The invariant gives everything the contract asks between two calls.** -/
theorem Ring.Inv.sound {s : Ring} (h : s.Inv) : s.Sound := by
  obtain ⟨hh, ht, -, hstraight | ⟨hi, lo, e, hw⟩⟩ := h
  · have hle := hstraight.le
    refine ⟨fun b hb => ?_, hstraight.pairwise_disjoint, fun b hb => ?_, fun hnil => ?_,
      fun hnil size hsize => ?_⟩
    · have := (hstraight.bounds b hb).2; omega
    · rw [CopyBuffer.InRegion, if_pos hle]; exact hstraight.bounds b hb
    · rw [hnil, tiles_nil_iff] at hstraight; exact hstraight.symm
    · rw [hnil, tiles_nil_iff] at hstraight
      have hav : size ≤ s.buf.available := by
        have := segment_le_half
        rw [CopyBuffer.available, if_pos hle]
        split <;> omega
      simp only [CopyBuffer.fifoAllocate, if_neg (Nat.not_lt.mpr hav)]
      split <;> split <;> rfl
  · have hend := hw.end_le
    have hlt := hw.lt
    have hne := hw.live_ne ht
    have hold := hw.older.le
    have hcases : ∀ b ∈ s.live, (s.buf.tail ≤ b.start ∧ b.stop ≤ e) ∨ b.stop ≤ s.buf.head := by
      intro b hb
      rcases List.mem_append.mp (hw.live ▸ hb) with hb | hb
      · exact Or.inl (hw.older.bounds b hb)
      · exact Or.inr (hw.younger.bounds b hb).2
    refine ⟨fun b hb => ?_, ?_, fun b hb => ?_, fun hnil => absurd hnil hne,
      fun hnil => absurd hnil hne⟩
    · rcases hcases b hb with h1 | h1 <;> omega
    · rw [hw.live, List.pairwise_append]
      refine ⟨hw.older.pairwise_disjoint, hw.younger.pairwise_disjoint, fun b hb c hc => ?_⟩
      have h1 := (hw.older.bounds b hb).1
      have h2 := (hw.younger.bounds c hc).2
      exact (Span.disjoint_of_le (by omega)).symm
    · rw [CopyBuffer.InRegion, if_neg (by omega)]
      rcases hcases b hb with h1 | h1
      · exact Or.inl ⟨h1.1, by omega⟩
      · exact Or.inr h1

/-! ## 4. What each call does to the invariant -/

/-- **Allocation.**  A guarded `fifo_allocate` is granted and keeps the invariant: the block
extends the run that ends at `head`, or opens the younger run at offset 0. -/
theorem Ring.Inv.allocate {s : Ring} (h : s.Inv) {size : ℕ}
    (hg : s.Guard (.allocate size)) : ∃ s', s.call (.allocate size) = some s' ∧ s'.Inv := by
  obtain ⟨hseg, hav⟩ := hg
  obtain ⟨hh, ht, hlen, hshape⟩ := h
  have hlen' : ∀ (x : ℕ), ∀ b ∈ s.live ++ [(⟨x, size⟩ : Span)], b.len ≤ frontendSegmentSize := by
    intro x b hb
    rcases List.mem_append.mp hb with hb | hb
    · exact hlen b hb
    · rw [List.mem_singleton.mp hb]; exact hseg
  simp only [Ring.call, CopyBuffer.fifoAllocate, if_neg (Nat.not_lt.mpr hav)]
  rw [CopyBuffer.available] at hav
  rcases Nat.lt_trichotomy (s.buf.head + size) (shmCopyBufferSize + 1) with hfit | hfit | hfit
  · -- the block fits with room to spare
    rw [if_neg (Nat.ne_of_lt hfit), if_neg (by omega)]
    refine ⟨_, rfl, by dsimp only; omega, ht, hlen' _, ?_⟩
    rcases hshape with hst | ⟨hi, lo, e, hw⟩
    · exact Or.inl (Tiles.snoc (s := ⟨s.buf.head, size⟩) hst)
    · have hlt := hw.lt
      rw [if_neg (by omega), if_neg (by omega)] at hav
      refine Or.inr ⟨hi, lo ++ [⟨s.buf.head, size⟩], e, by simp [hw.live], hw.older,
        Tiles.snoc (s := ⟨s.buf.head, size⟩) hw.younger, by dsimp only; omega, ?_⟩
      refine hw.hole.imp id ?_
      rintro ⟨he, b, rest, rfl, hb⟩
      exact ⟨he, b, rest ++ [⟨s.buf.head, size⟩], rfl, hb⟩
  · -- the block ends at the last byte: `head` goes back to 0
    rw [if_pos hfit, if_neg (by omega)]
    refine ⟨_, rfl, Nat.zero_le _, ht, hlen' _, ?_⟩
    rcases hshape with hst | ⟨hi, lo, e, hw⟩
    · refine Or.inr ⟨s.live ++ [⟨s.buf.head, size⟩], [], _, by simp,
        Tiles.snoc (s := ⟨s.buf.head, size⟩) hst, .nil 0, ?_, Or.inl hfit⟩
      have htail : s.buf.tail ≠ 0 := by
        intro h0; rw [if_pos h0] at hav; omega
      dsimp only; omega
    · have hlt := hw.lt
      rw [if_neg (by omega), if_neg (by omega)] at hav
      omega
  · -- the block does not fit before the end of the buffer: it opens the younger run
    rw [if_neg (Nat.ne_of_gt hfit), if_pos hfit]
    rcases hshape with hst | ⟨hi, lo, e, hw⟩
    · have hle := hst.le
      have htail : s.buf.tail ≠ 0 := by
        intro h0; rw [if_pos h0] at hav; omega
      rw [if_neg htail, if_pos hle] at hav
      have hsize : size ≤ s.buf.tail - 1 := by omega
      refine ⟨_, rfl, by dsimp only; omega, ht, hlen' _, Or.inr ⟨s.live, [⟨0, size⟩], s.buf.head,
        rfl, hst, ?_, by dsimp only; omega, Or.inr ⟨hh, ⟨0, size⟩, [], rfl, hfit⟩⟩⟩
      have := tiles_singleton ⟨0, size⟩
      simpa [Span.stop] using this
    · have hlt := hw.lt
      rw [if_neg (by omega), if_neg (by omega)] at hav
      omega

/-- **Freeing, outside the exact fit.**  `fifo_free` passes its assertions, moves `tail` to
the end of the oldest block and keeps the invariant. -/
theorem Ring.Inv.free {s : Ring} (h : s.Inv) (hg : s.Guard .free) (hx : ¬ s.ExactFit .free) :
    ∃ b rest buf, s.live = b :: rest ∧ s.buf.fifoFree b.len = some buf ∧
      buf = { s.buf with tail := b.stop } ∧ Ring.Inv ⟨buf, rest⟩ := by
  obtain ⟨hh, ht, hlen, hshape⟩ := h
  cases hl : s.live with
  | nil => exact absurd hl hg
  | cons b rest =>
    have hbl : b.len ≤ frontendSegmentSize := hlen b (by simp [hl])
    have hrest : ∀ c ∈ rest, c.len ≤ frontendSegmentSize := by
      intro c hc
      exact hlen c (by simp [hl, hc])
    have hxe : s.buf.tail + b.len ≠ shmCopyBufferSize + 1 := by
      intro he
      exact hx ⟨b, by simp [hl], he⟩
    have hseg := segment_le_half
    rcases hshape with hst | ⟨hi, lo, e, hw⟩
    · rw [hl, tiles_cons_iff] at hst
      obtain ⟨hstart, hst⟩ := hst
      have hle := hst.le
      have hstop : b.stop = s.buf.tail + b.len := by rw [← hstart]; rfl
      refine ⟨b, rest, _, rfl, ?_, rfl, hh, by dsimp only; omega, hrest, Or.inl hst⟩
      have hbefore : s.buf.tail ≤ s.buf.head := by omega
      have hafter : s.buf.tail + b.len ≤ s.buf.head := by omega
      rw [CopyBuffer.fifoFree, if_neg (by omega), if_neg (by omega),
        if_pos (by rw [eq_true hbefore, eq_true hafter]), hstop]
    · have hlt := hw.lt
      have hlive := hw.live
      rw [hl] at hlive
      cases hi with
      | nil =>
        -- the oldest block is the first of the younger run: it did wrap
        rw [List.nil_append] at hlive
        have he : s.buf.tail = e := tiles_nil_iff.mp hw.older
        obtain ⟨-, b', rest', hlo, hwrap⟩ := hw.hole.resolve_left (by omega)
        obtain ⟨rfl, rfl⟩ := List.cons.inj (hlive.trans hlo)
        have hy := hw.younger
        rw [hlo, tiles_cons_iff] at hy
        obtain ⟨hstart, hy⟩ := hy
        have hle := hy.le
        have hstop : b.stop = b.len := by rw [Span.stop, hstart, Nat.zero_add]
        refine ⟨b, rest, _, rfl, ?_, rfl, hh, by dsimp only; omega, hrest, Or.inl hy⟩
        have hafter : b.len ≤ s.buf.head := by omega
        rw [CopyBuffer.fifoFree, if_neg (by omega), if_pos (by omega), if_neg (by omega),
          if_pos (by rw [eq_true (Nat.zero_le s.buf.head), eq_true hafter]), hstop]
      | cons b' hi =>
        obtain ⟨rfl, rfl⟩ := List.cons.inj hlive
        have ho := hw.older
        rw [tiles_cons_iff] at ho
        obtain ⟨hstart, ho⟩ := ho
        have hle := ho.le
        have hend := hw.end_le
        have hstop : b.stop = s.buf.tail + b.len := by rw [← hstart]; rfl
        refine ⟨b, hi ++ lo, _, rfl, ?_, rfl, hh, by dsimp only; omega, hrest,
          Or.inr ⟨hi, lo, e, rfl, ho, hw.younger, by dsimp only; omega, hw.hole⟩⟩
        have hbefore : ¬ s.buf.tail ≤ s.buf.head := by omega
        have hafter : ¬ s.buf.tail + b.len ≤ s.buf.head := by omega
        rw [CopyBuffer.fifoFree, if_neg (by omega), if_neg (by omega),
          if_pos (by rw [eq_false hbefore, eq_false hafter]), hstop]

/-- **Freeing at the exact fit goes wrong.**  Either the second assertion fails, or `tail`
ends up inside the younger run and some live block is left outside the region. -/
theorem Ring.Inv.free_exactFit {s s' : Ring} (h : s.Inv) (hx : s.ExactFit .free)
    (hc : s.call .free = some s') : ¬ s'.Sound := by
  obtain ⟨b, hb, hfit⟩ := hx
  obtain ⟨hh, ht, hlen, hshape⟩ := h
  obtain ⟨rest, hl⟩ : ∃ rest, s.live = b :: rest := List.head?_eq_some_iff.mp hb
  have hpos : 0 < b.len := by omega
  -- the ring is wrapped, and `b` is the last block of the older run with any bytes in it
  rcases hshape with hst | ⟨hi, lo, e, hw⟩
  · rw [hl, tiles_cons_iff] at hst
    obtain ⟨hstart, hst⟩ := hst
    have hle := hst.le
    have hstop : b.stop = s.buf.tail + b.len := by rw [← hstart]; rfl
    omega
  · have hlt := hw.lt
    simp only [Ring.call, hl, CopyBuffer.fifoFree] at hc
    rw [if_neg (by have := hlen b (by simp [hl]); have := segment_le_half; omega),
      if_pos (by omega), if_neg (by omega)] at hc
    split at hc
    · rename_i hge
      have hge : b.len ≤ s.buf.head := by rw [← hge]; exact Nat.zero_le _
      simp only [Option.map_some, Option.some.injEq] at hc
      subst hc
      intro hs
      -- offset 0 is live, and the new region starts at `b.len`
      obtain ⟨c, hc, hc0⟩ := (hw.younger.mem_iff 0).mpr ⟨Nat.le_refl 0, by omega⟩
      have hrest : c ∈ rest := by
        have hlive := hw.live
        rw [hl] at hlive
        cases hi with
        | nil =>
          have he : s.buf.tail = e := tiles_nil_iff.mp hw.older
          obtain ⟨-, b', rest', hlo, hwrap⟩ := hw.hole.resolve_left (by omega)
          obtain ⟨rfl, rfl⟩ := List.cons.inj (hlive.trans hlo)
          omega
        | cons b' hi =>
          obtain ⟨rfl, rfl⟩ := List.cons.inj hlive
          exact List.mem_append_right _ hc
      have hreg := hs.region c hrest
      rw [CopyBuffer.InRegion, if_pos hge] at hreg
      exact absurd (Nat.le_trans hreg.1 hc0.1) (Nat.not_le.mpr hpos)
    · exact absurd hc (by simp)

/-- A call outside the exact fit keeps the invariant. -/
theorem Ring.Inv.call {s : Ring} (h : s.Inv) {c : Call} (hg : s.Guard c)
    (hx : ¬ s.ExactFit c) : ∃ s', s.call c = some s' ∧ s'.Inv := by
  cases c with
  | allocate size => exact h.allocate hg
  | free =>
    obtain ⟨b, rest, buf, hl, hf, -, hinv⟩ := h.free hg hx
    exact ⟨⟨buf, rest⟩, by simp [Ring.call, hl, hf], hinv⟩

/-! ## 5. Whole sequences -/

/-- A sequence that begins soundly at least begins. -/
theorem Ring.Holds.sound {s : Ring} : ∀ {cs : List Call}, s.Holds cs → s.Sound
  | [], h => h
  | _ :: _, h => h.1

/-- **From an invariant state, the contract holds of exactly the sequences without an exact
fit.** -/
theorem Ring.Inv.holds_iff {s : Ring} (h : s.Inv) (cs : List Call) :
    s.Holds cs ↔ s.NoExactFit cs := by
  induction cs generalizing s with
  | nil => exact ⟨fun _ => trivial, fun _ => h.sound⟩
  | cons c cs ih =>
    constructor
    · rintro ⟨-, hstep⟩ hg
      obtain ⟨s', hc, hs'⟩ := hstep hg
      have hx : ¬ s.ExactFit c := by
        intro hx
        cases c with
        | allocate size => exact hx
        | free => exact h.free_exactFit hx hc hs'.sound
      obtain ⟨s'', hc', hinv⟩ := h.call hg hx
      obtain rfl : s' = s'' := Option.some.inj (hc.symm.trans hc')
      exact ⟨hx, fun t ht => by
        obtain rfl : s' = t := Option.some.inj (hc.symm.trans ht)
        exact (ih hinv).mp hs'⟩
    · intro hn
      refine ⟨h.sound, fun hg => ?_⟩
      obtain ⟨hx, hrest⟩ := hn hg
      obtain ⟨s', hc, hinv⟩ := h.call hg hx
      exact ⟨s', hc, (ih hinv).mpr (hrest s' hc)⟩

/-- **The copy buffer serves exactly the sequences in which no block ending at the last byte
is freed.** -/
theorem copyBuffer_holds_iff (cs : List Call) :
    Ring.empty.Holds cs ↔ Ring.empty.NoExactFit cs :=
  Ring.inv_empty.holds_iff cs

/-- The state after a sequence of guarded calls, when all of them succeed. -/
def Ring.run : Ring → List Call → Option Ring
  | s, [] => some s
  | s, c :: cs => if s.Guard c then (s.call c).bind (Ring.run · cs) else none

/-- The contract over a sequence is the contract over its remainder, from wherever its
beginning leads. -/
theorem Ring.Holds.run {s s' : Ring} {cs ds : List Call} (h : s.Holds (cs ++ ds))
    (hr : s.run cs = some s') : s'.Holds ds := by
  induction cs generalizing s with
  | nil =>
    obtain rfl : s = s' := Option.some.inj hr
    exact h
  | cons c cs ih =>
    rw [Ring.run] at hr
    split at hr
    · rename_i hg
      obtain ⟨t, hc, ht⟩ := h.2 hg
      rw [hc, Option.bind_some] at hr
      exact ih ht hr
    · exact absurd hr (by simp)

/-- Four segments and one more byte, and then every block freed but the last. -/
def exactFitCalls : List Call :=
  [.allocate frontendSegmentSize, .allocate frontendSegmentSize, .allocate frontendSegmentSize,
    .free, .allocate frontendSegmentSize, .allocate 1, .free, .free, .free]

/-- The one-byte block fills the ring to its last byte.  Its free resets `tail` to 0, adds 1
to it, and the second assertion of `fifo_free` fails. -/
theorem copyBuffer_exactFit_fails : ¬ Ring.empty.Holds (exactFitCalls ++ [.free]) := by
  intro h
  have hlast : Ring.Holds ⟨⟨0, shmCopyBufferSize⟩, [⟨shmCopyBufferSize, 1⟩]⟩ [.free] :=
    h.run (by decide +kernel)
  obtain ⟨s', hc, -⟩ := hlast.2 (by decide)
  exact absurd hc (by simp [Ring.call, CopyBuffer.fifoFree, shmCopyBufferSize])

end NetCCL.Frontend
