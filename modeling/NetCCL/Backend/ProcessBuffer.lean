/-
# Transmit batching

`queue_process_buffer` (`backend/process_buffer.hpp`) collects packets in `tx_bufs` and hands
them to the NIC in bursts.  The NIC may take any prefix of a burst, so what is left is moved
to the front of the array, from three entry points and a timer.

What it is FOR: a FIFO between `send` and the NIC.  `Inv` says so -- what the NIC accepted,
followed by what the array holds, is what was sent -- and every call keeps it (`Inv.exec`),
without a write outside the array.

**The residual.**  The timer has 16 bits, and `check_flush_timer` compares it with
`tx_size * 2`, an `int`.  From `tx_size = 2^15` on the comparison never fails, and the timer
flushes nothing (`timer_never_fires`).  Below that the array is offered to the NIC within
`2 * tx_size + 1` receives (`batchesFaithfully_iff`).  The only object there is has 32 entries
(`transmit_batching`).
-/
import NetCCL.Backend.Worker
import Mathlib.Algebra.Ring.Nat
import Mathlib.Data.List.Basic
import Mathlib.Logic.Function.Basic

namespace NetCCL.Backend

namespace ProcessBuffer

/-! ## 1. The NIC -/

/-- How a call ends.  `waiting`: the NIC has not answered yet; `outOfBounds`: a write outside
an array. -/
inductive Outcome (α : Type*)
  | done (a : α)
  | waiting
  | outOfBounds

variable {α β : Type*}

def Outcome.bind (o : Outcome α) (f : α → Outcome β) : Outcome β :=
  match o with
  | .done a => f a
  | .waiting => .waiting
  | .outOfBounds => .outOfBounds

@[simp] theorem bind_done (a : α) (f : α → Outcome β) : (Outcome.done a).bind f = f a := rfl

theorem bind_eq_done {o : Outcome α} {f : α → Outcome β} {b : β} (h : o.bind f = .done b) :
    ∃ a, o = .done a ∧ f a = .done b := by
  cases o with
  | done a => exact ⟨a, rfl, h⟩
  | waiting => cases h
  | outOfBounds => cases h

/-- The NIC: how many packets it will take of each burst to come and the bursts it will
deliver; and what it has accepted, been offered and delivered so far.  An offer is what
`tx_bufs` held, so it could contain NULL. -/
structure Nic (P : Type*) where
  willing : List ℕ
  bursts : List (List P)
  accepted : List (Option P)
  offered : List (List (Option P))
  received : List P

variable {P : Type*}

/-- `rte_eth_tx_burst`: takes a prefix of what it is offered. -/
def Nic.txBurst (nic : Nic P) (bufs : List (Option P)) : Outcome (ℕ × Nic P) :=
  match nic.willing with
  | [] => .waiting
  | w :: willing =>
    let n := min w bufs.length
    .done (n, { nic with willing, accepted := nic.accepted ++ bufs.take n
                         offered := nic.offered ++ [bufs] })

/-- `rte_eth_rx_burst`: delivers at most `size` packets. -/
def Nic.rxBurst (nic : Nic P) (size : ℕ) : Outcome (List P × Nic P) :=
  match nic.bursts with
  | [] => .waiting
  | b :: bursts =>
    .done (b.take size, { nic with bursts, received := nic.received ++ b.take size })

/-! ## 2. The class -/

/-- `queue_process_buffer`; the arrays hold NULL where nothing has been written. -/
structure QueueProcessBuffer (P : Type*) where
  rxSize : ℕ
  txSize : ℕ
  rxNb : ℕ
  txNb : ℕ
  rxIter : ℕ
  flushTimer : ℕ
  rxBufs : ℕ → Option P
  txBufs : ℕ → Option P
  totalRxNb : BitVec 32
  totalTxNb : BitVec 32

/-- `bufs[start .. start + n)`. -/
def slice (bufs : ℕ → Option P) (start n : ℕ) : List (Option P) :=
  (List.range n).map fun i => bufs (start + i)

/-- `bufs[i] = buf`, in an array of `size` entries. -/
def write (size : ℕ) (bufs : ℕ → Option P) (i : ℕ) (buf : Option P) :
    Outcome (ℕ → Option P) :=
  if i < size then .done (Function.update bufs i buf) else .outOfBounds

/-- The loop of `flush_once`: `left` more entries move down by `completeNb`, from `i` on. -/
def shift (size completeNb : ℕ) : ℕ → ℕ → (ℕ → Option P) → Outcome (ℕ → Option P)
  | 0, _, bufs => .done bufs
  | left + 1, i, bufs =>
    (write size bufs i (bufs (i + completeNb))).bind (shift size completeNb left (i + 1))

namespace QueueProcessBuffer

/-- `flush_once`. -/
def flushOnce (q : QueueProcessBuffer P) (nic : Nic P) :
    Outcome (QueueProcessBuffer P × Nic P) :=
  (nic.txBurst (slice q.txBufs 0 q.txNb)).bind fun (completeNb, nic) =>
    let txNb := q.txNb - completeNb
    if txNb ≠ 0 ∧ completeNb ≠ 0 then
      (shift q.txSize completeNb txNb 0 q.txBufs).bind fun txBufs =>
        .done ({ q with txNb, txBufs, flushTimer := 0 }, nic)
    else .done ({ q with txNb, flushTimer := 0 }, nic)

/-- The loop of `flush`: an iteration needs an answer of the NIC, so it makes at most as many
as there are. -/
def flushLoop (q : QueueProcessBuffer P) : ℕ → ℕ → Nic P → Outcome (Nic P)
  | 0, completeNb, nic => if completeNb < q.txNb then .waiting else .done nic
  | answers + 1, completeNb, nic =>
    if completeNb < q.txNb then
      (nic.txBurst (slice q.txBufs completeNb (q.txNb - completeNb))).bind fun (n, nic) =>
        flushLoop q answers ((completeNb + n) % 2 ^ 16) nic
    else .done nic

/-- `flush`. -/
def flush (q : QueueProcessBuffer P) (nic : Nic P) : Outcome (QueueProcessBuffer P × Nic P) :=
  (nic.txBurst (slice q.txBufs 0 q.txNb)).bind fun (completeNb, nic) =>
    (q.flushLoop nic.willing.length completeNb nic).bind fun nic =>
      .done ({ q with txNb := 0, flushTimer := 0 }, nic)

/-- `check_flush_timer`. -/
def checkFlushTimer (q : QueueProcessBuffer P) (nic : Nic P) :
    Outcome (QueueProcessBuffer P × Nic P) :=
  if q.flushTimer < q.txSize * 2 then
    .done ({ q with flushTimer := (q.flushTimer + 1) % 2 ^ 16 }, nic)
  else q.flushOnce nic

/-- `return rx_bufs[rx_iter ++]`. -/
def next (q : QueueProcessBuffer P) : Option P × QueueProcessBuffer P :=
  (q.rxBufs q.rxIter,
    { q with rxIter := (q.rxIter + 1) % 2 ^ 16, totalRxNb := q.totalRxNb + 1 })

/-- `receive` after the timer: a new burst when the last one is used up. -/
def fetch (q : QueueProcessBuffer P) (nic : Nic P) :
    Outcome (Option P × QueueProcessBuffer P × Nic P) :=
  if q.rxIter = q.rxNb then
    (nic.rxBurst q.rxSize).bind fun (b, nic) =>
      let q := { q with rxIter := 0, rxNb := b.length
                        rxBufs := fun i => (b[i]?).or (q.rxBufs i) }
      if q.rxNb = 0 then .done (none, q, nic) else .done (q.next.1, q.next.2, nic)
  else .done (q.next.1, q.next.2, nic)

/-- `receive`. -/
def receive (q : QueueProcessBuffer P) (nic : Nic P) :
    Outcome (Option P × QueueProcessBuffer P × Nic P) :=
  (q.checkFlushTimer nic).bind fun (q, nic) => q.fetch nic

/-- `while(tx_nb == tx_size) flush_once();` -/
def makeRoom : ℕ → QueueProcessBuffer P → Nic P → Outcome (QueueProcessBuffer P × Nic P)
  | 0, q, nic => if q.txNb = q.txSize then .waiting else .done (q, nic)
  | answers + 1, q, nic =>
    if q.txNb = q.txSize then
      (q.flushOnce nic).bind fun (q, nic) => makeRoom answers q nic
    else .done (q, nic)

/-- `send`. -/
def send (q : QueueProcessBuffer P) (nic : Nic P) (buf : P) :
    Outcome (QueueProcessBuffer P × Nic P) :=
  (makeRoom nic.willing.length q nic).bind fun (q, nic) =>
    (write q.txSize q.txBufs q.txNb (some buf)).bind fun txBufs =>
      let q := { q with txNb := (q.txNb + 1) % 2 ^ 16, txBufs, totalTxNb := q.totalTxNb + 1 }
      if q.txNb = q.txSize then q.flushOnce nic else .done (q, nic)

/-- The constructor. -/
def init (rxSize txSize : ℕ) : QueueProcessBuffer P :=
  ⟨rxSize, txSize, 0, 0, 0, 0, fun _ => none, fun _ => none, 0, 0⟩

end QueueProcessBuffer

/-! ## 3. Sequences of calls -/

inductive Call (P : Type*)
  | send (buf : P)
  | receive
  | flushOnce
  | flush
  deriving DecidableEq

/-- The object and its NIC, with what was passed to `send` and the results of `receive` other
than NULL. -/
structure State (P : Type*) where
  q : QueueProcessBuffer P
  nic : Nic P
  sent : List P
  results : List P

def State.exec (s : State P) : Call P → Outcome (State P)
  | .send buf => (s.q.send s.nic buf).bind fun (q, nic) =>
      .done { s with q, nic, sent := s.sent ++ [buf] }
  | .receive => (s.q.receive s.nic).bind fun (buf, q, nic) =>
      .done { s with q, nic, results := s.results ++ buf.toList }
  | .flushOnce => (s.q.flushOnce s.nic).bind fun (q, nic) => .done { s with q, nic }
  | .flush => (s.q.flush s.nic).bind fun (q, nic) => .done { s with q, nic }

def State.run : State P → List (Call P) → Outcome (State P)
  | s, [] => .done s
  | s, c :: cs => (s.exec c).bind fun s => s.run cs

/-- A new object, at a NIC that behaves like this. -/
def State.init (rxSize txSize : ℕ) (willing : List ℕ) (bursts : List (List P)) : State P :=
  ⟨.init rxSize txSize, ⟨willing, bursts, [], [], []⟩, [], []⟩

/-- What `tx_bufs[0..tx_nb)` holds. -/
def QueueProcessBuffer.pending (q : QueueProcessBuffer P) : List (Option P) :=
  slice q.txBufs 0 q.txNb

/-- What is received and not returned yet. -/
def QueueProcessBuffer.buffered (q : QueueProcessBuffer P) : List (Option P) :=
  slice q.rxBufs q.rxIter (q.rxNb - q.rxIter)

/-! ## 4. Slices and the shift -/

theorem slice_add (bufs : ℕ → Option P) (start n m : ℕ) :
    slice bufs start (n + m) = slice bufs start n ++ slice bufs (start + n) m := by
  simp [slice, List.range_add, Nat.add_assoc, Function.comp_def]

@[simp] theorem slice_zero (bufs : ℕ → Option P) (start : ℕ) : slice bufs start 0 = [] := rfl

@[simp] theorem slice_length (bufs : ℕ → Option P) (start n : ℕ) :
    (slice bufs start n).length = n := by
  simp [slice]

theorem slice_split (bufs : ℕ → Option P) (start : ℕ) {n k : ℕ} (hk : k ≤ n) :
    slice bufs start n = slice bufs start k ++ slice bufs (start + k) (n - k) := by
  rw [← slice_add, Nat.add_sub_cancel' hk]

theorem take_slice (bufs : ℕ → Option P) (start : ℕ) {n k : ℕ} (hk : k ≤ n) :
    (slice bufs start n).take k = slice bufs start k := by
  rw [slice_split bufs start hk, List.take_append_of_le_length (by simp), List.take_of_length_le]
  simp

theorem slice_congr {bufs bufs' : ℕ → Option P} {start start' n : ℕ}
    (h : ∀ i < n, bufs (start + i) = bufs' (start' + i)) :
    slice bufs start n = slice bufs' start' n := by
  refine List.map_congr_left fun i hi => h i (List.mem_range.mp hi)

/-- **The shift** stays inside the array and moves every entry down, although it writes where
it will not read again only. -/
theorem shift_eq (size completeNb : ℕ) : ∀ (left i : ℕ) (bufs : ℕ → Option P),
    i + left ≤ size → ∃ bufs', shift size completeNb left i bufs = .done bufs' ∧
      ∀ j, bufs' j = if i ≤ j ∧ j < i + left then bufs (j + completeNb) else bufs j
  | 0, i, bufs, _ => ⟨bufs, rfl, fun j => by rw [if_neg (by omega)]⟩
  | left + 1, i, bufs, h => by
    obtain ⟨bufs', hshift, hval⟩ := shift_eq size completeNb left (i + 1)
      (Function.update bufs i (bufs (i + completeNb))) (by omega)
    refine ⟨bufs', ?_, fun j => ?_⟩
    · rw [shift, write, if_pos (by omega), bind_done, hshift]
    · rw [hval]
      rcases Nat.lt_trichotomy j i with hj | rfl | hj
      · have hne : j ≠ i := by omega
        rw [if_neg (by omega), if_neg (by omega), Function.update_of_ne hne]
      · rw [if_neg (by omega), if_pos (by omega), Function.update_self]
      · have hne : j ≠ i := by omega
        have hne' : j + completeNb ≠ i := by omega
        rw [Function.update_of_ne hne, Function.update_of_ne hne']
        exact if_congr (by omega) rfl rfl

/-! ## 5. What the calls do -/

/-- The NIC took some of the array, possibly nothing; no packet was lost or moved past
another.  Unless nothing happened at all, it was offered the whole array first, and the timer
is cleared. -/
structure Drained (q : QueueProcessBuffer P) (nic : Nic P) (q' : QueueProcessBuffer P)
    (nic' : Nic P) : Prop where
  fifo : nic'.accepted ++ q'.pending = nic.accepted ++ q.pending
  txNb : q'.txNb ≤ q.txNb
  txSize : q'.txSize = q.txSize
  rx : q'.rxBufs = q.rxBufs ∧ q'.rxNb = q.rxNb ∧ q'.rxIter = q.rxIter ∧ q'.rxSize = q.rxSize
  received : nic'.received = nic.received
  offered : (q' = q ∧ nic' = nic) ∨
    (∃ rest, nic'.offered = nic.offered ++ q.pending :: rest) ∧ q'.flushTimer = 0

theorem Drained.refl (q : QueueProcessBuffer P) (nic : Nic P) : Drained q nic q nic :=
  ⟨rfl, Nat.le_refl _, rfl, ⟨rfl, rfl, rfl, rfl⟩, rfl, Or.inl ⟨rfl, rfl⟩⟩

theorem Drained.trans {q q' q'' : QueueProcessBuffer P} {nic nic' nic'' : Nic P}
    (h : Drained q nic q' nic') (h' : Drained q' nic' q'' nic'') : Drained q nic q'' nic'' := by
  obtain ⟨hb, hn, hi, hs⟩ := h.rx
  obtain ⟨hb', hn', hi', hs'⟩ := h'.rx
  refine ⟨h'.fifo.trans h.fifo, Nat.le_trans h'.txNb h.txNb, h'.txSize.trans h.txSize,
    ⟨hb'.trans hb, hn'.trans hn, hi'.trans hi, hs'.trans hs⟩, h'.received.trans h.received, ?_⟩
  rcases h.offered with ⟨rfl, rfl⟩ | ⟨⟨rest, hoff⟩, htimer⟩
  · exact h'.offered
  · right
    rcases h'.offered with ⟨rfl, rfl⟩ | ⟨⟨rest', hoff'⟩, htimer'⟩
    · exact ⟨⟨rest, hoff⟩, htimer⟩
    · exact ⟨⟨rest ++ q'.pending :: rest', by rw [hoff', hoff]; simp⟩, htimer'⟩

namespace QueueProcessBuffer

variable (q : QueueProcessBuffer P) (nic : Nic P)

/-- `flush_once` waits for the NIC, or drains. -/
theorem flushOnce_cases (h : q.txNb ≤ q.txSize) : q.flushOnce nic = .waiting ∨
    ∃ q' nic', q.flushOnce nic = .done (q', nic') ∧ Drained q nic q' nic' ∧
      nic'.offered = nic.offered ++ [q.pending] ∧ q'.flushTimer = 0 := by
  unfold flushOnce Nic.txBurst
  cases nic.willing with
  | nil => exact Or.inl rfl
  | cons w willing =>
    right
    have hmin : min w (slice q.txBufs 0 q.txNb).length ≤ q.txNb := by
      rw [slice_length]
      exact Nat.min_le_right _ _
    simp only [bind_done]
    generalize min w (slice q.txBufs 0 q.txNb).length = n at hmin
    split
    · rename_i hmoves
      obtain ⟨bufs, hshift, hval⟩ := shift_eq q.txSize n (q.txNb - n) 0 q.txBufs
        (by omega)
      rw [hshift, bind_done]
      refine ⟨_, _, rfl, ⟨?_, Nat.sub_le _ _, rfl, ⟨rfl, rfl, rfl, rfl⟩, rfl, ?_⟩, rfl, rfl⟩
      · have hrest : slice bufs 0 (q.txNb - n) = slice q.txBufs (0 + n) (q.txNb - n) := by
          refine slice_congr fun i hi => ?_
          rw [hval, if_pos (by omega)]
          congr 1
          omega
        simp only [pending]
        rw [hrest, take_slice _ _ hmin, List.append_assoc, ← slice_split _ _ hmin]
      · exact Or.inr ⟨⟨[], rfl⟩, rfl⟩
    · rename_i hstays
      refine ⟨_, _, rfl, ⟨?_, Nat.sub_le _ _, rfl, ⟨rfl, rfl, rfl, rfl⟩, rfl, ?_⟩, rfl, rfl⟩
      · have hends : q.txNb - n = 0 ∨ n = 0 := by omega
        simp only [pending]
        rw [take_slice _ _ hmin]
        rcases hends with h0 | rfl
        · have hall : n = q.txNb := by omega
          rw [h0, slice_zero, List.append_nil, hall]
        · rw [slice_zero, List.append_nil, Nat.sub_zero]
      · exact Or.inr ⟨⟨[], rfl⟩, rfl⟩

/-- The loop of `flush` waits for the NIC, or ends when it has taken everything. -/
theorem flushLoop_cases (hsmall : q.txNb < 2 ^ 16) : ∀ (answers completeNb : ℕ) (nic : Nic P),
    completeNb ≤ q.txNb → q.flushLoop answers completeNb nic = .waiting ∨
      ∃ nic', q.flushLoop answers completeNb nic = .done nic' ∧
        nic'.accepted = nic.accepted ++ slice q.txBufs completeNb (q.txNb - completeNb) ∧
        nic'.received = nic.received ∧ ∃ rest, nic'.offered = nic.offered ++ rest
  | 0, completeNb, nic, h => by
    unfold flushLoop
    split
    · exact Or.inl rfl
    · refine Or.inr ⟨nic, rfl, ?_, rfl, [], by simp⟩
      have hnone : q.txNb - completeNb = 0 := by omega
      rw [hnone, slice_zero, List.append_nil]
  | answers + 1, completeNb, nic, h => by
    unfold flushLoop
    split
    · unfold Nic.txBurst
      cases nic.willing with
      | nil => exact Or.inl rfl
      | cons w willing =>
        have hmin : min w (slice q.txBufs completeNb (q.txNb - completeNb)).length ≤
            q.txNb - completeNb := by
          rw [slice_length]
          exact Nat.min_le_right _ _
        simp only [bind_done]
        generalize min w (slice q.txBufs completeNb (q.txNb - completeNb)).length = n at hmin
        have hlt : completeNb + n < 2 ^ 16 := by omega
        rw [Nat.mod_eq_of_lt hlt]
        rcases flushLoop_cases hsmall answers (completeNb + n) _ (by omega) with
          hwait | ⟨nic', hdone, hacc, hrec, rest, hoff⟩
        · exact Or.inl hwait
        · refine Or.inr ⟨nic', hdone, ?_, hrec,
            slice q.txBufs completeNb (q.txNb - completeNb) :: rest, ?_⟩
          · rw [hacc, take_slice _ _ hmin, List.append_assoc, ← Nat.sub_sub,
              ← slice_split _ _ hmin]
          · rw [hoff, List.append_assoc]
            rfl
    · refine Or.inr ⟨nic, rfl, ?_, rfl, [], by simp⟩
      have hnone : q.txNb - completeNb = 0 := by omega
      rw [hnone, slice_zero, List.append_nil]

/-- `flush` waits for the NIC, or drains everything. -/
theorem flush_cases (hsmall : q.txNb < 2 ^ 16) : q.flush nic = .waiting ∨
    ∃ q' nic', q.flush nic = .done (q', nic') ∧ Drained q nic q' nic' ∧
      (∃ rest, nic'.offered = nic.offered ++ q.pending :: rest) ∧ q'.flushTimer = 0 := by
  unfold flush Nic.txBurst
  cases nic.willing with
  | nil => exact Or.inl rfl
  | cons w willing =>
    have hmin : min w (slice q.txBufs 0 q.txNb).length ≤ q.txNb := by
      rw [slice_length]
      exact Nat.min_le_right _ _
    simp only [bind_done]
    generalize min w (slice q.txBufs 0 q.txNb).length = n at hmin
    rcases q.flushLoop_cases hsmall willing.length n _ hmin with
      hwait | ⟨nic', hdone, hacc, hrec, rest, hoff⟩
    · rw [hwait]
      exact Or.inl rfl
    · rw [hdone, bind_done]
      have hoff' : nic'.offered = nic.offered ++ q.pending :: rest := by
        rw [hoff, List.append_assoc]
        rfl
      refine Or.inr ⟨_, _, rfl, ⟨?_, Nat.zero_le _, rfl, ⟨rfl, rfl, rfl, rfl⟩, hrec,
        Or.inr ⟨⟨rest, hoff'⟩, rfl⟩⟩, ⟨rest, hoff'⟩, rfl⟩
      simp only [pending]
      rw [hacc, take_slice _ _ hmin, slice_zero, List.append_nil, List.append_assoc,
        slice_split q.txBufs 0 hmin, Nat.zero_add]

/-- The first loop of `send` waits for the NIC, or makes room. -/
theorem makeRoom_cases : ∀ (answers : ℕ) (q : QueueProcessBuffer P) (nic : Nic P),
    q.txNb ≤ q.txSize → makeRoom answers q nic = .waiting ∨
      ∃ q' nic', makeRoom answers q nic = .done (q', nic') ∧ Drained q nic q' nic' ∧
        q'.txNb < q'.txSize
  | 0, q, nic, h => by
    unfold makeRoom
    split
    · exact Or.inl rfl
    · exact Or.inr ⟨q, nic, rfl, .refl q nic, by omega⟩
  | answers + 1, q, nic, h => by
    unfold makeRoom
    split
    · rcases q.flushOnce_cases nic h with hwait | ⟨q', nic', hdone, hdrained, -, -⟩
      · rw [hwait]
        exact Or.inl rfl
      · rw [hdone, bind_done]
        have h' : q'.txNb ≤ q'.txSize :=
          Nat.le_trans hdrained.txNb (Nat.le_trans h (Nat.le_of_eq hdrained.txSize.symm))
        rcases makeRoom_cases answers q' nic' h' with hwait | ⟨q'', nic'', hdone', hd', hroom⟩
        · exact Or.inl hwait
        · exact Or.inr ⟨q'', nic'', hdone', hdrained.trans hd', hroom⟩
    · exact Or.inr ⟨q, nic, rfl, .refl q nic, by omega⟩

end QueueProcessBuffer

/-- `receive` fetched `buf`, NULL if the NIC delivered nothing: no packet was lost or moved
past another, and the transmit side is as it was. -/
structure Fetched (q : QueueProcessBuffer P) (nic : Nic P) (buf : Option P)
    (q' : QueueProcessBuffer P) (nic' : Nic P) : Prop where
  fifo : ∃ b, nic'.received = nic.received ++ b ∧
    buf.toList.map some ++ q'.buffered = q.buffered ++ b.map some
  rxIter : q'.rxIter ≤ q'.rxNb
  rxNb : q'.rxNb ≤ q'.rxSize
  rxSize : q'.rxSize = q.rxSize
  tx : q'.pending = q.pending ∧ q'.txNb = q.txNb ∧ q'.txSize = q.txSize ∧
    q'.flushTimer = q.flushTimer
  nic : nic'.accepted = nic.accepted ∧ nic'.offered = nic.offered

namespace QueueProcessBuffer

/-- The next packet of a burst that is not used up. -/
theorem next_spec {q : QueueProcessBuffer P} {l : List P} (hl : q.buffered = l.map some)
    (hiter : q.rxIter < q.rxNb) (hsmall : q.rxNb < 2 ^ 16) :
    q.next.1.toList.map some ++ q.next.2.buffered = q.buffered ∧
      q.next.2.rxIter = q.rxIter + 1 := by
  have hnext : q.next.2.rxIter = q.rxIter + 1 := Nat.mod_eq_of_lt (by omega)
  have hsplit : q.buffered = q.next.1 :: q.next.2.buffered := by
    have hone : 1 ≤ q.rxNb - q.rxIter := by omega
    unfold buffered
    rw [slice_split _ _ hone, hnext, Nat.sub_sub]
    rfl
  refine ⟨?_, hnext⟩
  cases l with
  | nil =>
    rw [hsplit] at hl
    cases hl
  | cons x l =>
    have hx : q.next.1 = some x := by
      rw [hsplit] at hl
      exact (List.cons.inj hl).1
    rw [hsplit, hx]
    rfl

/-- `fetch` waits for the NIC, or fetches. -/
theorem fetch_cases (q : QueueProcessBuffer P) (nic : Nic P) {l : List P}
    (hl : q.buffered = l.map some) (hiter : q.rxIter ≤ q.rxNb) (hnb : q.rxNb ≤ q.rxSize)
    (hsmall : q.rxSize < 2 ^ 16) : q.fetch nic = .waiting ∨
      ∃ buf q' nic', q.fetch nic = .done (buf, q', nic') ∧ Fetched q nic buf q' nic' := by
  unfold fetch
  split
  · rename_i hused
    have hnone : q.buffered = [] := by
      unfold buffered
      rw [hused, Nat.sub_self, slice_zero]
    unfold Nic.rxBurst
    cases nic.bursts with
    | nil => exact Or.inl rfl
    | cons burst bursts =>
      have hlen : (burst.take q.rxSize).length ≤ q.rxSize := List.length_take_le _ _
      simp only [bind_done]
      generalize burst.take q.rxSize = b at hlen
      right
      split
      · rename_i hempty
        obtain rfl : b = [] := List.eq_nil_of_length_eq_zero hempty
        refine ⟨_, _, _, rfl, ⟨[], rfl, ?_⟩, Nat.le_refl _, Nat.zero_le _, rfl,
          ⟨rfl, rfl, rfl, rfl⟩, rfl, rfl⟩
        rw [hnone]
        rfl
      · rename_i hsome
        have hb : buffered { q with rxIter := 0, rxNb := b.length
                                    rxBufs := fun i => (b[i]?).or (q.rxBufs i) } = b.map some := by
          refine List.ext_getElem (by simp [buffered]) fun i h1 h2 => ?_
          simp only [List.length_map] at h2
          simp [buffered, slice, h2]
        obtain ⟨hfifo, hnext⟩ := next_spec hb (Nat.pos_of_ne_zero hsome)
          (Nat.lt_of_le_of_lt hlen hsmall)
        refine ⟨_, _, _, rfl, ⟨b, rfl, ?_⟩, ?_, hlen, rfl, ⟨rfl, rfl, rfl, rfl⟩, rfl, rfl⟩
        · rw [hfifo, hnone, hb]
          rfl
        · rw [hnext]
          exact Nat.pos_of_ne_zero hsome
  · rename_i hmore
    right
    obtain ⟨hfifo, hnext⟩ := next_spec hl (Nat.lt_of_le_of_ne hiter hmore)
      (Nat.lt_of_le_of_lt hnb hsmall)
    refine ⟨_, _, _, rfl, ⟨[], by simp, ?_⟩, ?_, hnb, rfl, ⟨rfl, rfl, rfl, rfl⟩, rfl, rfl⟩
    · rw [hfifo]
      simp
    · rw [hnext]
      exact Nat.lt_of_le_of_ne hiter hmore

end QueueProcessBuffer

/-! ## 6. The invariant -/

/-- **A faithful FIFO, in both directions**, with both counters within the arrays. -/
structure Inv (rxSize txSize : ℕ) (s : State P) : Prop where
  fifo : s.nic.accepted ++ s.q.pending = s.sent.map some
  txNb : s.q.txNb ≤ s.q.txSize
  rx : s.results.map some ++ s.q.buffered = s.nic.received.map some
  rxIter : s.q.rxIter ≤ s.q.rxNb
  rxNb : s.q.rxNb ≤ s.q.rxSize
  sizes : s.q.rxSize = rxSize ∧ s.q.txSize = txSize

/-- The contents of the array were offered to the NIC between `s` and `s'`. -/
def Offers (s s' : State P) : Prop :=
  ∃ l rest, s'.nic.offered = s.nic.offered ++ l :: rest ∧ s.q.pending <+: l

def Call.isReceive : Call P → Bool
  | .receive => true
  | _ => false

/-- A call that offered nothing: the array grew at most, and a receive moved the timer. -/
structure Quiet (c : Call P) (s s' : State P) : Prop where
  offered : s'.nic.offered = s.nic.offered
  pending : s.q.pending <+: s'.q.pending
  timer : s'.q.flushTimer =
    if c.isReceive then (s.q.flushTimer + 1) % 2 ^ 16 else s.q.flushTimer
  running : c.isReceive → s.q.flushTimer < s.q.txSize * 2

/-- What a call does to the timing. -/
def Progress (c : Call P) (s s' : State P) : Prop :=
  (Offers s s' ∧ s'.q.flushTimer = 0) ∨ Quiet c s s'

variable {rxSize txSize : ℕ} {s s' : State P}

theorem Inv.init (willing : List ℕ) (bursts : List (List P)) :
    Inv rxSize txSize (State.init rxSize txSize willing bursts) :=
  ⟨rfl, Nat.zero_le _, rfl, Nat.le_refl _, Nat.zero_le _, rfl, rfl⟩

/-- Draining keeps the invariant. -/
theorem Inv.drained (hi : Inv rxSize txSize s) {q' : QueueProcessBuffer P} {nic' : Nic P}
    (h : Drained s.q s.nic q' nic') : Inv rxSize txSize { s with q := q', nic := nic' } := by
  obtain ⟨hbufs, hnb, hiter, hsize⟩ := h.rx
  have hbuffered : q'.buffered = s.q.buffered := by
    unfold QueueProcessBuffer.buffered
    rw [hbufs, hnb, hiter]
  refine ⟨h.fifo.trans hi.fifo, ?_, ?_, ?_, ?_, hsize.trans hi.sizes.1,
    h.txSize.trans hi.sizes.2⟩
  · exact Nat.le_trans h.txNb (Nat.le_trans hi.txNb (Nat.le_of_eq h.txSize.symm))
  · simp only [hbuffered, h.received]
    exact hi.rx
  · simp only [hiter, hnb]
    exact hi.rxIter
  · simp only [hnb, hsize]
    exact hi.rxNb

/-- What is buffered is what is received and not returned, so it contains no NULL. -/
theorem Inv.buffered_eq (hi : Inv rxSize txSize s) :
    ∃ l : List P, s.q.buffered = l.map some := by
  obtain ⟨l₁, l₂, -, -, hl₂⟩ := List.map_eq_append_iff.mp hi.rx.symm
  exact ⟨l₂, hl₂.symm⟩

theorem Inv.fetched (hi : Inv rxSize txSize s) {buf : Option P} {q' : QueueProcessBuffer P}
    {nic' : Nic P} (h : Fetched s.q s.nic buf q' nic') :
    Inv rxSize txSize { s with q := q', nic := nic', results := s.results ++ buf.toList } := by
  obtain ⟨b, hrec, hfifo⟩ := h.fifo
  obtain ⟨hpending, hnb, hsize, -⟩ := h.tx
  refine ⟨?_, ?_, ?_, h.rxIter, h.rxNb, h.rxSize.trans hi.sizes.1, hsize.trans hi.sizes.2⟩
  · simp only [h.nic.1, hpending]
    exact hi.fifo
  · simp only [hnb, hsize]
    exact hi.txNb
  · simp only [hrec, List.map_append, List.append_assoc, hfifo]
    rw [← hi.rx, List.append_assoc]

/-- The write of `send`. -/
theorem Inv.stored (hi : Inv rxSize txSize s) (hroom : s.q.txNb < s.q.txSize)
    (hsmall : txSize < 2 ^ 16) (buf : P) :
    let q' : QueueProcessBuffer P :=
      { s.q with
        txNb := (s.q.txNb + 1) % 2 ^ 16
        txBufs := Function.update s.q.txBufs s.q.txNb (some buf)
        totalTxNb := s.q.totalTxNb + 1 }
    q'.pending = s.q.pending ++ [some buf] ∧
      Inv rxSize txSize { s with q := q', sent := s.sent ++ [buf] } := by
  intro q'
  have hnb : (s.q.txNb + 1) % 2 ^ 16 = s.q.txNb + 1 := by
    have hsize := hi.sizes.2
    exact Nat.mod_eq_of_lt (by omega)
  have hpending : q'.pending = s.q.pending ++ [some buf] := by
    unfold QueueProcessBuffer.pending
    simp only [q', hnb, slice_add]
    congr 1
    · refine slice_congr fun i hi => ?_
      have hne : 0 + i ≠ s.q.txNb := by omega
      exact Function.update_of_ne hne _ _
    · simp [slice]
  refine ⟨hpending, ?_, ?_, hi.rx, hi.rxIter, hi.rxNb, hi.sizes⟩
  · simp only [hpending]
    rw [← List.append_assoc, hi.fifo]
    simp
  · simp only [q', hnb]
    exact hroom

/-- A drain that offered something, as progress. -/
theorem Offers.of_drained {q' : QueueProcessBuffer P} {nic' : Nic P} {sent : List P}
    (h : ∃ rest, nic'.offered = s.nic.offered ++ s.q.pending :: rest) :
    Offers s { s with q := q', nic := nic', sent } := by
  obtain ⟨rest, hrest⟩ := h
  exact ⟨s.q.pending, rest, hrest, List.prefix_refl _⟩

/-- **The step.**  A call waits for the NIC, or keeps the invariant and makes progress. -/
theorem Inv.exec (hi : Inv rxSize txSize s) (hrx : rxSize < 2 ^ 16) (htx : txSize < 2 ^ 16)
    (c : Call P) : s.exec c = .waiting ∨
      ∃ s', s.exec c = .done s' ∧ Inv rxSize txSize s' ∧ Progress c s s' := by
  have hsmall : s.q.txNb < 2 ^ 16 :=
    Nat.lt_of_le_of_lt (Nat.le_trans hi.txNb (Nat.le_of_eq hi.sizes.2)) htx
  cases c with
  | flushOnce =>
    unfold State.exec
    rcases s.q.flushOnce_cases s.nic hi.txNb with hw | ⟨q', nic', hdone, hd, hoff, htimer⟩
    · exact Or.inl (by simp only [hw]; rfl)
    · simp only [hdone, bind_done]
      exact Or.inr ⟨_, rfl, hi.drained hd, Or.inl ⟨.of_drained ⟨[], hoff⟩, htimer⟩⟩
  | flush =>
    unfold State.exec
    rcases s.q.flush_cases s.nic hsmall with hw | ⟨q', nic', hdone, hd, hoff, htimer⟩
    · exact Or.inl (by simp only [hw]; rfl)
    · simp only [hdone, bind_done]
      exact Or.inr ⟨_, rfl, hi.drained hd, Or.inl ⟨.of_drained hoff, htimer⟩⟩
  | receive =>
    simp only [State.exec, QueueProcessBuffer.receive, QueueProcessBuffer.checkFlushTimer]
    obtain ⟨l, hl⟩ := hi.buffered_eq
    split
    · -- the timer runs on
      rename_i hrun
      simp only [bind_done]
      let q₁ : QueueProcessBuffer P :=
        { s.q with flushTimer := (s.q.flushTimer + 1) % 2 ^ 16 }
      have hi₁ : Inv rxSize txSize { s with q := q₁ } :=
        ⟨hi.fifo, hi.txNb, hi.rx, hi.rxIter, hi.rxNb, hi.sizes⟩
      rcases q₁.fetch_cases s.nic hl hi.rxIter hi.rxNb (hi.sizes.1 ▸ hrx) with
        hw | ⟨buf, q', nic', hdone, hf⟩
      · exact Or.inl (by simp only [q₁] at hw; simp only [hw]; rfl)
      · simp only [q₁] at hdone
        simp only [hdone, bind_done]
        refine Or.inr ⟨_, rfl, hi₁.fetched hf, Or.inr ⟨hf.nic.2, ?_, hf.tx.2.2.2, fun _ => hrun⟩⟩
        exact hf.tx.1 ▸ List.prefix_refl _
    · -- the timer fires
      rcases s.q.flushOnce_cases s.nic hi.txNb with hw | ⟨q₁, nic₁, hdone, hd, hoff, htimer⟩
      · exact Or.inl (by simp only [hw]; rfl)
      · simp only [hdone, bind_done]
        have hi₁ := hi.drained hd
        obtain ⟨l₁, hl₁⟩ := hi₁.buffered_eq
        rcases q₁.fetch_cases nic₁ hl₁ hi₁.rxIter hi₁.rxNb (hi₁.sizes.1 ▸ hrx) with
          hw | ⟨buf, q', nic', hdone', hf⟩
        · exact Or.inl (by simp only [hw]; rfl)
        · simp only [hdone', bind_done]
          refine Or.inr ⟨_, rfl, hi₁.fetched hf, Or.inl ⟨?_, hf.tx.2.2.2.trans htimer⟩⟩
          exact ⟨s.q.pending, [], hf.nic.2.trans hoff, List.prefix_refl _⟩
  | send buf =>
    simp only [State.exec, QueueProcessBuffer.send]
    rcases QueueProcessBuffer.makeRoom_cases s.nic.willing.length s.q s.nic hi.txNb with
      hw | ⟨q₁, nic₁, hdone, hd, hroom⟩
    · exact Or.inl (by simp only [hw]; rfl)
    simp only [hdone, bind_done]
    rw [write, if_pos hroom, bind_done]
    have hi₁ := hi.drained hd
    obtain ⟨hpending, hi₂⟩ := hi₁.stored hroom htx buf
    simp only at hpending hi₂
    -- what the array holds before the write is a part of what it holds after
    have hgrow : (∃ rest, nic₁.offered = s.nic.offered ++ s.q.pending :: rest) ∧
          q₁.flushTimer = 0 ∨
        nic₁.offered = s.nic.offered ∧ q₁.flushTimer = s.q.flushTimer ∧
          s.q.pending <+: q₁.pending ++ [some buf] := by
      rcases hd.offered with ⟨rfl, rfl⟩ | h
      · exact Or.inr ⟨rfl, rfl, List.prefix_append _ _⟩
      · exact Or.inl h
    split
    · -- the array is full again
      rename_i hfull
      rcases QueueProcessBuffer.flushOnce_cases _ nic₁ hi₂.txNb with
        hw | ⟨q', nic', hdone', hd', hoff, htimer⟩
      · exact Or.inl (by simp only at hw; simp only [hw]; rfl)
      · simp only at hdone' hd' hoff
        simp only [hdone', bind_done]
        refine Or.inr ⟨_, rfl, hi₂.drained hd', Or.inl ⟨?_, htimer⟩⟩
        rw [hpending] at hoff
        rcases hgrow with ⟨⟨rest, hrest⟩, -⟩ | ⟨hsame, -, hprefix⟩
        · refine .of_drained ⟨rest ++ [q₁.pending ++ [some buf]], ?_⟩
          rw [hoff, hrest]
          simp
        · exact ⟨_, [], by rw [hoff, hsame], hprefix⟩
    · refine Or.inr ⟨_, rfl, hi₂, ?_⟩
      rcases hgrow with ⟨⟨rest, hrest⟩, htimer⟩ | ⟨hsame, htimer, hprefix⟩
      · exact Or.inl ⟨.of_drained ⟨rest, hrest⟩, htimer⟩
      · refine Or.inr ⟨hsame, ?_, htimer, fun h => absurd h (by simp [Call.isReceive])⟩
        simp only [hpending]
        exact hprefix

/-! ## 7. Runs -/

/-- The invariant holds after every sequence of calls, and no call writes outside the array. -/
theorem Inv.run (hrx : rxSize < 2 ^ 16) (htx : txSize < 2 ^ 16) :
    ∀ (cs : List (Call P)) (s : State P), Inv rxSize txSize s →
      s.run cs = .waiting ∨ ∃ s', s.run cs = .done s' ∧ Inv rxSize txSize s'
  | [], s, hi => Or.inr ⟨s, rfl, hi⟩
  | c :: cs, s, hi => by
    unfold State.run
    rcases hi.exec hrx htx c with hw | ⟨s₁, hdone, hi₁, -⟩
    · rw [hw]
      exact Or.inl rfl
    · rw [hdone, bind_done]
      exact Inv.run hrx htx cs s₁ hi₁

theorem Progress.offered_mono {c : Call P} (h : Progress c s s') :
    ∃ ext, s'.nic.offered = s.nic.offered ++ ext := by
  rcases h with ⟨⟨l, rest, hoff, -⟩, -⟩ | h
  · exact ⟨_, hoff⟩
  · exact ⟨[], by rw [h.offered, List.append_nil]⟩

/-- **The timer counts the receives** until the array is offered, as long as it does not
wrap. -/
theorem Inv.run_offers (hrx : rxSize < 2 ^ 16) (htx : txSize < 2 ^ 15) :
    ∀ (cs : List (Call P)) (s s' : State P), Inv rxSize txSize s →
      s.q.flushTimer ≤ txSize * 2 → s.run cs = .done s' →
      s'.q.flushTimer ≤ txSize * 2 ∧ (∃ ext, s'.nic.offered = s.nic.offered ++ ext) ∧
        (Offers s s' ∨ s.q.flushTimer + cs.countP Call.isReceive ≤ txSize * 2)
  | [], s, s', _, ht, h => by
    unfold State.run at h
    cases h
    exact ⟨ht, ⟨[], by simp⟩, Or.inr (by simpa using ht)⟩
  | c :: cs, s, s', hi, ht, h => by
    unfold State.run at h
    obtain ⟨s₁, hdone, hrest⟩ := bind_eq_done h
    rcases hi.exec hrx (by omega) c with hw | ⟨s₂, hdone', hi₁, hp⟩
    · rw [hw] at hdone
      cases hdone
    obtain rfl : s₂ = s₁ := by
      rw [hdone] at hdone'
      cases hdone'
      rfl
    have hsize := hi.sizes.2
    have ht₁ : s₂.q.flushTimer ≤ txSize * 2 := by
      rcases hp with ⟨-, h0⟩ | hq
      · omega
      · have htimer := hq.timer
        have hrun := hq.running
        split at htimer
        · rename_i hc
          have := hrun hc
          omega
        · omega
    obtain ⟨ht', ⟨ext, hext⟩, hor⟩ := Inv.run_offers hrx htx cs s₂ s' hi₁ ht₁ hrest
    obtain ⟨ext₁, hext₁⟩ := hp.offered_mono
    refine ⟨ht', ⟨ext₁ ++ ext, by rw [hext, hext₁, List.append_assoc]⟩, ?_⟩
    rcases hp with ⟨⟨l, rest, hoff, hl⟩, -⟩ | hq
    · left
      exact ⟨l, rest ++ ext, by rw [hext, hoff]; simp, hl⟩
    rcases hor with ⟨l, rest, hoff, hl⟩ | hle
    · left
      exact ⟨l, rest, by rw [hoff, hq.offered], hq.pending.trans hl⟩
    · right
      have htimer := hq.timer
      rw [List.countP_cons]
      split at htimer
      · rename_i hc
        have := hq.running hc
        rw [if_pos hc]
        omega
      · rename_i hc
        rw [if_neg hc]
        omega

/-- **A timer that never fires**: with an array of `2^15` entries or more, receives that find
nothing offer nothing. -/
theorem timer_never_fires : ∀ (n : ℕ) (s : State P), 2 ^ 15 ≤ s.q.txSize →
    s.q.flushTimer < 2 ^ 16 → s.q.rxIter = 0 → s.q.rxNb = 0 →
    s.nic.bursts = List.replicate n [] →
    ∃ s', s.run (List.replicate n .receive) = .done s' ∧ s'.nic.offered = s.nic.offered
  | 0, s, _, _, _, _, _ => ⟨s, rfl, rfl⟩
  | n + 1, s, hbig, htimer, hiter, hnb, hbursts => by
    have hrun : s.q.flushTimer < s.q.txSize * 2 := by omega
    have hused : s.q.rxIter = s.q.rxNb := hiter.trans hnb.symm
    let s₁ : State P :=
      { s with
        q := { s.q with
          flushTimer := (s.q.flushTimer + 1) % 2 ^ 16, rxIter := 0, rxNb := 0
          rxBufs := fun i => (([] : List P)[i]?).or (s.q.rxBufs i) }
        nic := { s.nic with bursts := List.replicate n [], received := s.nic.received ++ [] }
        results := s.results ++ [] }
    have hstep : s.exec .receive = .done s₁ := by
      simp [s₁, State.exec, QueueProcessBuffer.receive, QueueProcessBuffer.checkFlushTimer, hrun,
        QueueProcessBuffer.fetch, hused, Nic.rxBurst, hbursts, List.replicate_succ]
    obtain ⟨s', hdone, hoff⟩ := timer_never_fires n s₁ hbig (Nat.mod_lt _ (Nat.two_pow_pos 16))
      rfl rfl rfl
    refine ⟨s', ?_, hoff⟩
    rw [List.replicate_succ, State.run, hstep, bind_done]
    exact hdone

/-! ## 8. The result -/

/-- A state after some calls on a new object, at some NIC. -/
def Reachable (rxSize txSize : BitVec 16) (s : State P) : Prop :=
  ∃ willing bursts cs, (State.init rxSize.toNat txSize.toNat willing bursts).run cs = .done s

/-- What was accepted and what the array holds is what was sent; what was returned and what
is buffered is what was received. -/
structure Faithful (s : State P) : Prop where
  sent : s.nic.accepted ++ s.q.pending = s.sent.map some
  inArray : s.q.txNb ≤ s.q.txSize
  received : s.results.map some ++ s.q.buffered = s.nic.received.map some

/-- What the array holds is offered within `2 * tx_size + 1` receives. -/
def Timely (s : State P) : Prop :=
  s.q.pending ≠ [] → ∀ cs s', s.run cs = .done s' →
    2 * s.q.txSize + 1 ≤ cs.countP Call.isReceive → Offers s s'

/-- **Transmit batching is a faithful FIFO**, for an object of these sizes. -/
def BatchesFaithfully (P : Type*) (rxSize txSize : BitVec 16) : Prop :=
  (∀ s : State P, Reachable rxSize txSize s → Faithful s ∧ Timely s) ∧
    ∀ willing bursts (cs : List (Call P)),
      (State.init rxSize.toNat txSize.toNat willing bursts).run cs ≠ .outOfBounds

theorem reachable_inv {rxSize txSize : BitVec 16} {s : State P} (h : Reachable rxSize txSize s) :
    Inv rxSize.toNat txSize.toNat s := by
  obtain ⟨willing, bursts, cs, hrun⟩ := h
  rcases Inv.run rxSize.isLt txSize.isLt cs _ (.init willing bursts) with hw | ⟨s', hdone, hi⟩
  · rw [hw] at hrun
    cases hrun
  · rw [hdone] at hrun
    cases hrun
    exact hi

theorem not_outOfBounds (rxSize txSize : BitVec 16) (willing : List ℕ) (bursts : List (List P))
    (cs : List (Call P)) :
    (State.init rxSize.toNat txSize.toNat willing bursts).run cs ≠ .outOfBounds := by
  intro h
  rcases Inv.run rxSize.isLt txSize.isLt cs _ (.init willing bursts) with hw | ⟨s', hdone, -⟩
  · rw [hw] at h
    cases h
  · rw [hdone] at h
    cases h

theorem faithful_of_reachable {rxSize txSize : BitVec 16} {s : State P}
    (h : Reachable rxSize txSize s) : Faithful s :=
  have hi := reachable_inv h
  ⟨hi.fifo, hi.txNb, hi.rx⟩

/-- Below `2^15` entries the timer does not wrap. -/
theorem timely_of_small {rxSize txSize : BitVec 16} (hsmall : txSize.toNat < 2 ^ 15)
    {s : State P} (h : Reachable rxSize txSize s) : Timely s := by
  have hi := reachable_inv h
  obtain ⟨willing, bursts, cs₀, hrun₀⟩ := h
  have ht := (Inv.run_offers rxSize.isLt hsmall cs₀ _ s (.init willing bursts) (Nat.zero_le _)
    hrun₀).1
  intro _ cs s' hrun hcount
  rcases (Inv.run_offers rxSize.isLt hsmall cs s s' hi ht hrun).2.2 with hoff | hle
  · exact hoff
  · have hsize := hi.sizes.2
    omega

/-- An object with such an array is a faithful FIFO. -/
theorem batches_of_small {rxSize txSize : BitVec 16} (hsmall : txSize.toNat < 2 ^ 15) :
    BatchesFaithfully P rxSize txSize :=
  ⟨fun _ hs => ⟨faithful_of_reachable hs, timely_of_small hsmall hs⟩,
    not_outOfBounds rxSize txSize⟩

/-- From `2^15` entries on one packet waits for ever. -/
theorem not_batches_of_large [Inhabited P] {rxSize txSize : BitVec 16}
    (hbig : 2 ^ 15 ≤ txSize.toNat) : ¬ BatchesFaithfully P rxSize txSize := by
  rintro ⟨hall, -⟩
  let bursts : List (List P) := List.replicate (2 * txSize.toNat + 1) []
  let s₀ : State P := State.init rxSize.toNat txSize.toNat [] bursts
  obtain ⟨s, hsend, hs⟩ : ∃ s, s₀.run [.send default] = .done s ∧ s = { s₀ with
      q := { s₀.q with
        txNb := 1, txBufs := Function.update (fun _ => none) 0 (some default), totalTxNb := 1 }
      sent := [default] } := by
    have h0 : ¬ (0 = txSize.toNat) := by omega
    have h1 : ¬ (1 = txSize.toNat) := by omega
    have hpos : 0 < txSize.toNat := by omega
    refine ⟨_, ?_, rfl⟩
    simp [s₀, State.run, State.exec, State.init, QueueProcessBuffer.init, QueueProcessBuffer.send,
      QueueProcessBuffer.makeRoom, write, h0, h1, hpos]
  obtain ⟨s', hrun, hoff⟩ := timer_never_fires (2 * txSize.toNat + 1) s (by rw [hs]; exact hbig)
    (by rw [hs]; exact Nat.two_pow_pos 16) (by rw [hs]; rfl) (by rw [hs]; rfl) (by rw [hs]; rfl)
  have htimely := (hall s ⟨_, _, _, hsend⟩).2
  obtain ⟨l, rest, hoff', -⟩ := htimely (by rw [hs]; exact List.cons_ne_nil _ _) _ s' hrun
    (by rw [hs]; simp [s₀, State.init, QueueProcessBuffer.init, List.countP_replicate,
      Call.isReceive])
  rw [hoff] at hoff'
  simp at hoff'

/-- **Transmit batching is a faithful FIFO exactly for arrays of fewer than `2^15` entries.**
For any other the order of the packets, the bound on `tx_nb` and the receive side are right
all the same. -/
theorem batchesFaithfully_iff [Inhabited P] (rxSize txSize : BitVec 16) :
    (BatchesFaithfully P rxSize txSize ↔ txSize.toNat < 2 ^ 15) ∧
      (∀ s : State P, Reachable rxSize txSize s → Faithful s) ∧
      ∀ willing bursts (cs : List (Call P)),
        (State.init rxSize.toNat txSize.toNat willing bursts).run cs ≠ .outOfBounds := by
  refine ⟨⟨fun h => ?_, batches_of_small⟩, fun s => faithful_of_reachable,
    not_outOfBounds rxSize txSize⟩
  by_contra hbig
  exact not_batches_of_large (Nat.le_of_not_lt hbig) h

/-- **The object of a worker batches faithfully**: `main` constructs it with an array of
`MAX_PKT_BURST` entries. -/
theorem transmit_batching (rxSize : BitVec 16) :
    BatchesFaithfully P rxSize (BitVec.ofNat 16 maxPktBurst) :=
  batches_of_small (by decide)

end ProcessBuffer

end NetCCL.Backend
