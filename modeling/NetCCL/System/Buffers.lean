/-
# What the buffers of a worker hold

The buffer of a sub-op is shared memory: the frontend fills it, the worker reads it when it
builds the packets, and writes what comes back into the same place.  So what is sent, and what is
there at the end, depends on who writes when.

A worker OWNS the buffer of a sub-op from the time it is given the sub-op until its completion is
taken from the queue (`Run.Owns`).  `Undisturbed` says what the other threads keep to: they store
nothing in a buffer the worker owns, and give it no two that overlap.  Under it `Buffers` is an
invariant, for what the buffers had when the worker was given them (`given`):

* every packet was built from these bytes, however late it was built (`Buffers.sent`);
* a byte of the buffer is as it was until the packet that covers it is accepted, and what the
  response had from then on (`Buffers.before`, `Buffers.after`).

`Buffers.answered` reads the buffer of an answered sub-op off the accepted responses.
-/
import NetCCL.Wire
import NetCCL.System.Network
import NetCCL.Backend.Share
import NetCCL.Backend.LoadBalancer

namespace NetCCL

open Lib Switch Backend

/-! ## 1. Owners -/

/-- The worker was given the sub-op, and its completion has not been taken from the queue. -/
def Backend.Run.Owns (r : Run) (ptr : ℕ) : Prop :=
  ptr < r.worker.heap.length ∧ r.worker.heap.length ≤ ptr + r.worker.qp.numInQueue

/-- The bytes a packet covers. -/
def Backend.PktState.span (p : PktState) : Span := ⟨p.data, p.size⟩

theorem subOpSpan_has {t : SubOp} {o : ℕ} (ho : o < t.size) : (subOpSpan t).Has (t.data + o) :=
  ⟨Nat.le_add_right _ _, Nat.add_lt_add_left ho _⟩

theorem Backend.PktState.has_span {p : PktState} {j : ℕ} (hj : j < p.size) :
    p.span.Has (p.data + j) :=
  ⟨Nat.le_add_right _ _, Nat.add_lt_add_left hj _⟩

/-- **What the other threads keep to.**  `given ptr o` is byte `o` of the buffer of sub-op number
`ptr`, when the worker is given it. -/
structure Undisturbed (given : ℕ → ℕ → Backend.Byte) (r : Run) (l : Label) : Prop where
  post : ∀ t, l = .pushReq t →
    (∀ o < t.size, r.worker.mem (t.data + o) = given r.worker.heap.length o) ∧
    (t.op.reduces = true → 4 ∣ t.size) ∧
    ∀ ptr, r.Owns ptr → (subOpSpan (r.worker.subOp ptr)).Disjoint (subOpSpan t)
  store : ∀ addr b, l = .store addr b →
    ∀ ptr, r.Owns ptr → ¬ (subOpSpan (r.worker.subOp ptr)).Has addr

/-- A buffer with these bytes. -/
def placed (t : SubOp) (bytes : ℕ → Backend.Byte) : ℕ → Backend.Byte := fun a => bytes (a - t.data)

/-- What is left of a response in the block of its packet. -/
def keptBytes (op : Op) (payload : ℕ → Backend.Byte) (size : ℕ) : ℕ → Backend.Byte :=
  if op.reduces then memcpyBe32 (fun _ => 0) payload size else payload

/-- **The invariant.** -/
structure Buffers (given : ℕ → ℕ → Backend.Byte) (r : Run) : Prop where
  whole : ∀ ptr < r.worker.heap.length, (r.worker.subOp ptr).op.reduces = true →
    4 ∣ (r.worker.subOp ptr).size
  apart : ∀ ptr ptr', r.Owns ptr → r.Owns ptr' → ptr ≠ ptr' →
    (subOpSpan (r.worker.subOp ptr)).Disjoint (subOpSpan (r.worker.subOp ptr'))
  sent : ∀ p ∈ built r.log, ∀ v, word (packetOf p.pkt).payload v =
    sentWord (placed (r.worker.subOp p.subOp) (given p.subOp)) (r.worker.subOp p.subOp) p v
  before : ∀ ptr, r.Owns ptr → ∀ o < (r.worker.subOp ptr).size,
    (needRx (r.worker.subOp ptr).op = true → ∀ x ∈ accepted r.log, x.1.subOp = ptr →
      ¬ x.1.span.Has ((r.worker.subOp ptr).data + o)) →
    r.worker.mem ((r.worker.subOp ptr).data + o) = given ptr o
  after : ∀ x ∈ accepted r.log, r.Owns x.1.subOp →
    needRx (r.worker.subOp x.1.subOp).op = true → ∀ j < x.1.size, r.worker.mem (x.1.data + j) =
      keptBytes (r.worker.subOp x.1.subOp).op x.2.payload x.1.size j

variable {given : ℕ → ℕ → Backend.Byte} {ctx : BitVec 8 → BitVec 32} {r r' : Run}
  {k sent popped : ℕ} {acc : List ℕ} {l : Label}

/-- The buffer of a sub-op that has no answer is with the worker. -/
theorem Backend.Inv.owns (h : Inv ctx r k sent popped acc) {ptr : ℕ}
    (hlt : ptr < r.worker.heap.length) (hnot : ptr ∉ pushed r.log) : r.Owns ptr := by
  have hle := h.answered.le
  have hnum := h.answered.numInQueue
  have hlen : (pushed r.log).length ≤ ptr := by
    by_contra hlt'
    have hget : (pushed r.log)[ptr]? = (List.range k)[ptr]? := by
      obtain ⟨rest, hrest⟩ := h.pushed_range
      rw [← hrest, List.getElem?_append_left (Nat.lt_of_not_le hlt')]
    have hk : ptr < (List.range k).length :=
      Nat.lt_of_lt_of_le (Nat.lt_of_not_le hlt') h.pushed_range.length_le
    rw [List.getElem?_eq_getElem hk, List.getElem_range] at hget
    exact hnot (List.mem_of_getElem? hget)
  exact ⟨hlt, by omega⟩

/-- So is that of one whose completion is in the queue. -/
theorem Backend.Inv.owns_of_cq (h : Inv ctx r k sent popped acc) {ptr : ℕ}
    (hptr : ptr ∈ r.worker.qp.cq) : ptr ∈ pushed r.log ∧ r.Owns ptr := by
  have hnum := h.answered.numInQueue
  have hk := h.cursor.le
  rw [h.answered.cq] at hptr
  refine ⟨List.mem_of_mem_drop hptr, ?_⟩
  obtain ⟨i, hi⟩ := List.mem_iff_getElem?.mp hptr
  rw [List.getElem?_drop] at hi
  obtain ⟨rest, hrest⟩ := h.pushed_range
  have hget : (List.range k)[popped + i]? = some ptr := by
    rw [← hrest, List.getElem?_append_left (List.getElem?_eq_some_iff.mp hi).1, hi]
  obtain ⟨hlt, heq⟩ := List.getElem?_eq_some_iff.mp hget
  rw [List.length_range] at hlt
  rw [List.getElem_range] at heq
  exact ⟨by omega, by omega⟩

/-! ## 2. Packets do not overlap -/

theorem cutSubOp_apart (ptr : ℕ) (s : SubOp) (start : BitVec 32) :
    (cutSubOp ptr s start).Pairwise fun c c' => c.data + c.size ≤ c'.data := by
  rw [cutSubOp, List.pairwise_map]
  refine List.Pairwise.imp ?_ List.pairwise_lt_range
  intro i j hij
  have hsucc : (i + 1) * payloadSize ≤ j * payloadSize := Nat.mul_le_mul_right _ hij
  have hmin := Nat.min_le_left payloadSize (s.size - i * payloadSize)
  rw [Nat.succ_mul] at hsucc
  simp only [cutAt]
  omega

/-- Two packets of one sub-op. -/
theorem cuts_apart (ctx : BitVec 8 → BitVec 32) (heap : List SubOp) :
    (cuts ctx heap).Pairwise fun c c' => c.subOp = c'.subOp → c.data + c.size ≤ c'.data := by
  induction heap using List.reverseRecOn with
  | nil => exact List.Pairwise.nil
  | append_singleton heap s ih =>
    rw [cuts_concat, List.pairwise_append]
    refine ⟨ih, (cutSubOp_apart heap.length s _).imp ?_, fun c hc c' hc' heq => ?_⟩
    · intro c c' hle _
      exact hle
    obtain ⟨j, -, rfl⟩ := mem_cutSubOp hc'
    have hlt := cuts_subOp_lt hc
    rw [heq] at hlt
    exact absurd hlt (Nat.lt_irrefl _)

theorem Backend.Cursor.built_apart (h : Cursor ctx r k sent) {i j : ℕ} {p p' : PktState}
    (hi : (built r.log)[i]? = some p) (hj : (built r.log)[j]? = some p') (hne : i ≠ j)
    (hsub : p.subOp = p'.subOp) : p.span.Disjoint p'.span := by
  obtain ⟨rest, hrest⟩ := h.built_cuts
  have hcut : ∀ {i : ℕ} {p : PktState}, (built r.log)[i]? = some p →
      (cuts ctx r.worker.heap)[i]? = some p.cut := by
    intro i p hp
    have hlt := (List.getElem?_eq_some_iff.mp hp).1
    rw [← hrest, List.getElem?_append_left (by simpa using hlt), List.getElem?_map, hp]
    rfl
  have hpair := List.pairwise_iff_getElem.mp (cuts_apart ctx r.worker.heap)
  have hbefore : ∀ {i j : ℕ} {p p' : PktState}, (built r.log)[i]? = some p →
      (built r.log)[j]? = some p' → i < j → p.subOp = p'.subOp → p.span.Disjoint p'.span := by
    intro i j p p' hi hj hij hsub
    obtain ⟨hi', hci⟩ := List.getElem?_eq_some_iff.mp (hcut hi)
    obtain ⟨hj', hcj⟩ := List.getElem?_eq_some_iff.mp (hcut hj)
    have hle := hpair i j hi' hj' hij
    rw [hci, hcj] at hle
    exact Span.disjoint_of_le (hle hsub)
  rcases Nat.lt_or_gt_of_ne hne with hlt | hlt
  · exact hbefore hi hj hlt hsub
  · exact (hbefore hj hi hlt hsub.symm).symm

/-- No packet is accepted twice. -/
theorem Backend.Inv.accepted_apart (h : Inv ctx r k sent popped acc) :
    (accepted r.log).Pairwise fun x y =>
      x.1.subOp = y.1.subOp → x.1.span.Disjoint y.1.span := by
  have hpair : ∀ {xs : List (PktState × Frame)} {js : List ℕ},
      List.Forall₂ (Answers (built r.log)) xs js → js.Nodup →
      xs.Pairwise fun x y => x.1.subOp = y.1.subOp → x.1.span.Disjoint y.1.span := by
    intro xs js hall hnodup
    induction hall with
    | nil => exact List.Pairwise.nil
    | cons hx hall ih =>
      rw [List.nodup_cons] at hnodup
      refine List.pairwise_cons.mpr ⟨fun y hy hsub => ?_, ih hnodup.2⟩
      obtain ⟨j, hj, hans⟩ := forall₂_exists hall hy
      obtain ⟨p, hp, heq, -⟩ := hx
      obtain ⟨p', hp', heq', -⟩ := hans
      rw [heq, heq'] at hsub ⊢
      have hdis : p.span.Disjoint p'.span := by
        refine h.cursor.built_apart hp hp' (fun he => ?_) hsub
        exact hnodup.1 (he ▸ hj)
      exact hdis
  exact hpair h.window.accepted h.window.nodup

/-! ## 3. What a packet is built from -/

/-- Only the block of the packet matters. -/
theorem sentWord_congr {mem mem' : ℕ → Backend.Byte} {s : SubOp} {p p' : PktState}
    (hdata : p'.data = p.data) (hsize : p'.size = p.size)
    (h : ∀ j < p.size, mem' (p.data + j) = mem (p.data + j)) {i : ℕ} :
    sentWord mem' s p' i = sentWord mem s p i := by
  have hint : blockInt mem' p' i = blockInt mem p i := by
    rw [blockInt, blockInt, hsize, hdata]
    split
    · rename_i hlt
      rw [hostWord, hostWord, h _ (by omega), h _ (by omega), h _ (by omega), h _ (by omega)]
    · rfl
  have hblock : paddedBlock mem' p' = paddedBlock mem p := by
    funext j
    rw [paddedBlock, paddedBlock, hsize, hdata]
    split
    · exact h j ‹_›
    · rfl
  rw [sentWord, sentWord, hint, hblock]

theorem word_zero (v : Fin 64) : word (fun _ => ⟨0, 0⟩) v = 0 := by
  unfold word
  dsimp only
  split <;> rfl

/-- **The words the switch finds in a packet.** -/
theorem word_fillPkt (mem : ℕ → Backend.Byte) {s : SubOp} {p : PktState}
    (hwhole : s.op.reduces = true → 4 ∣ p.size) (v : Fin 64) :
    word (packetOf (fillPkt mem s p).pkt).payload v = sentWord mem s p v := by
  rcases Bool.eq_false_or_eq_true (needTx s.op) with htx | htx
  · have hlen : (fillPkt mem s p).pkt.pktLen = sizeofNetcclPkt := by
      rw [fillPkt, if_pos htx]
    rw [packetOf, if_pos hlen, word_payloadOf, netWord_fillPkt htx hwhole v.isLt]
  · have hlen : (fillPkt mem s p).pkt.pktLen = sizeofHeaders := by
      rw [fillPkt, htx]
      rfl
    rw [packetOf, hlen, if_neg (by decide), word_zero, sentWord, htx]
    rfl

/-- A packet is built from what the memory has at that moment. -/
theorem sendOne_fills {w w' : Worker} {events : List Event} {p : PktState}
    (h : w.step .sendOne = some (w', events)) (hp : p ∈ built events) :
    ∃ p₀, p = fillPkt w.mem (w.subOp p.subOp) p₀ := by
  have hbuild : ∀ (w₀ : Worker) (position ptr : ℕ), w₀.mem = w.mem → w₀.heap = w.heap →
      ∀ p ∈ built (w₀.buildPkt position ptr).2, ∃ p₀, p = fillPkt w.mem (w.subOp p.subOp) p₀ := by
    intro w₀ position ptr hmem hheap p hp
    obtain rfl := List.mem_singleton.mp hp
    have hsub : (w₀.nextPkt position ptr).subOp = ptr := by
      unfold Worker.nextPkt
      exact congrArg Cut.subOp (fillPkt_cut _ _ _).1
    rw [hsub, ← hmem, ← Worker.subOp_congr hheap]
    exact ⟨_, rfl⟩
  have hnext : (∃ events, w.nextSubOp = (none, events) ∧ built events = []) ∨
      ∃ ptr, w.nextSubOp = (some (w.turnTo ptr), [.deref ptr, .took ptr]) := by
    unfold Worker.nextSubOp
    cases w.qp.frontReq with
    | none => exact Or.inl ⟨_, rfl, rfl⟩
    | some ptr =>
      dsimp only
      split
      · exact Or.inl ⟨_, rfl, rfl⟩
      · exact Or.inr ⟨ptr, rfl⟩
  have hgen : ∀ position, ∀ p ∈ built (w.genPkt position).2.2,
      ∃ p₀, p = fillPkt w.mem (w.subOp p.subOp) p₀ := by
    intro position p hp
    unfold Worker.genPkt at hp
    split at hp
    · exact hbuild w position _ rfl rfl p hp
    · rcases hnext with ⟨events, hnone, hquiet⟩ | ⟨ptr, hsome⟩
      · rw [hnone] at hp
        dsimp only at hp
        rw [hquiet] at hp
        exact absurd hp List.not_mem_nil
      · have htook : built [Event.deref ptr, .took ptr] = [] := rfl
        rw [hsome] at hp
        dsimp only at hp
        rw [built_append, htook, List.nil_append] at hp
        exact hbuild (w.turnTo ptr) position _ rfl rfl p hp
  simp only [Worker.step] at h
  split at h
  · rename_i toSend winLen expectWinLen hpc
    obtain rfl : (w.sendOne toSend winLen expectWinLen).2 = events :=
      congrArg Prod.snd (Option.some.inj h)
    unfold Worker.sendOne at hp
    split at hp
    · have hg := hgen toSend
      split at hp
      · rename_i w₁ events hg'
        rw [hg'] at hg
        exact hg p hp
      · rename_i w₁ events hg'
        rw [hg'] at hg
        rw [built_append] at hp
        exact hg p ((List.mem_append.mp hp).resolve_right List.not_mem_nil)
    · exact absurd hp List.not_mem_nil
  · cases h

/-! ## 4. Steps -/

theorem Buffers.init (h : r.Init ctx) : Buffers given r := by
  obtain ⟨⟨mem, pkt, hw⟩, hlog⟩ := h
  have hheap : r.worker.heap.length = 0 := by rw [hw]; rfl
  have hnone : ∀ ptr, ¬ r.Owns ptr := fun ptr hptr => by
    have := hptr.1
    omega
  refine ⟨fun ptr hptr => absurd hptr (by omega), fun ptr _ hptr => absurd hptr (hnone ptr),
    fun p hp => ?_, fun ptr hptr => absurd hptr (hnone ptr), fun x hx => ?_⟩
  · rw [hlog] at hp
    exact absurd hp List.not_mem_nil
  · rw [hlog] at hx
    exact absurd hx List.not_mem_nil

/-- A packet is in the buffer of its sub-op, and of whole words if these are to be added. -/
theorem Backend.Inv.span_has (h : Inv ctx r k sent popped acc) {p : PktState}
    (hp : p ∈ built r.log) {addr : ℕ} (haddr : p.span.Has addr) :
    (subOpSpan (r.worker.subOp p.subOp)).Has addr :=
  h.cursor.built_range hp haddr.1 haddr.2

theorem Backend.Inv.size_dvd (h : Inv ctx r k sent popped acc) {p : PktState}
    (hp : p ∈ built r.log) (hwhole : 4 ∣ (r.worker.subOp p.subOp).size) : 4 ∣ p.size := by
  have hmem : p.cut ∈ (cuts ctx r.worker.heap).filter fun c => c.subOp = p.subOp :=
    List.mem_filter.mpr ⟨h.cursor.built_cuts.subset (List.mem_map_of_mem hp), decide_eq_true rfl⟩
  rw [cuts_filter (h.cursor.header p hp).2.1] at hmem
  obtain ⟨j, -, hcut⟩ := mem_cutSubOp hmem
  have hsize : p.size = min payloadSize ((r.worker.subOp p.subOp).size - j * payloadSize) :=
    congrArg Cut.size hcut
  have hpayload : payloadSize = 256 := rfl
  rw [hpayload] at hsize
  omega

/-- What is accepted was built. -/
theorem Backend.Inv.accepted_built (h : Inv ctx r k sent popped acc) {x : PktState × Frame}
    (hx : x ∈ accepted r.log) : ∃ p ∈ built r.log, x.1 = { p with acked := true } := by
  obtain ⟨j, -, p, hp, heq, -⟩ := forall₂_exists h.window.accepted hx
  exact ⟨p, List.mem_of_getElem? hp, heq⟩

theorem Backend.Inv.accepted_has (h : Inv ctx r k sent popped acc) {x : PktState × Frame}
    (hx : x ∈ accepted r.log) {addr : ℕ} (haddr : x.1.span.Has addr) :
    (subOpSpan (r.worker.subOp x.1.subOp)).Has addr := by
  obtain ⟨p, hp, heq⟩ := h.accepted_built hx
  rw [heq] at haddr ⊢
  exact h.span_has hp haddr

/-- What happens elsewhere. -/
theorem Buffers.same (h : Buffers given r) (hinv : Inv ctx r k sent popped acc)
    (hheap : r'.worker.heap = r.worker.heap) (howns : ∀ ptr, r'.Owns ptr → r.Owns ptr)
    (hbuilt : built r'.log = built r.log) (hacc : accepted r'.log = accepted r.log)
    (hmem : ∀ ptr, r'.Owns ptr → ∀ addr, (subOpSpan (r.worker.subOp ptr)).Has addr →
      r'.worker.mem addr = r.worker.mem addr) : Buffers given r' := by
  have hsub := Worker.subOp_congr hheap
  refine ⟨?_, fun ptr ptr' hptr hptr' hne => ?_, ?_, fun ptr hptr o ho hnot => ?_,
    fun x hx hptr hrx j hj => ?_⟩
  · rw [hheap]
    simp only [hsub]
    exact h.whole
  · rw [hsub, hsub]
    exact h.apart ptr ptr' (howns _ hptr) (howns _ hptr') hne
  · rw [hbuilt]
    simp only [hsub]
    exact h.sent
  · rw [hsub] at ho hnot ⊢
    rw [hacc] at hnot
    rw [hmem ptr hptr _ (subOpSpan_has ho)]
    exact h.before ptr (howns _ hptr) o ho hnot
  · rw [hacc] at hx
    rw [hsub] at hrx ⊢
    rw [hmem _ hptr _ (hinv.accepted_has hx (PktState.has_span hj))]
    exact h.after x hx (howns _ hptr) hrx j hj

/-- **A sub-op is queued.** -/
theorem Buffers.post (h : Buffers given r) (hinv : Inv ctx r k sent popped acc) {t : SubOp}
    (hok : Undisturbed given r (.pushReq t)) (hlog : r'.log = r.log)
    (hw : r'.worker = { r.worker with
      qp := { r.worker.qp with
        wq := r.worker.qp.wq ++ [r.worker.heap.length], numInQueue := r.worker.qp.numInQueue + 1 }
      heap := r.worker.heap ++ [t] }) : Buffers given r' := by
  obtain ⟨hgiven, hwhole, hapart⟩ := hok.post t rfl
  have hheap : r'.worker.heap = r.worker.heap ++ [t] := by rw [hw]
  have hlen : r'.worker.heap.length = r.worker.heap.length + 1 := by
    rw [hheap, List.length_append, List.length_singleton]
  have hnum : r'.worker.qp.numInQueue = r.worker.qp.numInQueue + 1 := by rw [hw]
  have hmem : r'.worker.mem = r.worker.mem := by rw [hw]
  have hold : ∀ ptr < r.worker.heap.length, r'.worker.subOp ptr = r.worker.subOp ptr :=
    fun ptr hptr => Worker.subOp_of_append hheap hptr
  have hnew : r'.worker.subOp r.worker.heap.length = t := by
    rw [Worker.subOp_eq (by omega)]
    simp [hheap]
  have hcases : ∀ ptr, r'.Owns ptr → r.Owns ptr ∨ ptr = r.worker.heap.length := by
    rintro ptr ⟨hlt, hle⟩
    rcases Nat.lt_or_ge ptr r.worker.heap.length with hlt' | hge
    · exact Or.inl ⟨hlt', by omega⟩
    · exact Or.inr (by omega)
  have hbuilt : ∀ p ∈ built r.log, p.subOp < r.worker.heap.length := fun p hp =>
    (hinv.cursor.header p hp).2.1
  have hacc : ∀ x ∈ accepted r.log, x.1.subOp < r.worker.heap.length := by
    intro x hx
    obtain ⟨p, hp, heq⟩ := hinv.accepted_built hx
    rw [heq]
    exact hbuilt p hp
  refine ⟨fun ptr hptr => ?_, fun ptr ptr' hptr hptr' hne => ?_, fun p hp v => ?_,
    fun ptr hptr o ho hnot => ?_, fun x hx hptr hrx j hj => ?_⟩
  · rcases Nat.lt_or_ge ptr r.worker.heap.length with hlt | hge
    · rw [hold ptr hlt]
      exact h.whole ptr hlt
    · obtain rfl : ptr = r.worker.heap.length := by omega
      rw [hnew]
      exact hwhole
  · rcases hcases ptr hptr with hown | rfl
    · rcases hcases ptr' hptr' with hown' | rfl
      · rw [hold _ hown.1, hold _ hown'.1]
        exact h.apart ptr ptr' hown hown' hne
      · rw [hold _ hown.1, hnew]
        exact hapart ptr hown
    · rcases hcases ptr' hptr' with hown' | rfl
      · rw [hold _ hown'.1, hnew]
        exact (hapart ptr' hown').symm
      · exact absurd rfl hne
  · rw [hlog] at hp
    rw [hold _ (hbuilt p hp)]
    exact h.sent p hp v
  · rw [hlog] at hnot
    rw [hmem]
    rcases hcases ptr hptr with hown | rfl
    · rw [hold _ hown.1] at ho hnot ⊢
      exact h.before ptr hown o ho hnot
    · rw [hnew] at ho ⊢
      exact hgiven o ho
  · rw [hlog] at hx
    rw [hold _ (hacc x hx)] at hrx ⊢
    rw [hmem]
    refine h.after x hx ?_ hrx j hj
    exact (hcases _ hptr).resolve_right (Nat.ne_of_lt (hacc x hx))

/-- What a response leaves in the block of its packet. -/
theorem copyPayload_kept {w : Worker} {p : PktState} (f : Frame)
    (hrx : needRx (w.subOp p.subOp).op = true)
    (hwhole : (w.subOp p.subOp).op.reduces = true → 4 ∣ p.size) {j : ℕ} (hj : j < p.size) :
    (w.copyPayload p f).1.mem (p.data + j) =
      keptBytes (w.subOp p.subOp).op f.payload p.size j := by
  rw [copyPayload_block f hrx, keptBytes]
  split
  · have hdvd := hwhole ‹_›
    have hlt : j < p.size / 4 * 4 := by omega
    rw [memcpyBe32, memcpyBe32, if_pos hlt, if_pos hlt]
  · rw [memcpy, if_pos hj]

/-- **A response is accepted.** -/
theorem Buffers.accept (h : Buffers given r) (hinv : Inv ctx r k sent popped acc)
    {ctx' : BitVec 8 → BitVec 32} {k' sent' popped' : ℕ} {acc' : List ℕ}
    (hinv' : Inv ctx' r' k' sent' popped' acc')
    {x : PktState × Frame} (hheap : r'.worker.heap = r.worker.heap)
    (hnum : r'.worker.qp = r.worker.qp)
    (hmem : r'.worker.mem = (r.worker.copyPayload x.1 x.2).1.mem)
    (hbuilt : built r'.log = built r.log) (hacc : accepted r'.log = accepted r.log ++ [x])
    (hown : r.Owns x.1.subOp) : Buffers given r' := by
  have hsub := Worker.subOp_congr hheap
  have howns : ∀ ptr, r'.Owns ptr → r.Owns ptr := by
    intro ptr hptr
    rw [Run.Owns, hheap, hnum] at hptr
    exact hptr
  have hmem_x : x ∈ accepted r'.log := by
    rw [hacc]
    exact List.mem_append_right _ List.mem_cons_self
  have hhas : ∀ addr, x.1.span.Has addr → (subOpSpan (r.worker.subOp x.1.subOp)).Has addr := by
    intro addr haddr
    have hin := hinv'.accepted_has hmem_x haddr
    rwa [hsub] at hin
  have hother : ∀ addr, ¬ x.1.span.Has addr → r'.worker.mem addr = r.worker.mem addr := by
    intro addr hnot
    rw [hmem]
    by_contra hne
    exact hnot (copyPayload_mem hne)
  have hapart : ∀ y ∈ accepted r.log, y.1.subOp = x.1.subOp → y.1.span.Disjoint x.1.span := by
    have hpair := hinv'.accepted_apart
    rw [hacc, List.pairwise_append] at hpair
    exact fun y hy => hpair.2.2 y hy x List.mem_cons_self
  refine ⟨?_, fun ptr ptr' hptr hptr' hne => ?_, ?_, fun ptr hptr o ho hnot => ?_,
    fun y hy hptr hrx j hj => ?_⟩
  · rw [hheap]
    simp only [hsub]
    exact h.whole
  · rw [hsub, hsub]
    exact h.apart ptr ptr' (howns _ hptr) (howns _ hptr') hne
  · rw [hbuilt]
    simp only [hsub]
    exact h.sent
  · rw [hsub] at ho hnot ⊢
    have hkeep : r'.worker.mem ((r.worker.subOp ptr).data + o) =
        r.worker.mem ((r.worker.subOp ptr).data + o) := by
      by_cases hptr_x : x.1.subOp = ptr
      · by_cases hrx : needRx (r.worker.subOp ptr).op = true
        · exact hother _ (hnot hrx x hmem_x hptr_x)
        · -- nothing is written for this op
          rw [hmem, Worker.copyPayload, hptr_x, if_neg hrx]
      · refine hother _ fun hin => ?_
        exact h.apart _ _ hown (howns _ hptr) hptr_x _ (hhas _ hin) (subOpSpan_has ho)
    rw [hkeep]
    refine h.before ptr (howns _ hptr) o ho fun hrx y hy => ?_
    exact hnot hrx y (by rw [hacc]; exact List.mem_append_left _ hy)
  · rw [hsub] at hrx ⊢
    rw [hacc] at hy
    rcases List.mem_append.mp hy with hy | hy
    · rw [hother _ fun hin => ?_]
      · exact h.after y hy (howns _ hptr) hrx j hj
      · by_cases hsame : y.1.subOp = x.1.subOp
        · exact hapart y hy hsame _ (PktState.has_span hj) hin
        · exact h.apart _ _ (howns _ hptr) hown hsame _
            (hinv.accepted_has hy (PktState.has_span hj)) (hhas _ hin)
    · obtain rfl := List.mem_singleton.mp hy
      rw [hmem]
      refine copyPayload_kept y.2 hrx (fun hred => ?_) hj
      obtain ⟨p, hp, heq⟩ := hinv'.accepted_built hmem_x
      have hdvd := hinv'.size_dvd hp
      rw [hsub] at hdvd
      rw [heq] at hred hown ⊢
      exact hdvd (h.whole _ hown.1 hred)

/-- **A packet is built.** -/
theorem Buffers.build (h : Buffers given r) (hinv : Inv ctx r k sent popped acc)
    {ctx' : BitVec 8 → BitVec 32} {k' sent' popped' : ℕ} {acc' : List ℕ}
    (hinv' : Inv ctx' r' k' sent' popped' acc')
    {p p₀ : PktState} (hheap : r'.worker.heap = r.worker.heap)
    (hnum : r'.worker.qp.numInQueue = r.worker.qp.numInQueue)
    (hmem : r'.worker.mem = r.worker.mem) (hbuilt : built r'.log = built r.log ++ [p])
    (hacc : accepted r'.log = accepted r.log)
    (hp : p = fillPkt r.worker.mem (r.worker.subOp p.subOp) p₀) (hown : r.Owns p.subOp) :
    Buffers given r' := by
  have hsub := Worker.subOp_congr hheap
  have howns : ∀ ptr, r'.Owns ptr → r.Owns ptr := by
    intro ptr hptr
    rw [Run.Owns, hheap, hnum] at hptr
    exact hptr
  have hp_mem : p ∈ built r'.log := by
    rw [hbuilt]
    exact List.mem_append_right _ List.mem_cons_self
  have hlast : (built r'.log)[(built r.log).length]? = some p := by
    rw [hbuilt, List.getElem?_concat_length]
  refine ⟨?_, fun ptr ptr' hptr hptr' hne => ?_, fun q hq v => ?_, fun ptr hptr o ho hnot => ?_,
    fun x hx hptr hrx j hj => ?_⟩
  · rw [hheap]
    simp only [hsub]
    exact h.whole
  · rw [hsub, hsub]
    exact h.apart ptr ptr' (howns _ hptr) (howns _ hptr') hne
  · rw [hbuilt] at hq
    rw [hsub]
    rcases List.mem_append.mp hq with hq | hq
    · exact h.sent q hq v
    · obtain rfl := List.mem_singleton.mp hq
      obtain ⟨hcut, -, -⟩ := fillPkt_cut r.worker.mem (r.worker.subOp q.subOp) p₀
      rw [← hp] at hcut
      have hdata : q.data = p₀.data := congrArg Cut.data hcut
      have hsize : q.size = p₀.size := congrArg Cut.size hcut
      have hwhole : (r.worker.subOp q.subOp).op.reduces = true → 4 ∣ p₀.size := by
        intro hred
        have hdvd := hinv'.size_dvd hp_mem
        rw [hsub, hsize] at hdvd
        exact hdvd (h.whole _ hown.1 hred)
      have hword : word (packetOf q.pkt).payload v =
          sentWord r.worker.mem (r.worker.subOp q.subOp) p₀ v := by
        rw [← word_fillPkt _ hwhole v, ← hp]
      rw [hword]
      refine (sentWord_congr hdata hsize fun j hj => ?_).symm
      rw [← hsize] at hj
      rw [← hdata]
      -- the byte is as it was given
      have hin := hinv'.span_has hp_mem (PktState.has_span hj)
      rw [hsub] at hin
      obtain ⟨hle, hlt⟩ := hin
      have hle : (r.worker.subOp q.subOp).data ≤ q.data + j := hle
      have hlt : q.data + j < (r.worker.subOp q.subOp).data + (r.worker.subOp q.subOp).size := hlt
      have hbefore := h.before q.subOp hown (q.data + j - (r.worker.subOp q.subOp).data) (by omega)
      rw [Nat.add_sub_cancel' hle] at hbefore
      refine (hbefore fun _ x hx hxsub => ?_).symm
      obtain ⟨i, -, y, hy, heq, -⟩ := forall₂_exists hinv.window.accepted hx
      have hi := (List.getElem?_eq_some_iff.mp hy).1
      have hy' : (built r'.log)[i]? = some y := by
        rw [hbuilt, List.getElem?_append_left hi, hy]
      rw [heq] at hxsub ⊢
      have hdis : y.span.Disjoint q.span :=
        hinv'.cursor.built_apart hy' hlast (Nat.ne_of_lt hi) hxsub
      exact fun hhas => hdis _ hhas (PktState.has_span hj)
  · rw [hsub] at ho hnot ⊢
    rw [hacc] at hnot
    rw [hmem]
    exact h.before ptr (howns _ hptr) o ho hnot
  · rw [hacc] at hx
    rw [hsub] at hrx ⊢
    rw [hmem]
    exact h.after x hx (howns _ hptr) hrx j hj

/-- **Every step** of a worker whose buffers are left alone. -/
theorem Buffers.step (h : Buffers given r) (hinv : Inv ctx r k sent popped acc)
    {ctx' : BitVec 8 → BitVec 32} {k' sent' popped' : ℕ} {acc' : List ℕ}
    (hinv' : Inv ctx' r' k' sent' popped' acc')
    (hok : Undisturbed given r l) (hstep : r.Step l r') : Buffers given r' := by
  obtain ⟨events, hlog, hcase⟩ := step_cases hinv.cursor hstep
  have hquiet : built events = [] → accepted events = [] →
      built r'.log = built r.log ∧ accepted r'.log = accepted r.log := by
    intro hb ha
    rw [hlog, built_append, accepted_append, hb, ha, List.append_nil, List.append_nil]
    exact ⟨rfl, rfl⟩
  have howns : r'.worker.heap = r.worker.heap → r'.worker.qp.numInQueue ≤ r.worker.qp.numInQueue →
      ∀ ptr, r'.Owns ptr → r.Owns ptr := by
    rintro hheap hnum ptr ⟨hlt, hle⟩
    rw [hheap] at hlt hle
    exact ⟨hlt, by omega⟩
  cases hcase with
  | quiet hs hheap hqp hassert hmem =>
    obtain ⟨hb, ha⟩ := hquiet rfl rfl
    have hown := howns hheap (Nat.le_of_eq (by rw [hqp]))
    refine h.same hinv hheap hown hb ha fun ptr hptr addr haddr => ?_
    by_cases hstore : ∃ a b, l = .store a b
    · obtain ⟨a, b, rfl⟩ := hstore
      have hne : addr ≠ a := by
        rintro rfl
        exact hok.store addr b rfl ptr (hown ptr hptr) haddr
      obtain ⟨events, hw, -⟩ := hstep
      obtain ⟨hw', -⟩ := Prod.mk.inj (Option.some.inj hw)
      rw [← hw']
      exact Function.update_of_ne hne _ _
    · rw [hmem fun a b hl => hstore ⟨a, b, hl⟩]
  | pushReq hroom hw =>
    rw [List.append_nil] at hlog
    exact h.post hinv hok hlog hw
  | popResp hne hw =>
    obtain ⟨hb, ha⟩ := hquiet rfl rfl
    have hheap : r'.worker.heap = r.worker.heap := by rw [hw]
    have hnum : r'.worker.qp.numInQueue ≤ r.worker.qp.numInQueue := by
      rw [hw]
      exact Nat.sub_le _ _
    exact h.same hinv hheap (howns hheap hnum) hb ha fun _ _ _ _ => by rw [hw]
  | @accept f _ hpc hpos hat =>
    obtain ⟨-, ⟨_, _, _, _, hw⟩, hmem, resent, hresent, rfl⟩ := hat
    generalize hx : r.worker.window.ackedAt (r.worker.getPosition f) = p at *
    have hres : ∀ e ∈ resent, ∃ pos f, e = .sent pos f := by
      intro e he
      obtain ⟨i, -, rfl⟩ := hresent e he
      exact ⟨i, _, rfl⟩
    have hstill := ((copyPayload_still r.worker p f).append (still_sent hres))
    have hheap : r'.worker.heap = r.worker.heap := by rw [hw]
    have hqp : r'.worker.qp = r.worker.qp := by rw [hw]
    have hbuilt : built r'.log = built r.log := by
      rw [hlog, ← List.singleton_append, built_append, built_append, hstill.built]
      exact List.append_nil _
    have hacc : accepted r'.log = accepted r.log ++ [(p, f)] := by
      rw [hlog, ← List.singleton_append, accepted_append, accepted_append, hstill.accepted]
      rfl
    have hmem_x : (p, f) ∈ accepted r'.log := by
      rw [hacc]
      exact List.mem_append_right _ List.mem_cons_self
    have hlt : p.subOp < r.worker.heap.length := by
      obtain ⟨y, hy, heq⟩ := hinv'.accepted_built hmem_x
      dsimp only at heq
      rw [heq, ← hheap]
      exact (hinv'.cursor.header y hy).2.1
    have hnot : p.subOp ∉ pushed r.log :=
      (hinv.touches hstep hlog).2 _ List.mem_cons_self p.subOp rfl
    exact h.accept hinv hinv' hheap hqp hmem hbuilt hacc (hinv.owns hlt hnot)
  | endRx =>
    obtain ⟨-, -, hb, hqp, hheap, hmem, -, events', hlog', hdone, -⟩ :=
      hinv.window.endRx hinv.cursor hinv.room hstep
    have ha : accepted r'.log = accepted r.log := by
      have hnone : accepted events' = [] := List.filterMap_eq_nil_iff.mpr fun e he => by
        obtain ⟨_, rfl⟩ | ⟨_, rfl⟩ := hdone e he <;> rfl
      rw [hlog', accepted_append, hnone, List.append_nil]
    exact h.same hinv hheap (howns hheap (Nat.le_of_eq (by rw [hqp]))) hb ha
      fun _ _ _ _ => by rw [hmem]
  | startTx hpc hw =>
    obtain ⟨_, _, _, _, hst, -, -, hev⟩ := startTx_spec r.worker
    rw [hw] at hst hev
    have hres : ∀ e ∈ events, ∃ pos f, e = .sent pos f := by
      intro e he
      obtain ⟨i, -, rfl⟩ := hev e he
      exact ⟨i, _, rfl⟩
    have hsame : r'.worker = _ := hst
    have hheap : r'.worker.heap = r.worker.heap := by rw [hsame]
    obtain ⟨hb, ha⟩ := hquiet (still_sent hres).built (still_sent hres).accepted
    exact h.same hinv hheap (howns hheap (Nat.le_of_eq (by rw [hsame]))) hb ha
      fun _ _ _ _ => by rw [hsame]
  | endTx hpc hw hev =>
    have hstill := still_deref fun e he => ⟨k, (hev e he).1⟩
    obtain ⟨hb, ha⟩ := hquiet hstill.built hstill.accepted
    have hheap : r'.worker.heap = r.worker.heap := by rw [hw]; rfl
    exact h.same hinv hheap (howns hheap (Nat.le_of_eq (by rw [hw]; rfl))) hb ha
      fun _ _ _ _ => by rw [hw]; rfl
  | @sent toSend winLen expectWinLen p pre hpc hlt hs hpre =>
    obtain ⟨events, hw, hlog'⟩ := hstep
    obtain rfl := List.append_cancel_left (hlog'.symm.trans hlog)
    have hpre_still : Still pre := by
      cases hpre with
      | going => exact .nil
      | turned => exact ⟨rfl, rfl, rfl, rfl⟩
    have hbuilt : built (pre ++ [.deref k, .built toSend p, .sent toSend p.pkt]) = [p] := by
      rw [built_append, hpre_still.built]
      rfl
    have hacc : accepted (pre ++ [.deref k, .built toSend p, .sent toSend p.pkt]) = [] := by
      rw [accepted_append, hpre_still.accepted]
      rfl
    obtain ⟨p₀, hp⟩ := sendOne_fills hw (p := p) (by rw [hbuilt]; exact List.mem_cons_self)
    have hlt_k : p.subOp < r.worker.heap.length := by
      have hmem : p ∈ built r'.log := by
        rw [hlog, built_append, hbuilt]
        exact List.mem_append_right _ List.mem_cons_self
      rw [← hs.heap]
      exact (hinv'.cursor.header p hmem).2.1
    have hnot : p.subOp ∉ pushed r.log := by
      rw [hs.subOp]
      exact hinv.current_unanswered
    refine h.build hinv hinv' hs.heap hs.numInQueue hs.mem ?_ ?_ hp (hinv.owns hlt_k hnot)
    · rw [hlog, built_append, hbuilt]
    · rw [hlog, accepted_append, hacc, List.append_nil]

/-! ## 5. An answered sub-op -/

/-- Every packet of an answered sub-op was accepted. -/
theorem Backend.Inv.accepted_block (h : Inv ctx r k sent popped acc) {ptr m : ℕ}
    (hptr : ptr ∈ pushed r.log) (hm : m < pktCount (r.worker.subOp ptr)) :
    ∃ x ∈ accepted r.log, x.1.subOp = ptr ∧
      x.1.data = (r.worker.subOp ptr).data + m * payloadSize ∧
      x.1.size = min payloadSize ((r.worker.subOp ptr).size - m * payloadSize) := by
  have hcut : cutAt ptr (r.worker.subOp ptr) (psnAfter ctx (r.worker.heap.take ptr)
      (r.worker.subOp ptr).op.group.groupId) m ∈ r.worker.cutsOf ctx ptr :=
    List.mem_map_of_mem (List.mem_range.mpr hm)
  obtain ⟨hmem, -⟩ := List.mem_filter.mp ((h.accepted_perm hptr).mem_iff.mpr hcut)
  obtain ⟨x, hx, heq⟩ := List.mem_map.mp hmem
  exact ⟨x, hx, congrArg Cut.subOp heq, congrArg Cut.data heq, congrArg Cut.size heq⟩

/-- ... and otherwise the payloads of the accepted responses. -/
theorem Buffers.block (h : Buffers given r) (hinv : Inv ctx r k sent popped acc) {ptr m : ℕ}
    (hptr : ptr ∈ r.worker.qp.cq) (hm : m < pktCount (r.worker.subOp ptr))
    (hrx : needRx (r.worker.subOp ptr).op = true) :
    ∃ x ∈ accepted r.log, x.1.subOp = ptr ∧
      x.1.data = (r.worker.subOp ptr).data + m * payloadSize ∧
      x.1.size = min payloadSize ((r.worker.subOp ptr).size - m * payloadSize) ∧
      ∀ j < x.1.size, r.worker.mem ((r.worker.subOp ptr).data + m * payloadSize + j) =
        keptBytes (r.worker.subOp ptr).op x.2.payload x.1.size j := by
  obtain ⟨hpushed, hown⟩ := hinv.owns_of_cq hptr
  obtain ⟨x, hx, rfl, hdata, hsize⟩ := hinv.accepted_block hpushed hm
  refine ⟨x, hx, rfl, hdata, hsize, fun j hj => ?_⟩
  rw [← hdata]
  exact h.after x hx hown hrx j hj

end NetCCL
