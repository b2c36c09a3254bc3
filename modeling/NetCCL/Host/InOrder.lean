/-
# The op pipeline loses nothing and keeps the order

Nothing on the way of an op carries its number.  Workers answer by position, the load
balancer takes one answer from the head of every queue for one op's, and `destroy_op` frees
whatever is oldest.  That all of this fits together is a fact about every interleaving of the
threads:

* `Pipeline.Sound` says what it means: no push fails, answers removed together belong to one
  op, ops come back in the order they were posted and after every worker has answered, and at
  every moment each op is in exactly one place on each worker's way;
* `pipeline_inOrder`: every run without an exact fit is sound, and an exact fit is the end of it;
* `exactFit_fails`: one broadcast of `SHM_COPY_BUFFER_SIZE + 1` bytes leads there.
-/
import NetCCL.Frontend.Segmentation
import NetCCL.Host.Handover

namespace NetCCL.Host

open Lib Frontend Backend

/-! ## 1. What the pipeline owes -/

/-- The live slots of the op buffer, oldest first. -/
def OpBuffer.live (b : OpBuffer) : List Entry :=
  (List.range b.cnt).map fun k => b.buffer ((b.head + queueSize - b.cnt + k) % queueSize)

/-- The responses to ops that are not destroyed. -/
def FrontPc.left (cq : List ℕ) : FrontPc → List ℕ
  | .popping _ => cq.tail
  | _ => cq

/-- The op in the daemon's hands, on its way back. -/
def DaemonPc.up : DaemonPc → List ℕ
  | .responding h => [h]
  | _ => []

/-- The slot in its hands, on the way out. -/
def DaemonPc.down : DaemonPc → List ℕ
  | .requesting slot => [slot]
  | _ => []

/-- The slot of the op worker `i`'s answer to which the load balancer has removed. -/
def BalancerPc.up (i : ℕ) : BalancerPc → List ℕ
  | .popping _ parts => (parts[i]?).toList.map Part.op
  | .responding op => [op]
  | _ => []

/-- The slot of the op of which worker `i` has yet to get its part. -/
def BalancerPc.down (i : ℕ) : BalancerPc → List ℕ
  | .dealing slot k _ => if i < k then [] else [slot]
  | _ => []

/-- The `op_with_fut_t*` in a slot. -/
def Pipeline.handle (s : Pipeline) (slot : ℕ) : ℕ := (s.opBuffer.buffer slot).opWithFut

/-- All ops on the way over worker `i`, from the exit to the entrance. -/
def Pipeline.path (s : Pipeline) (i : ℕ) : List ℕ :=
  s.front.left s.py.cq ++ s.daemon.up ++
    (s.shm.cq ++ s.balancer.up i ++
      ((s.qp i).cq ++ s.busy i ++ (s.qp i).wq).map Part.op ++
      s.balancer.down i ++ s.shm.wq ++ s.daemon.down).map s.handle ++ s.py.wq

/-- **The pipeline neither loses, duplicates, reorders nor overflows.** -/
structure Pipeline.Sound (nworker : ℕ) (s : Pipeline) : Prop where
  /-- no assertion has failed: of a push, of a removal, of an allocation or a free -/
  alive : s.aborted = false
  /-- and no push the load balancer does not check was refused -/
  refused : .refused ∉ s.log
  /-- worker `i` has answered its parts of the first ops, in order -/
  answered : ∀ i < nworker, answeredBy i s.log <+: (posted s.log).mapIdx (partOf nworker i)
  /-- answers removed together are the parts of one op -/
  together : gatherings s.log <+:
    (posted s.log).mapIdx fun h op => (List.range nworker).map fun i => partOf nworker i h op
  /-- ops come back in the order they were posted, each once -/
  inOrder : received s.log = List.range (received s.log).length
  /-- and only after every worker has answered -/
  after : ∀ i < nworker, (received s.log).length ≤ (answeredBy i s.log).length
  /-- the others are on their way, in order, each in one place -/
  path : ∀ i < nworker, s.path i =
    List.range' (received s.log).length ((posted s.log).length - (received s.log).length)
  /-- they are what is live in the op buffer, oldest first -/
  slots : s.opBuffer.live = ((posted s.log).drop (received s.log).length).mapIdx
    fun k op => ⟨op, (received s.log).length + k⟩
  /-- and what the copy buffer's cursors enclose -/
  blocks : Ring.Sound ⟨s.copyBuffer, ((posted s.log).drop (received s.log).length).map opSpan⟩

/-! ## 2. The invariant gives all of it -/

variable {nworker w u r b m : ℕ} {s s' : Pipeline}

theorem Inv.received_length (h : Inv nworker s w u r b m) :
    (Host.received s.log).length = s.front.destroyed w := by
  rw [h.received, List.length_range]

/-- What the Python thread has before it. -/
theorem Inv.left (h : Inv nworker s w u r b m) :
    s.front.left s.py.cq = stretch id (s.front.destroyed w) u := by
  cases s.front with
  | popping want => exact (congrArg List.tail h.py.cq).trans (stretch_tail id w u)
  | idle => exact h.py.cq
  | receiving want => exact h.py.cq
  | posting op => exact h.py.cq

theorem Inv.daemon_up (h : Inv nworker s w u r b m) :
    s.daemon.up = stretch id u (s.daemon.removed u) := by
  have hholds := h.daemon
  cases hpc : s.daemon with
  | responding k =>
    rw [hpc] at hholds
    simp only [DaemonPc.up, DaemonPc.removed]
    rw [stretch_cons _ (Nat.lt_succ_self u), stretch_self]
    exact congrArg (fun x => [x]) hholds
  | complete => exact (stretch_self id u).symm
  | post => exact (stretch_self id u).symm
  | requesting slot => exact (stretch_self id u).symm

theorem Inv.daemon_down (h : Inv nworker s w u r b m) :
    s.daemon.down = stretch slotOf m (s.daemon.taken m) := by
  have hholds := h.daemon
  cases hpc : s.daemon with
  | requesting slot =>
    rw [hpc] at hholds
    simp only [DaemonPc.down, DaemonPc.taken]
    rw [stretch_cons _ (Nat.lt_succ_self m), stretch_self]
    exact congrArg (fun x => [x]) hholds
  | complete => exact (stretch_self slotOf m).symm
  | post => exact (stretch_self slotOf m).symm
  | responding k => exact (stretch_self slotOf m).symm

theorem Inv.balancer_up (h : Inv nworker s w u r b m) (i : ℕ) :
    s.balancer.up i = stretch slotOf r (s.balancer.removed r i) := by
  have hholds := h.balancer
  cases hpc : s.balancer with
  | popping k parts =>
    rw [hpc] at hholds
    simp only [BalancerPc.up, BalancerPc.removed, hholds.2.1, List.getElem?_map]
    rcases Nat.lt_or_ge i k with hik | hik
    · rw [List.getElem?_range hik, if_pos hik, stretch_cons _ (Nat.lt_succ_self r), stretch_self]
      rfl
    · rw [List.getElem?_eq_none (by rwa [List.length_range]), if_neg (by omega), stretch_self]
      rfl
  | responding op =>
    rw [hpc] at hholds
    simp only [BalancerPc.up, BalancerPc.removed]
    rw [stretch_cons _ (Nat.lt_succ_self r), stretch_self]
    exact congrArg (fun x => [x]) hholds
  | checking k => exact (stretch_self slotOf r).symm
  | post => exact (stretch_self slotOf r).symm
  | dealing slot k offset => exact (stretch_self slotOf r).symm

theorem Inv.balancer_down (h : Inv nworker s w u r b m) (i : ℕ) :
    s.balancer.down i = stretch slotOf (s.balancer.dealt b i) (s.balancer.taken b) := by
  have hholds := h.balancer
  cases hpc : s.balancer with
  | dealing slot k offset =>
    rw [hpc] at hholds
    simp only [BalancerPc.down, BalancerPc.dealt, BalancerPc.taken]
    split
    · exact (stretch_self slotOf (b + 1)).symm
    · rw [stretch_cons _ (Nat.lt_succ_self b), stretch_self]
      exact congrArg (fun x => [x]) hholds.2.1
  | checking k => exact (stretch_self slotOf b).symm
  | popping k parts => exact (stretch_self slotOf b).symm
  | responding op => exact (stretch_self slotOf b).symm
  | post => exact (stretch_self slotOf b).symm

/-- The parts with a worker and in its queues, by their ops. -/
theorem Lane.slots {ops : List Op} {i g d : ℕ} {qp : QueuePair Part} {busy answered : List Part}
    (h : Lane ops nworker i qp busy answered g d) :
    (qp.cq ++ busy ++ qp.wq).map Part.op = stretch slotOf g d := by
  obtain ⟨c, t, hat, hbusy, -⟩ := h
  rw [hat.cq, hbusy, hat.wq, stretch_append _ hat.resp hat.held,
    stretch_append _ (Nat.le_trans hat.resp hat.held) hat.req, stretch_map]
  rfl

/-- **Each live op is in exactly one place on the way over worker `i`.** -/
theorem Inv.path (h : Inv nworker s w u r b m) {i : ℕ} (hi : i < nworker) :
    s.path i = stretch id (s.front.destroyed w) (posted s.log).length := by
  obtain ⟨hwu, -, -, -⟩ := h.nested
  have hlane := h.lanes i hi
  have hqr := h.shm.resp
  have hrg := s.balancer.le_removed r i
  have hgd := hlane.le
  have hdl := s.balancer.dealt_le b i
  have hlm := h.shm.req
  have hme := s.daemon.le_taken m
  have huq := s.daemon.le_removed u
  have hrest := h.py.req
  have hslots : s.shm.cq ++ s.balancer.up i ++
      ((s.qp i).cq ++ s.busy i ++ (s.qp i).wq).map Part.op ++
      s.balancer.down i ++ s.shm.wq ++ s.daemon.down =
        stretch slotOf (s.daemon.removed u) (s.daemon.taken m) := by
    rw [h.shm.cq, h.balancer_up, hlane.slots, h.balancer_down, h.shm.wq, h.daemon_down,
      stretch_append _ hqr hrg, stretch_append _ (by omega) hgd, stretch_append _ (by omega) hdl,
      stretch_append _ (by omega) hlm, stretch_append _ (by omega) hme]
  have hhandles : (stretch slotOf (s.daemon.removed u) (s.daemon.taken m)).map s.handle =
      stretch id (s.daemon.removed u) (s.daemon.taken m) := by
    rw [stretch_map]
    refine stretch_congr fun k hk hk' => ?_
    rw [Function.comp_apply, Pipeline.handle, (h.entry (by omega) (by omega)).1]
    rfl
  rw [Pipeline.path, hslots, hhandles, h.left, h.daemon_up, h.py.wq, stretch_append _ hwu huq,
    stretch_append _ (by omega) (by omega), stretch_append _ (by omega) hrest]

/-- **The op buffer's live slots** are the live ops. -/
theorem Memory.live {ops : List Op} {opBuffer : OpBuffer} {copyBuffer : CopyBuffer} {news v : ℕ}
    {futs : ℕ → OpWithFut} (h : Memory ops opBuffer copyBuffer news futs v)
    (hroom : ops.length ≤ v + queueSize) :
    opBuffer.live = (ops.drop v).mapIdx fun k op => ⟨op, v + k⟩ := by
  have hcnt := h.cnt
  refine List.ext_getElem? fun k => ?_
  rw [OpBuffer.live, List.getElem?_map, List.getElem?_mapIdx, List.getElem?_drop]
  rcases Nat.lt_or_ge k opBuffer.cnt with hk | hk
  · have hlt : v + k < ops.length := by omega
    have hget := List.getElem?_eq_getElem hlt
    have hslot : (opBuffer.head + queueSize - opBuffer.cnt + k) % queueSize = slotOf (v + k) := by
      rw [h.head]
      simp only [slotOf, queueSize] at *
      omega
    rw [List.getElem?_range hk, hget, Option.map_some, Option.map_some, hslot,
      (h.entry _ _ (Nat.le_add_right v k) hget).1]
  · rw [List.getElem?_eq_none (by rwa [List.length_range]), List.getElem?_eq_none (by omega)]
    rfl

theorem FrontPc.le_destroyed (pc : FrontPc) (w : ℕ) : w ≤ pc.destroyed w := by
  cases pc <;> simp [FrontPc.destroyed]

/-- **The invariant gives everything the pipeline owes.** -/
theorem Inv.sound (hn : 1 ≤ nworker) (h : Inv nworker s w u r b m) : s.Sound nworker := by
  obtain ⟨hwu, hur, hrm, hmS⟩ := h.nested
  have hv := h.received_length
  have hremoved : ∀ i < nworker, s.balancer.removed r i ≤ (posted s.log).length := fun i hi =>
    Nat.le_trans (h.lanes i hi).le (Nat.le_trans (s.balancer.dealt_le b i)
      (Nat.le_trans h.shm.req hmS))
  constructor
  case alive => exact h.alive
  case refused => exact h.refused
  case answered =>
    intro i hi
    obtain ⟨c, t, hat, -, hanswered⟩ := h.lanes i hi
    have hc : c ≤ (posted s.log).length := by
      have := hat.held
      have := hat.req
      have := s.balancer.dealt_le b i
      have := h.shm.req
      omega
    have htake : stretch (partSeq (posted s.log) nworker i) 0 c = _ :=
      stretch_getD (posted s.log) (partOf nworker i) default hc
    rw [hanswered, htake]
    exact List.take_prefix _ _
  case together =>
    have htake : stretch (partsSeq (posted s.log) nworker) 0 (s.balancer.gathered r) = _ :=
      stretch_getD (posted s.log)
        (fun h op => (List.range nworker).map fun i => partOf nworker i h op) default
        (Nat.le_trans (s.balancer.gathered_le r 0) (hremoved 0 hn))
    rw [h.gathered, htake]
    exact List.take_prefix _ _
  case inOrder => rw [hv]; exact h.received
  case after =>
    intro i hi
    obtain ⟨c, t, hat, -, hanswered⟩ := h.lanes i hi
    rw [hv, hanswered, stretch_length]
    have := s.balancer.le_removed r i
    have := hat.resp
    omega
  case path =>
    intro i hi
    rw [hv, h.path hi, stretch, List.map_id]
  case slots =>
    rw [hv]
    refine h.memory.live ?_
    have := h.py.room
    have := s.front.le_destroyed w
    omega
  case blocks =>
    rw [hv]
    exact h.memory.ring.sound

/-! ## 3. Every run -/

/-- **An exact fit is the end of it**: an assertion of `fifo_free` fails, or the cursors leave
out a live block. -/
theorem Inv.exactFit (h : Inv nworker s w u r b m) {a : Action} (hfit : s.ExactFit a)
    (hs : s.Step nworker a s') : ¬ s'.Sound nworker := by
  intro hsound
  cases a with
  | front =>
    obtain ⟨want, k, hpc, hfront, hend⟩ := hfit
    obtain ⟨hwu, hk⟩ := h.py.frontResp hfront
    obtain ⟨-, hur, hrm, hmS⟩ := h.nested
    have hmem := h.memory
    have hreceived := h.received
    rw [hpc] at hmem hreceived
    have hlt : w < (posted s.log).length := by omega
    obtain ⟨hbuffer, hslot⟩ := hmem.entry w _ (Nat.le_refl w) (List.getElem?_eq_getElem hlt)
    have hop : s.opOf k = (posted s.log)[w] := by rw [hk, Pipeline.opOf, id, hslot, hbuffer]
    have hring : Ring.Inv ⟨s.copyBuffer, ((posted s.log).drop w).map opSpan⟩ := hmem.ring
    rw [List.drop_eq_getElem_cons hlt, List.map_cons] at hring
    simp only [Pipeline.Step, Pipeline.step, h.alive, Bool.false_eq_true, if_false,
      Pipeline.frontStep, hpc, hfront, Option.some.injEq] at hs
    cases hfree : s.copyBuffer.fifoFree (s.opOf k).size with
    | none =>
      -- the assertion of `fifo_free`
      simp only [Pipeline.destroyOp, hfree, bind, Option.bind, Option.map_none,
        Pipeline.orAbort] at hs
      have halive := hsound.alive
      rw [← hs] at halive
      exact absurd halive (by simp [Pipeline.abort])
    | some copyBuffer =>
      have hcnt : s.opBuffer.cnt ≠ 0 := by
        have : s.opBuffer.cnt + w = (posted s.log).length := hmem.cnt
        omega
      simp only [Pipeline.destroyOp, hfree, OpBuffer.fifoFree, if_neg hcnt, bind, Option.bind,
        pure, Option.map_some, Pipeline.orAbort] at hs
      have hblocks := hsound.blocks
      have hposted : posted (s.log ++ [.received k]) = posted s.log := by simp [posted]
      have hlen : (Host.received (s.log ++ [.received k])).length = w + 1 := by
        rw [received_append, hreceived]
        simp [Host.received, FrontPc.destroyed]
      simp only [← hs, hposted, hlen] at hblocks
      refine hring.free_exactFit ⟨_, rfl, by rw [hop] at hend; exact hend⟩ ?_ hblocks
      rw [hop] at hfree
      simp only [Ring.call, opSpan, hfree, Option.map_some]
  | _ => exact hfit

/-- **The op pipeline neither loses, duplicates, reorders nor overflows**, in every run in
which no block that ends at the last byte of the copy buffer is freed; and the first time one
is, the pipeline is not sound any more. -/
theorem pipeline_inOrder (hn : 1 ≤ nworker)
    (h : Reach Pipeline.Init (Pipeline.Step nworker) (fun s a => ¬ s.ExactFit a) s) :
    s.Sound nworker ∧ ∀ a s', s.Step nworker a s' → (s'.Sound nworker ↔ ¬ s.ExactFit a) := by
  obtain ⟨w, u, r, b, m, hinv⟩ := inv_reach hn h
  refine ⟨hinv.sound hn, fun a s' hs => ⟨fun hsound hfit => ?_, fun hfit => ?_⟩⟩
  · exact hinv.exactFit hfit hs hsound
  · obtain ⟨_, _, _, _, _, hinv'⟩ := hinv.step hn hfit hs
    exact hinv'.sound hn

/-! ## 4. Concrete runs -/

instance (s : Pipeline) : ∀ a : Action, Decidable (s.ExactFit a)
  | .front =>
    match hpc : s.front, hresp : s.py.frontResp with
    | .receiving _, some h =>
      decidable_of_iff (s.copyBuffer.tail + (s.opOf h).size = shmCopyBufferSize + 1)
        (by simp [Pipeline.ExactFit, hpc, hresp])
    | .receiving _, none => isFalse (by simp [Pipeline.ExactFit, hresp])
    | .idle, _ => isFalse (by simp [Pipeline.ExactFit, hpc])
    | .popping _, _ => isFalse (by simp [Pipeline.ExactFit, hpc])
    | .posting _, _ => isFalse (by simp [Pipeline.ExactFit, hpc])
  | .call _ => isFalse id
  | .daemon _ => isFalse id
  | .balancer => isFalse id
  | .take _ => isFalse id
  | .answer _ => isFalse id

/-- Some operations, each allowed by `ok`.  A thread that has nothing to do is passed over. -/
def Pipeline.exec (ok : Pipeline → Action → Bool) (nworker : ℕ) (s : Pipeline) :
    List Action → Option Pipeline
  | [] => some s
  | a :: as =>
    match s.step nworker a with
    | none => s.exec ok nworker as
    | some s' => if ok s a then s'.exec ok nworker as else none

theorem Pipeline.exec_reach {ok : Pipeline → Action → Bool} {P : Pipeline → Action → Prop}
    (hok : ∀ s a, ok s a = true → P s a) (as : List Action) :
    ∀ {s s' : Pipeline}, Reach Pipeline.Init (Pipeline.Step nworker) P s →
      s.exec ok nworker as = some s' → Reach Pipeline.Init (Pipeline.Step nworker) P s' := by
  induction as with
  | nil =>
    intro s s' hreach he
    exact Option.some.inj he ▸ hreach
  | cons a as ih =>
    intro s s' hreach he
    rw [Pipeline.exec] at he
    cases hstep : s.step nworker a with
    | none => rw [hstep] at he; exact ih hreach he
    | some t =>
      rw [hstep] at he
      dsimp only at he
      split at he
      · rename_i hallowed
        exact ih (.step hreach (hok s a hallowed) hstep) he
      · exact absurd he (by simp)

/-- A host before the first op. -/
def Pipeline.start : Pipeline where
  opBuffer := ⟨0, 0, fun _ => ⟨default, 0⟩⟩
  copyBuffer := .empty
  news := 0
  futs := fun _ => ⟨false, 0⟩
  py := .empty
  shm := .empty
  qp := fun _ => .empty
  busy := fun _ => []
  front := .idle
  daemon := .complete
  balancer := .checking 0
  aborted := false
  log := []

theorem Pipeline.init_start : Pipeline.start.Init :=
  ⟨⟨rfl, rfl⟩, rfl, rfl, rfl, rfl, fun _ => rfl, fun _ => rfl, rfl, rfl, rfl, rfl, rfl⟩

/-- The root's part in a broadcast. -/
def broadcastOp (size : ℕ) : Op := ⟨.broadcast, 0, size, 0, ⟨1, 2, 0, 0, 2⟩⟩

/-- Every thread in turn, and worker `i` of the workers. -/
def turns (i k : ℕ) : List Action :=
  (List.replicate k [.front, .daemon true, .balancer, .take i, .answer i]).flatten

/-- Some ops, posted one after the other while worker `i` runs. -/
def postings (i : ℕ) (sizes : List ℕ) : List Action :=
  (sizes.map fun size => .call (some (broadcastOp size)) :: turns i 20).flatten

/-- `post_collective_c`: some segments are posted and then waited for. -/
def collective (sizes : List ℕ) : List Action :=
  postings 0 sizes ++ .call none :: turns 0 20

/-- Two workers: one has answered its parts of three ops before the other takes any, and none of
the ops is back; then the other one runs, and they come back in order. -/
theorem pipeline_inOrder_three : ∃ s s',
    Pipeline.start.exec (fun s a => !decide (s.ExactFit a)) 2 (postings 1 [4, 600, 9]) = some s ∧
    (answeredBy 1 s.log).map Part.op = [0, 1, 2] ∧ received s.log = [] ∧ s.Sound 2 ∧
    s.exec (fun s a => !decide (s.ExactFit a)) 2 (turns 0 40 ++ .call none :: turns 0 20) =
      some s' ∧ received s'.log = [0, 1, 2] ∧ s'.Sound 2 := by
  have hrun : ((Pipeline.start.exec (fun s a => !decide (s.ExactFit a)) 2
      (postings 1 [4, 600, 9])).bind fun s =>
        (s.exec (fun s a => !decide (s.ExactFit a)) 2
          (turns 0 40 ++ .call none :: turns 0 20)).map fun s' =>
            ((answeredBy 1 s.log).map Part.op, received s.log, received s'.log)) =
      some ([0, 1, 2], [], [0, 1, 2]) := by decide +kernel
  obtain ⟨s, hs, hrest⟩ := Option.bind_eq_some_iff.mp hrun
  obtain ⟨s', hs', hview⟩ := Option.map_eq_some_iff.mp hrest
  simp only [Prod.mk.injEq] at hview
  obtain ⟨hanswered, hnone, hall⟩ := hview
  have hreach := Pipeline.exec_reach (P := fun s a => ¬ s.ExactFit a) (by simp) _
    (.init Pipeline.init_start) hs
  have hreach' := Pipeline.exec_reach (P := fun s a => ¬ s.ExactFit a) (by simp) _ hreach hs'
  exact ⟨s, s', hs, hanswered, hnone, (pipeline_inOrder (Nat.le_succ 1) hreach).1, hs', hall,
    (pipeline_inOrder (Nat.le_succ 1) hreach').1⟩

/-- The segments of a collective one byte larger than the copy buffer. -/
theorem postCollective_exactFit :
    (postCollective (shmCopyBufferSize + 1)).map Segment.size =
      List.replicate 4 frontendSegmentSize ++ [1] := by
  simp [postCollective, postCollectiveFrom, shmCopyBufferSize, frontendSegmentSize]

/-- A broadcast of `SHM_COPY_BUFFER_SIZE + 1` bytes: four segments fill the buffer but for its
last byte, the fifth takes that, and its free fails. -/
theorem exactFit_fails : ∃ s, Reach Pipeline.Init (Pipeline.Step 1) Free s ∧
    (posted s.log).map Op.size = (postCollective (shmCopyBufferSize + 1)).map Segment.size ∧
    received s.log = [0, 1, 2, 3] ∧ ¬ s.Sound 1 := by
  rw [postCollective_exactFit]
  have hrun : (Pipeline.start.exec (fun _ _ => true) 1
      (collective (List.replicate 4 frontendSegmentSize ++ [1]))).map
        (fun s => (s.aborted, received s.log, (posted s.log).map Op.size)) =
      some (true, [0, 1, 2, 3], List.replicate 4 frontendSegmentSize ++ [1]) := by decide +kernel
  obtain ⟨s, hs, hend⟩ := Option.map_eq_some_iff.mp hrun
  obtain ⟨haborted, hrest⟩ := Prod.mk.inj hend
  obtain ⟨hreceived, hposted⟩ := Prod.mk.inj hrest
  have hreach := Pipeline.exec_reach (P := Free) (fun _ _ _ => trivial) _
    (.init Pipeline.init_start) hs
  refine ⟨s, hreach, hposted, hreceived, fun hsound => ?_⟩
  rw [hsound.alive] at haborted
  exact absurd haborted (by decide)

end NetCCL.Host
