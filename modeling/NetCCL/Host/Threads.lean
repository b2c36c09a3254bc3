/-
# The threads an op passes through

An op goes through four kinds of threads of a host and back.  The Python thread creates it in
shared memory and queues it for the daemon (`py_qp`); the daemon copies the tensor out of the
device and queues the op for the load balancer (`shm->qp`); the load balancer deals a part of
it to each of the `nworker` workers; the workers answer their parts, the load balancer collects
one answer of every worker and answers the op, the daemon copies the result to the device, and
the Python thread takes the op out and frees its memory.

Each thread runs its loop of the source, and one `Action` is one operation of one thread on a
queue, with the work around it: all else a thread touches is its own, or belongs to an op that
is in no other thread's hands.  The threads interleave in any order, and `cudaEventQuery`
reports what it likes.

A failed assertion ends the run (`aborted`).  The log is not part of the program; it records
what the theorems talk about.
-/
import Mathlib.Logic.Function.Basic
import NetCCL.Backend.LoadBalancer
import NetCCL.Frontend.CopyBuffer

namespace NetCCL.Host

open Frontend Backend

/-! ## 1. Memory -/

/-- `op_t` in the op buffer, with its pointer to the `op_with_fut_t`. -/
structure Entry where
  op : Op
  opWithFut : ℕ
  deriving DecidableEq, Repr

/-- `op_buffer_t`: the next slot, the number of slots taken, and the slots. -/
structure OpBuffer where
  head : ℕ
  cnt : ℕ
  buffer : ℕ → Entry

namespace OpBuffer

/-- `available()`. -/
def available (b : OpBuffer) : ℕ := queueSize - b.cnt

/-- `fifo_allocate()`: the slot, or `none` for `NULL`. -/
def fifoAllocate (b : OpBuffer) : Option (ℕ × OpBuffer) :=
  if b.cnt = queueSize then none
  else
    let head := b.head + 1
    some (b.head, { b with head := if head = queueSize then 0 else head, cnt := b.cnt + 1 })

/-- `fifo_free()`, with `none` for a failed `assert`. -/
def fifoFree (b : OpBuffer) : Option OpBuffer :=
  if b.cnt = 0 then none else some { b with cnt := b.cnt - 1 }

/-- The assignments of `create_op` to the fields of a slot. -/
def write (b : OpBuffer) (slot : ℕ) (e : Entry) : OpBuffer :=
  { b with buffer := Function.update b.buffer slot e }

end OpBuffer

/-- `op_with_fut_t`, as far as it says where the op is; `op` is a slot of the op buffer. -/
structure OpWithFut where
  copying : Bool
  op : ℕ
  deriving DecidableEq, Repr

/-- A `sub_op_t` as a worker is given it; `op` is the slot of its op. -/
structure Part where
  op : ℕ
  subOp : SubOp
  deriving DecidableEq, Repr

/-! ## 2. Where the threads are -/

/-- The Python thread. -/
inductive FrontPc
  /-- outside -/
  | idle
  /-- in the loop of `recv_all_resp`, called for an op to be posted or for its own sake -/
  | receiving (want : Option Op)
  /-- the op is destroyed, its response not yet removed -/
  | popping (want : Option Op)
  /-- `post_sub_collective` has found room -/
  | posting (op : Op)
  deriving DecidableEq, Repr

/-- The daemon. -/
inductive DaemonPc
  /-- at the top of `try_complete_op` -/
  | complete
  /-- between `pop_resp` and `push_resp` -/
  | responding (h : ℕ)
  /-- at the top of `try_post_op` -/
  | post
  /-- between `pop_req` and `push_req` -/
  | requesting (slot : ℕ)
  deriving DecidableEq, Repr

/-- The load balancer. -/
inductive BalancerPc
  /-- in the first loop of `try_complete_op`, at worker `i` -/
  | checking (i : ℕ)
  /-- in its second loop, with the responses removed so far -/
  | popping (i : ℕ) (parts : List Part)
  /-- after it -/
  | responding (op : ℕ)
  /-- at the top of `try_post_op` -/
  | post
  /-- in its loop, at worker `i` -/
  | dealing (slot i offset : ℕ)
  deriving DecidableEq, Repr

/-- What is recorded of a run. -/
inductive Event
  /-- `post_sub_collective` has queued an op -/
  | posted (op : Op)
  /-- a `push_req` whose result is ignored returned false -/
  | refused
  /-- worker `i` has answered a part -/
  | answered (i : ℕ) (part : Part)
  /-- `try_complete_op` has removed a response of every worker -/
  | gathered (parts : List Part)
  /-- `recv_all_resp` has destroyed an op -/
  | received (h : ℕ)
  deriving DecidableEq, Repr

/-- A host.  An `op_with_fut_t*` is the number of the `new` that returned it. -/
structure Pipeline where
  opBuffer : OpBuffer
  copyBuffer : CopyBuffer
  news : ℕ
  futs : ℕ → OpWithFut
  py : QueuePair ℕ
  shm : QueuePair ℕ
  qp : ℕ → QueuePair Part
  /-- what the worker has taken and not answered -/
  busy : ℕ → List Part
  front : FrontPc
  daemon : DaemonPc
  balancer : BalancerPc
  aborted : Bool
  log : List Event

namespace Pipeline

/-- The op an `op_with_fut_t*` stands for. -/
def opOf (s : Pipeline) (h : ℕ) : Op := (s.opBuffer.buffer (s.futs h).op).op

/-- A failed assertion. -/
def abort (s : Pipeline) : Pipeline := { s with aborted := true }

/-- The outcome of a call some assertion of which may have failed. -/
def orAbort (s : Pipeline) : Option Pipeline → Pipeline
  | some t => t
  | none => s.abort

/-! ## 3. The Python thread -/

/-- `create_op`. -/
def createOp (s : Pipeline) (op : Op) : Option Pipeline := do
  let (slot, opBuffer) ← s.opBuffer.fifoAllocate
  let (offset, copyBuffer) ← s.copyBuffer.fifoAllocate op.size
  return { s with
    opBuffer := opBuffer.write slot ⟨{ op with shmBuffer := offset }, s.news⟩
    copyBuffer
    news := s.news + 1
    futs := Function.update s.futs s.news ⟨false, slot⟩ }

/-- `destroy_op`. -/
def destroyOp (s : Pipeline) (h : ℕ) : Option Pipeline := do
  let copyBuffer ← s.copyBuffer.fifoFree (s.opOf h).size
  let opBuffer ← s.opBuffer.fifoFree
  return { s with copyBuffer, opBuffer }

/-- The end of `post_sub_collective`. -/
def postOp (s : Pipeline) (op : Op) : Option Pipeline := do
  let t ← s.createOp op
  let (true, py) ← t.py.pushReq s.news | none
  return { t with py, front := .idle, log := t.log ++ [.posted (t.opOf s.news)] }

/-- `post_sub_collective` and `recv_all_resp`, up to the next operation on the queue. -/
def frontStep (s : Pipeline) : Option Pipeline :=
  match s.front with
  | .idle => none
  | .receiving want =>
    match s.py.frontResp with
    | some h => some <| s.orAbort <| (s.destroyOp h).map fun t =>
        { t with front := .popping want, log := t.log ++ [.received h] }
    | none =>
      match want with
      | none => some { s with front := .idle }
      | some op =>
        if 0 < s.opBuffer.available ∧ op.size ≤ s.copyBuffer.available then
          some { s with front := .posting op }
        else some s
  | .popping want => some { s with py := s.py.popResp, front := .receiving want }
  | .posting op => some (s.orAbort (s.postOp op))

/-! ## 4. The daemon -/

/-- The copy to or from the device, which both functions of the daemon start and then wait
for: whether the op can go on, and the flags. -/
def awaitCopy (futs : ℕ → OpWithFut) (h : ℕ) (need ready : Bool) : Bool × (ℕ → OpWithFut) :=
  if need then
    if (futs h).copying then
      if ready then (true, Function.update futs h { futs h with copying := false })
      else (false, futs)
    else (false, Function.update futs h { futs h with copying := true })
  else (true, futs)

/-- `try_complete_op` and `try_post_op` of the daemon, in turn; `ready` is what
`cudaEventQuery` reports if it is asked. -/
def daemonStep (s : Pipeline) (ready : Bool) : Pipeline :=
  match s.daemon with
  | .complete =>
    match s.shm.frontResp with
    | none => { s with daemon := .post }
    | some slot =>
      let e := s.opBuffer.buffer slot
      let (done, futs) := awaitCopy s.futs e.opWithFut (needRx e.op) ready
      if done then { s with futs, shm := s.shm.popResp, daemon := .responding e.opWithFut }
      else { s with futs, daemon := .post }
  | .responding h => s.orAbort <| (s.py.pushResp h).map fun py => { s with py, daemon := .post }
  | .post =>
    match s.py.frontReq with
    | none => { s with daemon := .complete }
    | some h =>
      let (done, futs) := awaitCopy s.futs h (needTx (s.opOf h)) ready
      if done then { s with futs, py := s.py.popReq, daemon := .requesting (s.futs h).op }
      else { s with futs, daemon := .complete }
  | .requesting slot =>
    match s.shm.pushReq slot with
    | some (true, shm) => { s with shm, daemon := .complete }
    | _ => s.abort

/-! ## 5. The load balancer -/

/-- `try_complete_op` and `try_post_op` of the load balancer, in turn. -/
def balancerStep (nworker : ℕ) (s : Pipeline) : Pipeline :=
  match s.balancer with
  | .checking i =>
    if i < nworker then
      match (s.qp i).frontResp with
      | none => { s with balancer := .post }
      | some _ => { s with balancer := .checking (i + 1) }
    else { s with balancer := .popping 0 [] }
  | .popping i parts =>
    if i < nworker then
      match (s.qp i).frontResp with
      | none => s.abort
      | some part => { s with
          qp := Function.update s.qp i (s.qp i).popResp
          balancer := .popping (i + 1) (parts ++ [part]) }
    else
      -- `op` is the one of the response removed last
      match parts.getLast? with
      | none => s.abort
      | some part =>
        { s with balancer := .responding part.op, log := s.log ++ [.gathered parts] }
  | .responding op =>
    s.orAbort <| (s.shm.pushResp op).map fun shm => { s with shm, balancer := .post }
  | .post =>
    match s.shm.frontReq with
    | none => { s with balancer := .checking 0 }
    | some slot =>
      let op := (s.opBuffer.buffer slot).op
      if op.reduces ∧ op.size % 4 ≠ 0 then s.abort
      else { s with shm := s.shm.popReq, balancer := .dealing slot 0 0 }
  | .dealing slot i offset =>
    if i < nworker then
      let op := (s.opBuffer.buffer slot).op
      let next := BalancerPc.dealing slot (i + 1) (offset + subSize op.size nworker i)
      match (s.qp i).pushReq ⟨slot, subOp op nworker i offset⟩ with
      | some (true, qp) => { s with qp := Function.update s.qp i qp, balancer := next }
      | some (false, _) => { s with balancer := next, log := s.log ++ [.refused] }
      | none => s.abort
    else { s with balancer := .checking 0 }

/-! ## 6. The workers, and the whole -/

/-- A worker takes the next part from its queue. -/
def take (s : Pipeline) (i : ℕ) : Option Pipeline :=
  (s.qp i).frontReq.map fun part => { s with
    qp := Function.update s.qp i (s.qp i).popReq
    busy := Function.update s.busy i (s.busy i ++ [part]) }

/-- A worker answers the part it has had longest. -/
def answer (s : Pipeline) (i : ℕ) : Option Pipeline :=
  match s.busy i with
  | [] => none
  | part :: rest => some <| s.orAbort <| ((s.qp i).pushResp part).map fun qp => { s with
      qp := Function.update s.qp i qp
      busy := Function.update s.busy i rest
      log := s.log ++ [.answered i part] }

end Pipeline

/-- One operation of one thread. -/
inductive Action
  /-- `post_sub_collective` is called for an op, or `recv_all_resp` -/
  | call (want : Option Op)
  | front
  | daemon (ready : Bool)
  | balancer
  | take (i : ℕ)
  | answer (i : ℕ)
  deriving DecidableEq, Repr

/-- What the callers of `post_sub_collective` promise: an op is one segment of a collective,
and the tensors the switch adds consist of words. -/
def Promised (op : Op) : Prop :=
  op.size ≤ frontendSegmentSize ∧ (op.reduces = true → op.size % 4 = 0)

instance (op : Op) : Decidable (Promised op) := inferInstanceAs (Decidable (_ ∧ _))

namespace Pipeline

/-- One operation; `none` where the thread has nothing to do. -/
def step (nworker : ℕ) (s : Pipeline) (a : Action) : Option Pipeline :=
  if s.aborted then none
  else match a with
    | .call want =>
      if s.front = .idle ∧ ∀ op ∈ want, Promised op then some { s with front := .receiving want }
      else none
    | .front => s.frontStep
    | .daemon ready => some (s.daemonStep ready)
    | .balancer => some (s.balancerStep nworker)
    | .take i => if i < nworker then s.take i else none
    | .answer i => if i < nworker then s.answer i else none

/-- The same as a relation. -/
def Step (nworker : ℕ) (s : Pipeline) (a : Action) (s' : Pipeline) : Prop :=
  s.step nworker a = some s'

/-- Before the first op.  The slots hold anything. -/
structure Init (s : Pipeline) : Prop where
  opBuffer : s.opBuffer.head = 0 ∧ s.opBuffer.cnt = 0
  copyBuffer : s.copyBuffer = .empty
  news : s.news = 0
  py : s.py = .empty
  shm : s.shm = .empty
  qp : ∀ i, s.qp i = .empty
  busy : ∀ i, s.busy i = []
  front : s.front = .idle
  daemon : s.daemon = .complete
  balancer : s.balancer = .checking 0
  aborted : s.aborted = false
  log : s.log = []

end Pipeline

end NetCCL.Host
