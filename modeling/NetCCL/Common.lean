/-
# What frontend and backend share

`server/common/common.hpp`: the ops that travel through the host, the predicates that say
who sends and who receives payload, and the queue pair that every two neighbouring threads
talk through.

Sizes, addresses and lengths are natural numbers, cut to their width where the code would
overflow; the fields that go into a packet header have the header's width.
-/
import Mathlib.Data.Nat.Notation

namespace NetCCL

/-! ## 1. Ops -/

/-- `OP_CODE`. -/
inductive OpCode
  | allReduce
  | reduce
  | broadcast
  | reduceScatter
  | allGather
  deriving DecidableEq, Repr

/-- The value of the enumerator. -/
def OpCode.toByte : OpCode → BitVec 8
  | .allReduce => 1
  | .reduce => 2
  | .broadcast => 3
  | .reduceScatter => 4
  | .allGather => 5

/-- `group_t`, as one host holds it. -/
structure Group where
  groupId : BitVec 8
  size : BitVec 8
  rank : BitVec 8
  aggAddr : ℕ
  aggLen : ℕ
  deriving DecidableEq, Repr

/-- `op_t`; `shmBuffer` is an address in shared memory. -/
structure Op where
  opCode : OpCode
  root : BitVec 8
  size : ℕ
  shmBuffer : ℕ
  group : Group
  deriving DecidableEq, Repr

/-- `need_tx`: this rank's packets carry payload. -/
def needTx (op : Op) : Bool :=
  op.opCode == .allReduce ||
    (op.opCode == .reduce && op.root != op.group.rank) ||
    (op.opCode == .broadcast && op.root == op.group.rank)

/-- `need_rx`: the responses to this rank carry payload. -/
def needRx (op : Op) : Bool :=
  op.opCode == .allReduce ||
    (op.opCode == .reduce && op.root == op.group.rank) ||
    (op.opCode == .broadcast && op.root != op.group.rank)

/-- The ops whose words the switch adds; the others it passes on. -/
def Op.reduces (op : Op) : Bool := op.opCode == .allReduce || op.opCode == .reduce

/-- `sub_op_t`: the part of an op one worker carries out. -/
structure SubOp where
  op : Op
  data : ℕ
  size : ℕ
  aggAddr : ℕ
  aggLen : ℕ
  deriving DecidableEq, Repr

/-- `PAYLOAD_SIZE`. -/
def payloadSize : ℕ := 64 * 4

/-! ## 2. Queue pairs -/

/-- `QUEUE_SIZE`. -/
def queueSize : ℕ := 1024

/-- `queue_pair_t`: a work queue, a completion queue, and the requester's count of what is in
either or with the responder. -/
structure QueuePair (α : Type) where
  wq : List α
  cq : List α
  numInQueue : ℕ
  deriving DecidableEq, Repr

namespace QueuePair

variable {α : Type}

/-- The constructor. -/
def empty : QueuePair α := ⟨[], [], 0⟩

/-- `push_req`: `none` when its assertion fails, and otherwise its result. -/
def pushReq (q : QueuePair α) (e : α) : Option (Bool × QueuePair α) :=
  if q.numInQueue = queueSize then some (false, q)
  else if q.wq.length = queueSize then none
  else some (true, { q with wq := q.wq ++ [e], numInQueue := q.numInQueue + 1 })

/-- `front_req`. -/
def frontReq (q : QueuePair α) : Option α := q.wq.head?

/-- `pop_req`, after a `front_req` that returned an element. -/
def popReq (q : QueuePair α) : QueuePair α := { q with wq := q.wq.tail }

/-- `push_resp`: `none` when its assertion fails. -/
def pushResp (q : QueuePair α) (e : α) : Option (QueuePair α) :=
  if q.cq.length = queueSize then none else some { q with cq := q.cq ++ [e] }

/-- `front_resp`. -/
def frontResp (q : QueuePair α) : Option α := q.cq.head?

/-- `pop_resp`, after a `front_resp` that returned an element. -/
def popResp (q : QueuePair α) : QueuePair α :=
  { q with cq := q.cq.tail, numInQueue := q.numInQueue - 1 }

end QueuePair

end NetCCL
