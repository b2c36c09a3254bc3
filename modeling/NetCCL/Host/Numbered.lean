/-
# Three levels of numbered queues

Number the ops in the order they are posted.  Then each of the three levels of queues holds
stretches of one sequence: handles, slots of the op buffer, parts of a worker.  `QueuePair.At`
says so with four counters, and there is one lemma for each operation of a queue pair, which
moves one of them.

The counters of the levels are nested: what one level has with its responder is what the next
level has in its queues, up to the one op a thread may have in its hands.  That is the whole
invariant (`Inv`); the bounds on the queues, which the program counts at each level anew, all
follow from the one bound at the outermost level.
-/
import NetCCL.Lib.Stretch
import NetCCL.Host.Threads

namespace NetCCL

open Lib

/-! ## 1. A queue pair in counters -/

section QueuePair

variable {α : Type} {f g : ℕ → α} {w u t d : ℕ} {q : QueuePair α}

/-- The requester has removed `w` responses, the responder has pushed `u` and has removed `t`
requests, the requester has pushed `d`. -/
structure QueuePair.At (q : QueuePair α) (f : ℕ → α) (w u t d : ℕ) : Prop where
  cq : q.cq = stretch f w u
  wq : q.wq = stretch f t d
  num : q.numInQueue = d - w
  resp : w ≤ u
  held : u ≤ t
  req : t ≤ d
  room : d ≤ w + queueSize

theorem QueuePair.at_empty (f : ℕ → α) : (QueuePair.empty : QueuePair α).At f 0 0 0 0 :=
  ⟨(stretch_self f 0).symm, (stretch_self f 0).symm, rfl, Nat.le_refl 0, Nat.le_refl 0, Nat.le_refl 0,
    Nat.zero_le _⟩

theorem QueuePair.At.congr (h : q.At f w u t d) (hfg : ∀ k, w ≤ k → k < d → f k = g k) :
    q.At g w u t d := by
  have hu := h.held
  have ht := h.req
  have hw := h.resp
  exact { h with
    cq := h.cq.trans (stretch_congr fun k hk hk' => hfg k hk (by omega))
    wq := h.wq.trans (stretch_congr fun k hk hk' => hfg k (by omega) hk') }

/-- **`push_req`** succeeds as long as fewer than `QUEUE_SIZE` elements are out. -/
theorem QueuePair.At.pushReq (h : q.At f w u t d) (hroom : d < w + queueSize) :
    ∃ q', q.pushReq (f d) = some (true, q') ∧ q'.At f w u t (d + 1) := by
  have hw := h.resp
  have hu := h.held
  have ht := h.req
  refine ⟨{ q with wq := q.wq ++ [f d], numInQueue := q.numInQueue + 1 }, ?_, ?_⟩
  · rw [QueuePair.pushReq, h.num, h.wq, stretch_length, if_neg (by omega), if_neg (by omega)]
  · exact { h with
      wq := by rw [h.wq, stretch_snoc f ht]
      num := by dsimp only; rw [h.num]; omega
      req := by omega
      room := hroom }

theorem QueuePair.At.frontReq (h : q.At f w u t d) {x : α} (hx : q.frontReq = some x) :
    t < d ∧ x = f t := by
  rw [QueuePair.frontReq, h.wq] at hx
  exact stretch_head?.mp hx

/-- **`pop_req`**, after a `front_req`. -/
theorem QueuePair.At.popReq (h : q.At f w u t d) (htd : t < d) : q.popReq.At f w u (t + 1) d :=
  { h with
    wq := by rw [QueuePair.popReq, h.wq, stretch_tail]
    held := Nat.le_succ_of_le h.held
    req := htd }

/-- **`push_resp`** succeeds for whatever is with the responder. -/
theorem QueuePair.At.pushResp (h : q.At f w u t d) (hut : u < t) :
    ∃ q', q.pushResp (f u) = some q' ∧ q'.At f w (u + 1) t d := by
  have hw := h.resp
  have ht := h.req
  have hroom := h.room
  refine ⟨{ q with cq := q.cq ++ [f u] }, ?_, ?_⟩
  · rw [QueuePair.pushResp, h.cq, stretch_length, if_neg (by omega)]
  · exact { h with
      cq := by rw [h.cq, stretch_snoc f hw]
      resp := by omega
      held := hut }

theorem QueuePair.At.frontResp (h : q.At f w u t d) {x : α} (hx : q.frontResp = some x) :
    w < u ∧ x = f w := by
  rw [QueuePair.frontResp, h.cq] at hx
  exact stretch_head?.mp hx

/-- **`pop_resp`**, after a `front_resp`. -/
theorem QueuePair.At.popResp (h : q.At f w u t d) (hwu : w < u) : q.popResp.At f (w + 1) u t d :=
  { h with
    cq := by rw [QueuePair.popResp, h.cq, stretch_tail]
    num := by simp only [QueuePair.popResp, h.num]; omega
    resp := hwu
    room := by have := h.room; omega }

end QueuePair

namespace Host

open Frontend Backend

/-! ## 2. What the log says -/

/-- The ops posted, in order; the position of an op is its number. -/
def posted (log : List Event) : List Op :=
  log.filterMap fun | .posted op => some op | _ => none

/-- The parts worker `i` has answered. -/
def answeredBy (i : ℕ) (log : List Event) : List Part :=
  log.filterMap fun | .answered j part => if j = i then some part else none | _ => none

/-- The responses the load balancer has removed together. -/
def gatherings (log : List Event) : List (List Part) :=
  log.filterMap fun | .gathered parts => some parts | _ => none

/-- The ops that have come back. -/
def received (log : List Event) : List ℕ :=
  log.filterMap fun | .received h => some h | _ => none

@[simp] theorem posted_append (log log' : List Event) :
    posted (log ++ log') = posted log ++ posted log' := List.filterMap_append

@[simp] theorem answeredBy_append (i : ℕ) (log log' : List Event) :
    answeredBy i (log ++ log') = answeredBy i log ++ answeredBy i log' := List.filterMap_append

@[simp] theorem gatherings_append (log log' : List Event) :
    gatherings (log ++ log') = gatherings log ++ gatherings log' := List.filterMap_append

@[simp] theorem received_append (log log' : List Event) :
    received (log ++ log') = received log ++ received log' := List.filterMap_append

/-! ## 3. Slots and parts by number -/

/-- The slot of the op buffer that op `h` is given. -/
def slotOf (h : ℕ) : ℕ := h % queueSize

/-- Ops that are live at the same time have different slots. -/
theorem slotOf_ne {h k : ℕ} (hlt : h < k) (hnear : k < h + queueSize) : slotOf h ≠ slotOf k := by
  simp only [slotOf, queueSize] at *
  omega

/-- The slots are taken in turn. -/
theorem slotOf_succ (h : ℕ) :
    (if slotOf h + 1 = queueSize then 0 else slotOf h + 1) = slotOf (h + 1) := by
  by_cases hend : slotOf h + 1 = queueSize
  · rw [if_pos hend]
    simp only [slotOf, queueSize] at *
    omega
  · rw [if_neg hend]
    simp only [slotOf, queueSize] at *
    omega

/-- What worker `i` is given of op `h`. -/
def partOf (nworker i h : ℕ) (op : Op) : Part :=
  ⟨slotOf h, subOp op nworker i (subOffset op.size nworker i)⟩

instance : Inhabited Op := ⟨⟨.allReduce, 0, 0, 0, ⟨0, 0, 0, 0, 0⟩⟩⟩

/-- The parts of worker `i`, by the number of the op. -/
def partSeq (ops : List Op) (nworker i h : ℕ) : Part := partOf nworker i h (ops.getD h default)

/-- All parts of an op. -/
def partsSeq (ops : List Op) (nworker h : ℕ) : List Part :=
  (List.range nworker).map fun i => partSeq ops nworker i h

theorem partSeq_snoc {ops : List Op} {h : ℕ} (hlt : h < ops.length) (op : Op) (nworker i : ℕ) :
    partSeq (ops ++ [op]) nworker i h = partSeq ops nworker i h := by
  simp only [partSeq, List.getD_eq_getElem?_getD, List.getElem?_append_left hlt]

/-! ## 4. The counters a thread's position implies -/

/-- Ops destroyed, of `w` responses removed. -/
def FrontPc.destroyed (w : ℕ) : FrontPc → ℕ
  | .popping _ => w + 1
  | _ => w

/-- Responses the daemon has removed, of `u` passed on. -/
def DaemonPc.removed (u : ℕ) : DaemonPc → ℕ
  | .responding _ => u + 1
  | _ => u

/-- Requests the daemon has removed, of `m` passed on. -/
def DaemonPc.taken (m : ℕ) : DaemonPc → ℕ
  | .requesting _ => m + 1
  | _ => m

/-- Responses of worker `i` the load balancer has removed, of `r` ops passed on. -/
def BalancerPc.removed (r i : ℕ) : BalancerPc → ℕ
  | .popping k _ => if i < k then r + 1 else r
  | .responding _ => r + 1
  | _ => r

/-- Ops of which the load balancer has removed every response. -/
def BalancerPc.gathered (r : ℕ) : BalancerPc → ℕ
  | .responding _ => r + 1
  | _ => r

/-- Requests the load balancer has removed, of `b` dealt out. -/
def BalancerPc.taken (b : ℕ) : BalancerPc → ℕ
  | .dealing _ _ _ => b + 1
  | _ => b

/-- Parts the load balancer has given worker `i`. -/
def BalancerPc.dealt (b i : ℕ) : BalancerPc → ℕ
  | .dealing _ k _ => if i < k then b + 1 else b
  | _ => b

/-! ## 5. The invariant -/

/-- The memory of the ops: `v` are destroyed, the others live, each in its slot. -/
structure Memory (ops : List Op) (opBuffer : OpBuffer) (copyBuffer : CopyBuffer) (news : ℕ)
    (futs : ℕ → OpWithFut) (v : ℕ) : Prop where
  head : opBuffer.head = slotOf ops.length
  cnt : opBuffer.cnt + v = ops.length
  news : news = ops.length
  entry : ∀ h op, v ≤ h → ops[h]? = some op →
    opBuffer.buffer (slotOf h) = ⟨op, h⟩ ∧ (futs h).op = slotOf h
  promised : ∀ op ∈ ops, Promised op
  ring : Ring.Inv ⟨copyBuffer, (ops.drop v).map opSpan⟩

/-- The way of the parts of one worker, through its queues and its hands. -/
def Lane (ops : List Op) (nworker i : ℕ) (qp : QueuePair Part) (busy answered : List Part)
    (g d : ℕ) : Prop :=
  ∃ c t, qp.At (partSeq ops nworker i) g c t d ∧ busy = stretch (partSeq ops nworker i) c t ∧
    answered = stretch (partSeq ops nworker i) 0 c

/-- What the Python thread relies on where it is. -/
def FrontPc.Ready (opBuffer : OpBuffer) (copyBuffer : CopyBuffer) (w u : ℕ) : FrontPc → Prop
  | .idle => True
  | .receiving want => ∀ op ∈ want, Promised op
  | .popping want => w < u ∧ ∀ op ∈ want, Promised op
  | .posting op => Promised op ∧ 0 < opBuffer.available ∧ op.size ≤ copyBuffer.available

theorem FrontPc.Ready.mono {pc : FrontPc} {opBuffer : OpBuffer} {copyBuffer : CopyBuffer}
    {w u u' : ℕ} (h : pc.Ready opBuffer copyBuffer w u) (hu : u ≤ u') :
    pc.Ready opBuffer copyBuffer w u' := by
  cases pc with
  | popping want => exact ⟨Nat.lt_of_lt_of_le h.1 hu, h.2⟩
  | idle => exact h
  | receiving want => exact h
  | posting op => exact h

/-- What the daemon has in its hands. -/
def DaemonPc.Holds (u m : ℕ) : DaemonPc → Prop
  | .responding h => h = u
  | .requesting slot => slot = slotOf m
  | _ => True

/-- What the load balancer has in its hands, and what it has seen. -/
def BalancerPc.Holds (ops : List Op) (nworker : ℕ) (qp : ℕ → QueuePair Part) (r b : ℕ) :
    BalancerPc → Prop
  | .checking k => ∀ i < k, i < nworker → (qp i).cq ≠ []
  | .popping k parts => k ≤ nworker ∧
      parts = (List.range k).map (fun i => partSeq ops nworker i r) ∧
      ∀ i, k ≤ i → i < nworker → (qp i).cq ≠ []
  | .responding op => op = slotOf r
  | .post => True
  | .dealing slot k offset => k ≤ nworker ∧ slot = slotOf b ∧
      (k < nworker → offset = subOffset (ops.getD b default).size nworker k)

/-- **The invariant.**  `w` responses have come out at the outermost level, `u` have been put
in there; `r` ops have been answered by the load balancer; `b` have been dealt to every
worker; `m` have been passed to the load balancer. -/
structure Inv (nworker : ℕ) (s : Pipeline) (w u r b m : ℕ) : Prop where
  alive : s.aborted = false
  memory : Memory (posted s.log) s.opBuffer s.copyBuffer s.news s.futs (s.front.destroyed w)
  py : s.py.At id w u (s.daemon.taken m) (posted s.log).length
  shm : s.shm.At slotOf (s.daemon.removed u) r (s.balancer.taken b) m
  lanes : ∀ i < nworker, Lane (posted s.log) nworker i (s.qp i) (s.busy i) (answeredBy i s.log)
    (s.balancer.removed r i) (s.balancer.dealt b i)
  front : s.front.Ready s.opBuffer s.copyBuffer w u
  daemon : s.daemon.Holds u m
  balancer : s.balancer.Holds (posted s.log) nworker s.qp r b
  received : received s.log = List.range (s.front.destroyed w)
  gathered : gatherings s.log = stretch (partsSeq (posted s.log) nworker) 0 (s.balancer.gathered r)
  refused : .refused ∉ s.log

variable {nworker w u r b m : ℕ} {s s' : Pipeline}

theorem Inv.init (h : s.Init) : Inv nworker s 0 0 0 0 0 := by
  obtain ⟨⟨hhead, hcnt⟩, hcopy, hnews, hpy, hshm, hqp, hbusy, hfront, hdaemon, hbal, hab, hlog⟩ := h
  constructor
  case alive => exact hab
  case memory =>
    rw [hlog, hcopy, hnews, hfront]
    exact ⟨hhead, hcnt, rfl, fun h op _ hop => absurd hop (by simp [posted]), by simp [posted],
      Ring.inv_empty⟩
  case py => rw [hpy, hdaemon, hlog]; exact QueuePair.at_empty id
  case shm => rw [hshm, hdaemon, hbal]; exact QueuePair.at_empty slotOf
  case lanes =>
    intro i _
    rw [hqp, hbusy, hlog, hbal]
    exact ⟨0, 0, QueuePair.at_empty _, (stretch_self _ 0).symm, (stretch_self _ 0).symm⟩
  case front => rw [hfront]; trivial
  case daemon => rw [hdaemon]; trivial
  case balancer => rw [hbal]; exact fun i hi => absurd hi (Nat.not_lt_zero i)
  case received => rw [hlog, hfront]; rfl
  case gathered => rw [hlog, hbal]; exact (stretch_self _ 0).symm
  case refused => rw [hlog]; exact List.not_mem_nil

end Host

end NetCCL
