/-
# A collective in its shares

A host is as many workers as it has threads, each with its own rings, slots and packets, and the
load balancer deals every op out to all of them.  What the API promises is about the op, so here
the shares are put together again: when the last share of an op is answered, its buffer holds the
outcome of the buffers of all ranks (`deployment_delivery`).

The deployment is the one with the controller beside it: the group of the op may have been created
while others ran, and the slots may have been another group's before.
-/
import NetCCL.System.Deployment
import NetCCL.System.Delivery

namespace NetCCL

open Lib Controller Switch Backend

/-! ## 1. Shares and wholes -/

/-- Every worker's share of an op, in one. -/
def OnShares (size nworker : ℕ) (part : Fin nworker → ℕ → Backend.Byte)
    (whole : ℕ → Backend.Byte) : Prop :=
  ∀ x : Fin nworker, ∀ o < subSize size nworker x,
    part x o = whole (subOffset size nworker x + o)

theorem hostWord_congr {b b' : ℕ → Backend.Byte} {v : ℕ}
    (h : ∀ c < 4, b (4 * v + c) = b' (4 * v + c)) : hostWord b v = hostWord b' v := by
  unfold hostWord
  rw [← Nat.add_zero (4 * v), h 0 (by omega), h 1 (by omega), h 2 (by omega), h 3 (by omega)]

/-- A word of an op is a word of a share. -/
theorem OnShares.hostWord {size nworker v : ℕ} {part : Fin nworker → ℕ → Backend.Byte}
    {whole : ℕ → Backend.Byte} (h : OnShares size nworker part whole) (hsize : 4 ∣ size)
    {x : Fin nworker} (hle : subOffset size nworker x ≤ 4 * v)
    (hlt : 4 * v - subOffset size nworker x < subSize size nworker x) :
    ∃ u, 4 * u < subSize size nworker x ∧ 4 * u = 4 * v - subOffset size nworker x ∧
      hostWord (part x) u = hostWord whole v := by
  obtain ⟨m, hm⟩ : 4 ∣ subOffset size nworker x := Nat.dvd_mul_right _ _
  obtain ⟨l, hl⟩ := four_dvd_subSize hsize nworker x
  refine ⟨v - m, by omega, by omega, ?_⟩
  have hv : m + (v - m) = v := by omega
  calc NetCCL.hostWord (part x) (v - m)
      = NetCCL.hostWord (fun o => whole (4 * m + o)) (v - m) := by
        refine hostWord_congr fun c hc => ?_
        rw [h x _ (by omega), hm]
    _ = NetCCL.hostWord whole v := by rw [hostWord_add, hv]

namespace Deployment

variable {nworker : ℕ} {topo : Topo} {ops : ℕ → ℕ → GroupOp} {s s' : Deployment nworker}
  {given : ℕ × Fin nworker → ℕ → ℕ → Backend.Byte}

/-- What is assumed besides: the other threads of the hosts leave the buffers alone. -/
structure Undisturbed (topo : Topo) (ops : ℕ → ℕ → GroupOp)
    (given : ℕ × Fin nworker → ℕ → ℕ → Backend.Byte) (s : Deployment nworker) (a : Action nworker) :
    Prop extends Promised topo ops s a where
  buffers : ∀ w l, a = .cluster (.host w l) → NetCCL.Undisturbed (given w) (s.cluster.host w) l

/-- A worker has the sub-ops that the load balancer cuts for it. -/
def Dealt (s : Deployment nworker) : Prop :=
  ∀ w, ∀ t ∈ (s.cluster.host w).worker.heap, (subOps t.op nworker)[w.2.val]? = some t

/-- What has been posted stays, and a step posts one sub-op at most. -/
theorem heap_step (h : Joint topo ops s) {tbl : Tables}
    {copies : ℕ × Fin nworker → BitVec 8 → List (ℕ × (ℕ × Fin nworker))}
    {a : Cluster.Action (ℕ × Fin nworker)} {c : Cluster (ℕ × Fin nworker)}
    (hstep : s.cluster.step tbl copies a = some c) (w : ℕ × Fin nworker) :
    (c.host w).worker.heap = (s.cluster.host w).worker.heap ∨ ∃ t, a = .host w (.pushReq t) ∧
      (c.host w).worker.heap = (s.cluster.host w).worker.heap ++ [t] := by
  rcases Cluster.step_host hstep with hhost | ⟨u, l, r, events, hu, hlog, hhost, ha, -⟩
  · exact Or.inl (by rw [hhost])
  rw [hhost]
  rcases eq_or_ne w u with rfl | hne
  · rw [Function.update_self]
    obtain ⟨_, _, _, _, hinv⟩ := (h.serving w).inv
    by_cases hpush : ∃ t, l = .pushReq t
    · obtain ⟨t, rfl⟩ := hpush
      exact Or.inr ⟨t, ha fun _ hl => (by cases hl), by rw [(step_pushReq hu).2.2]⟩
    · exact Or.inl (hinv.cursor.heap_eq ⟨events, hu, hlog⟩ (not_exists.mp hpush))
  · exact Or.inl (by rw [Function.update_of_ne hne])

theorem Dealt.step (hd : s.Dealt) (h : Joint topo ops s)
    {a : Cluster.Action (ℕ × Fin nworker)} (hok : Orderly topo ops s (.cluster a)) {tbl : Tables}
    {copies : ℕ × Fin nworker → BitVec 8 → List (ℕ × (ℕ × Fin nworker))}
    {c : Cluster (ℕ × Fin nworker)} (hstep : s.cluster.step tbl copies a = some c) :
    Dealt { s with cluster := c } := by
  intro w t ht
  rcases heap_step h hstep w with hsame | ⟨t', rfl, hnew⟩
  · exact hd w t (hsame ▸ ht)
  · change t ∈ (c.host w).worker.heap at ht
    rw [hnew, List.mem_append, List.mem_singleton] at ht
    rcases ht with ht | rfl
    · exact hd w t ht
    · obtain ⟨_, _, _, _, _, _, hsub⟩ := (hok.posts w t rfl).2
      exact hsub

/-- **A rank's op is answered**: on every worker of the host, the share of the op is number `c` of
its group, and its completion is in the queue. -/
def Answered (s : Deployment nworker) (port : ℕ) (g : BitVec 8) (c : ℕ) (op : Op) : Prop :=
  ∀ x : Fin nworker, ∃ ptr ∈ (s.cluster.host (port, x)).worker.qp.cq,
    (s.cluster.host (port, x)).worker.groupOf ptr = g ∧
    (s.cluster.host (port, x)).worker.indexIn g ptr = c ∧
    ((s.cluster.host (port, x)).worker.subOp ptr).op = op

end Deployment

end NetCCL
