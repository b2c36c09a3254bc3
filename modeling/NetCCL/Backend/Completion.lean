/-
# Completion is exact

The load balancer frees a sub-op and the frontend recycles its buffer as soon as the worker
has answered it.  This module shows that the answer comes neither early nor twice, and that
the worker is done with the sub-op when it gives it.

The frontend promises one thing (`Orderly`): a sub-op of another group is queued only after
all earlier ones are answered.  That excludes the slip of `Mixes` (`Inv.not_mixes`), so `Inv`
holds throughout, and the rest is a matter of the ORDER of the packets: the packets shifted
out are the first `b` of the stream, a sub-op is answered when its last packet is among them,
and everything the worker touches belongs to a packet from number `b` on.

Writes are counted in the events of a run; `Inv.mem_written` says that they are what memory
gets, byte by byte.
-/
import NetCCL.Backend.Exclusive
import Mathlib.Data.List.Perm.Basic
import Mathlib.Data.List.Perm.Subperm

namespace NetCCL.Backend

open Lib

/-! ## 1. The order of the packets -/

variable {ctx : BitVec 8 → BitVec 32}

/-- `c` comes before `c'`: a later packet is of the same sub-op or a later one, and of a later
one when `c` is the last of its own. -/
def Cut.Before (c c' : Cut) : Prop := c.subOp ≤ c'.subOp ∧ (c.isLast = true → c.subOp < c'.subOp)

theorem cutSubOp_before (ptr : ℕ) (s : SubOp) (start : BitVec 32) :
    (cutSubOp ptr s start).Pairwise Cut.Before := by
  rw [cutSubOp, List.pairwise_map]
  refine List.Pairwise.imp_of_mem ?_ List.pairwise_lt_range
  intro i j _ hj hij
  have hne : i + 1 ≠ pktCount s := by
    have := List.mem_range.mp hj
    omega
  exact ⟨Nat.le_refl _, fun hl => absurd (by simpa [cutAt] using hl) hne⟩

/-- **A stream is cut in order.** -/
theorem cuts_before (ctx : BitVec 8 → BitVec 32) (l : List SubOp) : (cuts ctx l).Pairwise Cut.Before := by
  induction l using List.reverseRecOn with
  | nil => exact List.Pairwise.nil
  | append_singleton l s ih =>
    rw [cuts_concat, List.pairwise_append]
    refine ⟨ih, cutSubOp_before _ _ _, fun c hc c' hc' => ?_⟩
    obtain ⟨j, -, rfl⟩ := mem_cutSubOp hc'
    have hlt := cuts_subOp_lt hc
    exact ⟨Nat.le_of_lt hlt, fun _ => hlt⟩

/-- The packets of one sub-op, picked out of the stream. -/
theorem cuts_filter {w : Worker} {ptr : ℕ} (hptr : ptr < w.heap.length) :
    (cuts ctx w.heap).filter (fun c => c.subOp = ptr) = w.cutsOf ctx ptr := by
  have hnone : ∀ l : List Cut, (∀ c ∈ l, c.subOp ≠ ptr) →
      l.filter (fun c => c.subOp = ptr) = [] := fun l h =>
    List.filter_eq_nil_iff.mpr fun c hc => by simpa using h c hc
  have hall : (w.cutsOf ctx ptr).filter (fun c => c.subOp = ptr) = w.cutsOf ctx ptr :=
    List.filter_eq_self.mpr fun c hc => by
      obtain ⟨j, -, rfl⟩ := mem_cutSubOp hc
      exact decide_eq_true rfl
  have hsplit : ∀ n ≤ w.heap.length, (cuts ctx (w.heap.take n)).filter (fun c => c.subOp = ptr) =
      if ptr < n then w.cutsOf ctx ptr else [] := by
    intro n hn
    induction n with
    | zero => rfl
    | succ n ih =>
      rw [cuts_take_succ hn, List.filter_append, ih (Nat.le_of_succ_le hn)]
      rcases Nat.lt_trichotomy ptr n with h | rfl | h
      · rw [if_pos h, if_pos (Nat.lt_succ_of_lt h), hnone, List.append_nil]
        intro c hc
        obtain ⟨j, -, rfl⟩ := mem_cutSubOp hc
        exact Nat.ne_of_gt h
      · rw [if_neg (Nat.lt_irrefl _), if_pos (Nat.lt_succ_self _), hall, List.nil_append]
      · rw [if_neg (Nat.lt_asymm h), if_neg (by omega), hnone, List.append_nil]
        intro c hc
        obtain ⟨j, -, rfl⟩ := mem_cutSubOp hc
        exact Nat.ne_of_lt h
  have h := hsplit w.heap.length (Nat.le_refl _)
  rwa [List.take_length, if_pos hptr] at h

/-! ## 2. Answered sub-ops are behind the window -/

variable {r r' : Run} {k sent popped : ℕ} {acc : List ℕ}

theorem mem_pushed (h : Inv ctx r k sent popped acc) {ptr : ℕ} (hptr : ptr ∈ pushed r.log) :
    ∃ p ∈ (built r.log).take (completed r.log), p.isLast = true ∧ p.subOp = ptr := by
  rw [h.answered.answers] at hptr
  obtain ⟨p, hp, hlast⟩ := List.mem_filterMap.mp hptr
  rw [PktState.lastOf] at hlast
  split at hlast
  · exact ⟨p, hp, ‹_›, Option.some.inj hlast⟩
  · exact absurd hlast (by simp)

/-- The answers are the first sub-ops taken, in order. -/
theorem Inv.pushed_range (h : Inv ctx r k sent popped acc) :
    pushed r.log <+: List.range k := by
  rw [h.answered.answers, ← h.cursor.built_lastOf]
  exact (List.take_prefix _ _).filterMap _

/-- **Behind the window**: the packets that follow those shifted out all belong to later
sub-ops than any answered one. -/
theorem Inv.behind (h : Inv ctx r k sent popped acc) : ∃ rest,
    cuts ctx r.worker.heap = ((built r.log).take (completed r.log)).map PktState.cut ++
      (((built r.log).drop (completed r.log)).map PktState.cut ++ rest) ∧
    ∀ ptr ∈ pushed r.log, ∀ c ∈ ((built r.log).drop (completed r.log)).map PktState.cut ++ rest,
      ptr < c.subOp := by
  obtain ⟨rest, hrest⟩ := h.cursor.built_cuts
  have hsplit : cuts ctx r.worker.heap =
      ((built r.log).take (completed r.log)).map PktState.cut ++
        (((built r.log).drop (completed r.log)).map PktState.cut ++ rest) := by
    rw [← hrest, ← List.append_assoc, ← List.map_append, List.take_append_drop]
  refine ⟨rest, hsplit, fun ptr hptr c hc => ?_⟩
  obtain ⟨p, hp, hlast, rfl⟩ := mem_pushed h hptr
  have hord := cuts_before ctx r.worker.heap
  rw [hsplit, List.pairwise_append] at hord
  exact (hord.2.2 p.cut (List.mem_map_of_mem hp) c hc).2 hlast

theorem Inv.unanswered (h : Inv ctx r k sent popped acc) {j : ℕ} {p : PktState}
    (hj : completed r.log ≤ j) (hp : (built r.log)[j]? = some p) : p.subOp ∉ pushed r.log := by
  intro hptr
  obtain ⟨rest, -, hlt⟩ := h.behind
  have hmem : p ∈ (built r.log).drop (completed r.log) := by
    refine List.mem_iff_getElem?.mpr ⟨j - completed r.log, ?_⟩
    rw [List.getElem?_drop, Nat.add_sub_cancel' hj, hp]
  exact Nat.lt_irrefl _ (hlt _ hptr p.cut (List.mem_append_left _ (List.mem_map_of_mem hmem)))

theorem Inv.current_unanswered (h : Inv ctx r k sent popped acc) : k ∉ pushed r.log := fun hk =>
  Nat.lt_irrefl k (List.mem_range.mp (h.pushed_range.subset hk))

/-! ## 3. The barrier between groups -/

/-- What the callers promise of a sub-op they queue: earlier sub-ops of other groups are
answered (`post_collective_c` waits for them), the ops the switch adds consist of words, and
the size is a `uint32_t`. -/
def Orderly (r : Run) : Label → Prop
  | .pushReq s =>
    (∀ ptr < r.worker.heap.length, ptr ∉ pushed r.log →
      (r.worker.subOp ptr).op.group.groupId = s.op.group.groupId) ∧
    (s.op.reduces = true → 4 ∣ s.size) ∧ s.size < 2 ^ 32
  | _ => True

/-- The part of the promise that is about groups. -/
def Barrier (r : Run) : Label → Prop
  | .pushReq s => ∀ ptr < r.worker.heap.length, ptr ∉ pushed r.log →
      (r.worker.subOp ptr).op.group.groupId = s.op.group.groupId
  | _ => True

/-- What the barrier comes to: a sub-op queued behind an unanswered one is of its group. -/
def InGroups (r : Run) : Prop := ∀ i j, i < j → j < r.worker.heap.length → i ∉ pushed r.log →
  (r.worker.subOp i).op.group.groupId = (r.worker.subOp j).op.group.groupId

/-- What the promise comes to. -/
structure Promised (r : Run) : Prop where
  group : ∀ i j, i < j → j < r.worker.heap.length → i ∉ pushed r.log →
    (r.worker.subOp i).op.group.groupId = (r.worker.subOp j).op.group.groupId
  words : ∀ ptr < r.worker.heap.length, (r.worker.subOp ptr).op.reduces = true →
    4 ∣ (r.worker.subOp ptr).size
  size : ∀ ptr < r.worker.heap.length, (r.worker.subOp ptr).size < 2 ^ 32

theorem Cursor.heap_eq {l : Label} (h : Cursor ctx r k sent) (hstep : r.Step l r')
    (hpush : ∀ s, l ≠ .pushReq s) : r'.worker.heap = r.worker.heap := by
  by_cases hsend : l = .sendOne
  · subst hsend
    obtain ⟨events, -, hcase⟩ := step_cases h hstep
    cases hcase with
    | quiet _ hheap => exact hheap
    | endTx _ hr => rw [hr]; rfl
    | sent _ _ hs => exact hs.heap
  · exact (step_sameQueue hstep.choose_spec.1 hsend hpush).1.heap

/-- The sub-ops after a push. -/
theorem subOp_pushed {s : SubOp} (hheap : r'.worker.heap = r.worker.heap ++ [s]) {i : ℕ}
    (hi : i < r'.worker.heap.length) :
    (i < r.worker.heap.length ∧ r'.worker.subOp i = r.worker.subOp i) ∨
      (i = r.worker.heap.length ∧ r'.worker.subOp i = s) := by
  rw [hheap, List.length_append, List.length_singleton] at hi
  rcases Nat.lt_succ_iff_lt_or_eq.mp hi with hi | rfl
  · exact Or.inl ⟨hi, Worker.subOp_of_append hheap hi⟩
  · exact Or.inr ⟨rfl, by simp [Worker.subOp, hheap]⟩

theorem InGroups.step {l : Label} (h : InGroups r) (hc : Cursor ctx r k sent) (hok : Barrier r l)
    (hstep : r.Step l r') : InGroups r' := by
  have hkeep := hc.heap_eq hstep
  obtain ⟨events, hw, hlog⟩ := hstep
  intro i j hij hj hi
  have hi' : i ∉ pushed r.log := fun hmem =>
    hi (by rw [hlog, pushed_append]; exact List.mem_append_left _ hmem)
  by_cases hl : ∃ s, l = .pushReq s
  · obtain ⟨s, rfl⟩ := hl
    obtain ⟨-, -, hr⟩ := step_pushReq hw
    have hheap : r'.worker.heap = r.worker.heap ++ [s] := by rw [hr]
    rcases subOp_pushed hheap hj with ⟨hj', hsub⟩ | ⟨rfl, hsub⟩
    · rw [hsub, Worker.subOp_of_append hheap (Nat.lt_trans hij hj')]
      exact h i j hij hj' hi'
    · rw [hsub, Worker.subOp_of_append hheap hij]
      exact hok i hij hi'
  · have hheap := hkeep (not_exists.mp hl)
    rw [Worker.subOp_congr hheap, Worker.subOp_congr hheap]
    exact h i j hij (hheap ▸ hj) hi'

theorem Promised.init (h : r.Init ctx) : Promised r := by
  obtain ⟨⟨mem, pkt, hw⟩, -⟩ := h
  constructor <;> simp [hw, Worker.init]

theorem Orderly.barrier {l : Label} (h : Orderly r l) : Barrier r l := by
  cases l with
  | pushReq s => exact h.1
  | _ => trivial

theorem Promised.step {l : Label} (h : Promised r) (hc : Cursor ctx r k sent) (hok : Orderly r l)
    (hstep : r.Step l r') : Promised r' := by
  have hgroup : InGroups r' := InGroups.step h.group hc hok.barrier hstep
  have hkeep := hc.heap_eq hstep
  obtain ⟨events, hw, hlog⟩ := hstep
  by_cases hl : ∃ s, l = .pushReq s
  · obtain ⟨s, rfl⟩ := hl
    obtain ⟨-, hwords, hsize⟩ := hok
    obtain ⟨-, -, hr⟩ := step_pushReq hw
    have hheap : r'.worker.heap = r.worker.heap ++ [s] := by rw [hr]
    refine ⟨hgroup, fun i hi => ?_, fun i hi => ?_⟩ <;>
      rcases subOp_pushed hheap hi with ⟨hi', hsub⟩ | ⟨rfl, hsub⟩ <;> rw [hsub]
    · exact h.words i hi'
    · exact hwords
    · exact h.size i hi'
    · exact hsize
  · have hheap := hkeep (not_exists.mp hl)
    refine ⟨hgroup, fun i hi => ?_, fun i hi => ?_⟩ <;> rw [Worker.subOp_congr hheap]
    · exact h.words i (hheap ▸ hi)
    · exact h.size i (hheap ▸ hi)

/-- **With the barrier there is no slip**: what is outstanding is unanswered, so the next
sub-op is of its group. -/
theorem Inv.not_mixes {l : Label} (h : Inv ctx r k sent popped acc) (hp : InGroups r) :
    ¬ Mixes r l := by
  rintro ⟨-, toSend, winLen, expectWinLen, ptr, hpc, -, h0, hgen, hfront, hgroup, -⟩
  obtain ⟨rfl, hk⟩ := h.cursor.frontReq hfront
  have hwin := (h.window.send _ _ _ hpc).1
  have hlt : completed r.log < (built r.log).length := by omega
  have hget := List.getElem?_eq_getElem hlt
  have hcur := h.window.group _ _ (Nat.le_refl _) hget
  have hhead := (h.cursor.header _ (List.getElem_mem hlt)).2.2
  rw [hhead] at hcur
  have hbefore : (built r.log)[completed r.log].subOp < ptr := by
    have hmem : (built r.log)[completed r.log].cut ∈ cuts ctx (r.worker.heap.take ptr) := by
      obtain ⟨-, rfl, -⟩ | ⟨-, hst⟩ := h.cursor.statics
      · have hb := h.cursor.built
        rw [List.take_zero, List.append_nil] at hb
        rw [← hb]
        exact List.mem_map_of_mem (List.getElem_mem hlt)
      · rw [hst.gen] at hgen
        exact absurd hgen (by simp)
    have := cuts_subOp_lt hmem
    rwa [List.length_take_of_le h.cursor.le] at this
  exact hgroup ((hp _ _ hbefore hk (h.unanswered (Nat.le_refl _) hget)).symm.trans hcur)

/-- **The run lemma with the barrier.** -/
theorem barrier_reach (h : Reach (Run.Init ctx) Run.Step Barrier r) :
    InGroups r ∧ ∃ k sent popped acc, Inv ctx r k sent popped acc :=
  h.invariant (P := fun r => InGroups r ∧ ∃ k sent popped acc, Inv ctx r k sent popped acc)
    (fun _ hi => ⟨(Promised.init hi).group, 0, 0, 0, [], .init hi⟩)
    fun _ _ _ ⟨hp, _, _, _, _, hinv⟩ hok hs => by
      obtain ⟨k', sent', popped', acc', hinv', -⟩ := hinv.step (hinv.not_mixes hp) hs
      exact ⟨hp.step hinv.cursor hok hs, k', sent', popped', acc', hinv'⟩

/-! ## 4. What a step touches -/

/-- The sub-op an event reads, or accepts or writes for. -/
def Event.touches : Event → Option ℕ
  | .deref ptr => some ptr
  | .accepted _ p _ => some p.subOp
  | .wrote ptr _ _ => some ptr
  | _ => none

/-- No sub-op is touched after its answer. -/
def Retires (log : List Event) : Prop :=
  log.Pairwise fun e e' => ∀ ptr, e = .pushed ptr → e'.touches ≠ some ptr

theorem mem_pushed_of_mem {log : List Event} {ptr : ℕ} (h : .pushed ptr ∈ log) :
    ptr ∈ pushed log :=
  List.mem_filterMap.mpr ⟨_, h, rfl⟩

/-- **A step touches only unanswered sub-ops.** -/
theorem Inv.touches {l : Label} {events : List Event} (h : Inv ctx r k sent popped acc)
    (hstep : r.Step l r') (hlog : r'.log = r.log ++ events) :
    ((∀ e ∈ events, e.touches = none) ∨ pushed events = []) ∧
      ∀ e ∈ events, ∀ ptr, e.touches = some ptr → ptr ∉ pushed r.log := by
  obtain ⟨events', hlog', hcase⟩ := step_cases h.cursor hstep
  obtain rfl : events = events' := List.append_cancel_left (hlog.symm.trans hlog')
  have hk : ∀ ptr, some k = some ptr → ptr ∉ pushed r.log := fun ptr he =>
    Option.some.inj he ▸ h.current_unanswered
  cases hcase with
  | quiet => exact ⟨Or.inr rfl, fun _ he => absurd he List.not_mem_nil⟩
  | pushReq => exact ⟨Or.inr rfl, fun _ he => absurd he List.not_mem_nil⟩
  | popResp => exact ⟨Or.inr rfl, fun _ he => absurd he List.not_mem_nil⟩
  | @accept f _ hpc hpos hat =>
    obtain ⟨j, p, hj, hget, hpj, -, -⟩ := h.window.getPosition hpc hpos
    have hsub : (r.worker.window.ackedAt (r.worker.getPosition f)).subOp = p.subOp := by
      rw [hpj, Window.ackedAt, h.window.holds.state j p hj hget]
    have hun := h.unanswered hj hget
    obtain ⟨-, -, -, resent, hresent, rfl⟩ := hat
    have hstill := (copyPayload_still r.worker
      (r.worker.window.ackedAt (r.worker.getPosition f)) f).append (still_sent fun e he => by
        obtain ⟨i, -, rfl⟩ := hresent e he
        exact ⟨i, _, rfl⟩)
    refine ⟨Or.inr hstill.pushed, fun e he ptr ht => ?_⟩
    have hptr : ptr = p.subOp := by
      rcases List.mem_cons.mp he with rfl | he
      · exact (Option.some.inj ht).symm.trans hsub
      rcases List.mem_append.mp he with he | he
      · obtain ⟨_, -, ⟨hev, -⟩ | ⟨_, -, hev⟩⟩ := copyPayload_cases r.worker
          (r.worker.window.ackedAt (r.worker.getPosition f)) f <;> rw [hev] at he
        · rw [List.mem_singleton.mp he] at ht
          exact (Option.some.inj ht).symm.trans hsub
        · rcases List.mem_cons.mp he with rfl | he
          · exact (Option.some.inj ht).symm.trans hsub
          · rw [List.mem_singleton.mp he] at ht
            exact (Option.some.inj ht).symm.trans hsub
      · obtain ⟨i, -, rfl⟩ := hresent e he
        exact absurd ht (by simp [Event.touches, Window.transmit])
    exact hptr ▸ hun
  | endRx =>
    obtain ⟨-, -, -, -, -, -, -, events', hlog', hdone, -⟩ := h.window.endRx h.cursor h.room hstep
    obtain rfl : events = events' := List.append_cancel_left (hlog.symm.trans hlog')
    have hnone : ∀ e ∈ events, e.touches = none := by
      intro e he
      obtain ⟨_, rfl⟩ | ⟨_, rfl⟩ := hdone e he <;> rfl
    exact ⟨Or.inl hnone, fun e he ptr ht => absurd (ht.symm.trans (hnone e he)) (by simp)⟩
  | startTx _ hr =>
    obtain ⟨_, _, _, _, -, -, -, hev⟩ := startTx_spec r.worker
    rw [hr] at hev
    have hnone : ∀ e ∈ events, e.touches = none := by
      intro e he
      obtain ⟨_, -, rfl⟩ := hev e he
      rfl
    exact ⟨Or.inl hnone, fun e he ptr ht => absurd (ht.symm.trans (hnone e he)) (by simp)⟩
  | endTx _ _ hev =>
    refine ⟨Or.inr (still_deref fun e he => ⟨k, (hev e he).1⟩).pushed, fun e he ptr ht => ?_⟩
    rw [(hev e he).1] at ht
    exact hk ptr ht
  | sent _ _ hs hpre =>
    refine ⟨Or.inr (by cases hpre <;> rfl), fun e he ptr ht => ?_⟩
    rcases List.mem_append.mp he with he | he
    · cases hpre with
      | going => exact absurd he List.not_mem_nil
      | turned =>
        rcases List.mem_cons.mp he with rfl | he
        · exact hk ptr ht
        · rw [List.mem_singleton.mp he] at ht
          exact absurd ht (by simp [Event.touches])
    · rcases List.mem_cons.mp he with rfl | he
      · exact hk ptr ht
      · rcases List.mem_cons.mp he with rfl | he
        · exact absurd ht (by simp [Event.touches])
        · rw [List.mem_singleton.mp he] at ht
          exact absurd ht (by simp [Event.touches])

/-- So a step keeps what is retired retired. -/
theorem Inv.retires {l : Label} (h : Inv ctx r k sent popped acc) (hr : Retires r.log)
    (hstep : r.Step l r') : Retires r'.log := by
  obtain ⟨events, -, hlog⟩ := id hstep
  obtain ⟨hone, hnew⟩ := h.touches hstep hlog
  rw [Retires, hlog, List.pairwise_append]
  refine ⟨hr, ?_, fun e he e' he' ptr hptr ht => ?_⟩
  · rcases hone with hnone | hpush
    · exact List.pairwise_of_forall_mem_list fun e _ e' he' ptr _ ht =>
        absurd ((hnone e' he').symm.trans ht) (by simp)
    · refine List.pairwise_of_forall_mem_list fun e he e' _ ptr hptr => ?_
      have hmem := mem_pushed_of_mem (hptr ▸ he)
      rw [hpush] at hmem
      exact absurd hmem List.not_mem_nil
  · exact hnew e' he' ptr ht (mem_pushed_of_mem (hptr ▸ he))

/-! ## 5. What is written -/

/-- What accepting a packet writes: for which sub-op, from which address, how many bytes. -/
def Worker.writes (w : Worker) (c : Cut) : List (ℕ × ℕ × ℕ) :=
  let op := (w.subOp c.subOp).op
  if needRx op then [(c.subOp, c.data, if op.reduces then c.size / 4 * 4 else c.size)] else []

theorem wrote_copyPayload (w : Worker) (p : PktState) (f : Frame) :
    wrote (w.copyPayload p f).2 = w.writes p.cut := by
  have hw : w.writes p.cut = if needRx (w.subOp p.subOp).op then
      [(p.subOp, p.data, if (w.subOp p.subOp).op.reduces then p.size / 4 * 4 else p.size)]
    else [] := rfl
  rw [hw, Worker.copyPayload]
  by_cases hrx : needRx (w.subOp p.subOp).op = true
  · rw [if_pos hrx, if_pos hrx]
    by_cases hadd : (w.subOp p.subOp).op.reduces = true
    · rw [if_pos hadd, if_pos hadd]; rfl
    · rw [if_neg hadd, if_neg hadd]; rfl
  · rw [if_neg hrx, if_neg hrx]; rfl

theorem accepted_copyPayload (w : Worker) (p : PktState) (f : Frame) :
    accepted (w.copyPayload p f).2 = [] :=
  (copyPayload_still w p f).accepted

/-- The packets accepted. -/
def acceptedCuts (log : List Event) : List Cut := (accepted log).map fun a => a.1.cut

theorem acceptedCuts_append (l₁ l₂ : List Event) :
    acceptedCuts (l₁ ++ l₂) = acceptedCuts l₁ ++ acceptedCuts l₂ := by
  rw [acceptedCuts, accepted_append, List.map_append]; rfl

theorem forall₂_exists {α β : Type} {R : α → β → Prop} {l : List α} {m : List β}
    (h : List.Forall₂ R l m) {a : α} (ha : a ∈ l) : ∃ b ∈ m, R a b := by
  induction h with
  | nil => exact absurd ha List.not_mem_nil
  | cons hab _ ih =>
    rcases List.mem_cons.mp ha with rfl | ha
    · exact ⟨_, List.mem_cons_self, hab⟩
    · obtain ⟨b, hb, hab⟩ := ih ha
      exact ⟨b, List.mem_cons_of_mem _ hb, hab⟩

/-- Every accepted packet is a built one, and its response carries its PSN. -/
theorem InWindow.accepted_built (h : InWindow r acc) {a : PktState × Frame}
    (ha : a ∈ Backend.accepted r.log) :
    ∃ p ∈ built r.log, a.1.cut = p.cut ∧ a.2.inc.psn = p.psn := by
  obtain ⟨j, -, p, hp, h1, h2, -⟩ := forall₂_exists h.accepted ha
  exact ⟨p, List.mem_of_getElem? hp, by rw [h1]; rfl, h2⟩

/-- **What a step writes**: nothing, and it says so; or it copies a response for an unanswered
sub-op, and says where. -/
theorem Inv.step_writes {l : Label} {events : List Event} (h : Inv ctx r k sent popped acc)
    (hstep : r.Step l r') (hlog : r'.log = r.log ++ events) :
    (((∀ addr b, l ≠ .store addr b) → r'.worker.mem = r.worker.mem) ∧ wrote events = [] ∧
      acceptedCuts events = []) ∨
    ∃ f, l = .receive f ∧ ∃ p ∈ built r.log, p.subOp ∉ pushed r.log ∧ f.inc.psn = p.psn ∧
      r'.worker.mem = (r.worker.copyPayload p f).1.mem ∧ wrote events = r.worker.writes p.cut ∧
      acceptedCuts events = [p.cut] := by
  obtain ⟨events', hlog', hcase⟩ := step_cases h.cursor hstep
  obtain rfl : events = events' := List.append_cancel_left (hlog.symm.trans hlog')
  have hsent : ∀ l : List Event, (∀ e ∈ l, ∃ pos f, e = .sent pos f) →
      wrote l = [] ∧ acceptedCuts l = [] := fun l hl =>
    ⟨List.filterMap_eq_nil_iff.mpr fun e he => by
      obtain ⟨_, _, rfl⟩ := hl e he
      rfl, by rw [acceptedCuts, (still_sent hl).accepted]; rfl⟩
  cases hcase with
  | quiet _ _ _ _ hmem => exact Or.inl ⟨hmem, rfl, rfl⟩
  | pushReq _ hw => exact Or.inl ⟨fun _ => by rw [hw], rfl, rfl⟩
  | popResp _ hw => exact Or.inl ⟨fun _ => by rw [hw], rfl, rfl⟩
  | @accept f _ hpc hpos hat =>
    obtain ⟨j, p, hj, hget, hpj, hpsn, -⟩ := h.window.getPosition hpc hpos
    have hp : r.worker.window.ackedAt (r.worker.getPosition f) = { p with acked := true } := by
      rw [hpj, Window.ackedAt, h.window.holds.state j p hj hget]
    obtain ⟨-, -, hmem, resent, hresent, rfl⟩ := hat
    obtain ⟨hres, hcuts⟩ := hsent resent fun e he => by
      obtain ⟨i, -, rfl⟩ := hresent e he
      exact ⟨i, _, rfl⟩
    refine Or.inr ⟨f, rfl, p, List.mem_of_getElem? hget, h.unanswered hj hget, hpsn, ?_, ?_, ?_⟩
    · rw [hmem, hp]
      rfl
    · rw [hp, ← List.singleton_append, wrote_append, wrote_append, hres, List.append_nil,
        wrote_copyPayload]
      rfl
    · rw [hp, ← List.singleton_append, acceptedCuts_append, acceptedCuts_append, hcuts,
        acceptedCuts, acceptedCuts, accepted_copyPayload]
      rfl
  | endRx =>
    obtain ⟨-, -, -, -, -, hmem, -, events', hlog', hdone, -⟩ :=
      h.window.endRx h.cursor h.room hstep
    obtain rfl : events = events' := List.append_cancel_left (hlog.symm.trans hlog')
    have hnone : accepted events = [] := List.filterMap_eq_nil_iff.mpr fun e he => by
      obtain ⟨_, rfl⟩ | ⟨_, rfl⟩ := hdone e he <;> rfl
    refine Or.inl ⟨fun _ => hmem, List.filterMap_eq_nil_iff.mpr fun e he => ?_, ?_⟩
    · obtain ⟨_, rfl⟩ | ⟨_, rfl⟩ := hdone e he <;> rfl
    · rw [acceptedCuts, hnone]
      rfl
  | startTx _ hw =>
    obtain ⟨_, _, _, _, hst, -, -, hev⟩ := startTx_spec r.worker
    rw [hw] at hst hev
    have hsame : r'.worker = _ := hst
    refine Or.inl ⟨fun _ => by rw [hsame], hsent _ fun e he => ?_⟩
    obtain ⟨i, -, rfl⟩ := hev e he
    exact ⟨i, _, rfl⟩
  | endTx _ hw hev =>
    have hnone : accepted events = [] :=
      List.filterMap_eq_nil_iff.mpr fun e he => by rw [(hev e he).1]
    refine Or.inl ⟨fun _ => by rw [hw]; rfl,
      List.filterMap_eq_nil_iff.mpr fun e he => by rw [(hev e he).1], ?_⟩
    rw [acceptedCuts, hnone]
    rfl
  | sent _ _ hs hpre =>
    exact Or.inl ⟨fun _ => hs.mem, by cases hpre <;> rfl, by cases hpre <;> rfl⟩

/-- Sub-ops stay as they were queued. -/
theorem Cursor.subOp_keeps {l : Label} (h : Cursor ctx r k sent) (hstep : r.Step l r') {i : ℕ}
    (hi : i < r.worker.heap.length) : r'.worker.subOp i = r.worker.subOp i := by
  have hkeep := h.heap_eq hstep
  obtain ⟨events, hw, -⟩ := hstep
  by_cases hl : ∃ s, l = .pushReq s
  · obtain ⟨s, rfl⟩ := hl
    obtain ⟨-, -, hr⟩ := step_pushReq hw
    exact Worker.subOp_of_append (by rw [hr]) hi
  · exact Worker.subOp_congr (hkeep (not_exists.mp hl)) i

/-- **Memory is written for accepted packets only**, and once for each. -/
def Run.WritesAccepted (r : Run) : Prop :=
  wrote r.log = (acceptedCuts r.log).flatMap r.worker.writes

theorem Inv.writesAccepted {l : Label} (h : Inv ctx r k sent popped acc) (hr : r.WritesAccepted)
    (hstep : r.Step l r') : r'.WritesAccepted := by
  obtain ⟨events, -, hlog⟩ := id hstep
  -- the packets accepted before the step are of sub-ops that were there, and so are the new ones
  have hold : ∀ c ∈ acceptedCuts r.log, c.subOp < r.worker.heap.length := by
    intro c hc
    obtain ⟨a, ha, rfl⟩ := List.mem_map.mp hc
    obtain ⟨p, hp, hcut, -⟩ := h.window.accepted_built ha
    rw [hcut]
    exact (h.cursor.header p hp).2.1
  obtain ⟨hwrote, hnew⟩ : wrote events = (acceptedCuts events).flatMap r.worker.writes ∧
      ∀ c ∈ acceptedCuts events, c.subOp < r.worker.heap.length := by
    obtain ⟨-, hw, hcuts⟩ | ⟨f, -, p, hp, -, -, -, hw, hcuts⟩ := h.step_writes hstep hlog
    · rw [hw, hcuts]
      exact ⟨rfl, fun _ hc => absurd hc List.not_mem_nil⟩
    · rw [hw, hcuts, List.flatMap_singleton]
      exact ⟨rfl, fun c hc => List.mem_singleton.mp hc ▸ (h.cursor.header p hp).2.1⟩
  rw [Run.WritesAccepted, hlog, wrote_append, acceptedCuts_append, hr, hwrote,
    ← List.flatMap_append]
  refine List.flatMap_congr fun c hc => ?_
  have hlt := (List.mem_append.mp hc).elim (hold c) (hnew c)
  rw [Worker.writes, Worker.writes, h.cursor.subOp_keeps hstep hlt]

/-! ## 6. An answered sub-op -/

/-- What was accepted, in terms of the packets built. -/
theorem InWindow.acceptedCuts_eq (h : InWindow r acc) :
    acceptedCuts r.log = acc.filterMap fun j => ((built r.log)[j]?).map PktState.cut := by
  have haux : ∀ {l : List (PktState × Frame)} {m : List ℕ},
      List.Forall₂ (Answers (built r.log)) l m →
      (l.map fun a => a.1.cut) = m.filterMap fun j => ((built r.log)[j]?).map PktState.cut := by
    intro l m hlm
    induction hlm with
    | nil => rfl
    | cons hab _ ih =>
      obtain ⟨p, hp, h1, -⟩ := hab
      rw [List.map_cons, ih, List.filterMap_cons_some (by rw [hp]; rfl), h1]
      rfl
  exact haux h.accepted

theorem filterMap_range (G : List PktState) {b : ℕ} (hb : b ≤ G.length) :
    ((List.range b).filterMap fun j => (G[j]?).map PktState.cut) = (G.take b).map PktState.cut := by
  induction b with
  | zero => rfl
  | succ b ih =>
    have hget := List.getElem?_eq_getElem (Nat.lt_of_succ_le hb)
    rw [List.range_succ, List.filterMap_append, ih (Nat.le_of_succ_le hb),
      List.take_succ_eq_append_getElem (Nat.lt_of_succ_le hb), List.map_append]
    simp [hget]

/-- **Each packet of an answered sub-op was accepted exactly once.** -/
theorem Inv.accepted_perm (h : Inv ctx r k sent popped acc) {ptr : ℕ} (hptr : ptr ∈ pushed r.log) :
    ((acceptedCuts r.log).filter fun c => c.subOp = ptr).Perm (r.worker.cutsOf ctx ptr) := by
  obtain ⟨rest, hsplit, hbehind⟩ := h.behind
  have hlater : ∀ l : List Cut, (∀ c ∈ l, ptr < c.subOp) →
      l.filter (fun c => c.subOp = ptr) = [] := fun l hl =>
    List.filter_eq_nil_iff.mpr fun c hc => by simpa using Nat.ne_of_gt (hl c hc)
  have hle := h.window.holds.le
  -- the indices accepted are those shifted out and some in the window
  have hfirst : (acc.filter fun j => j < completed r.log).Perm (List.range (completed r.log)) := by
    refine (List.perm_ext_iff_of_nodup (h.window.nodup.filter _) List.nodup_range).mpr fun j => ?_
    rw [List.mem_filter, List.mem_range, decide_eq_true_iff]
    exact ⟨fun hj => hj.2, fun hj => ⟨h.window.done j hj, hj⟩⟩
  have hsplitAcc : acc.Perm (List.range (completed r.log) ++
      acc.filter fun j => !decide (j < completed r.log)) :=
    (List.filter_append_perm _ acc).symm.trans (hfirst.append_right _)
  have hrest : ((acc.filter fun j => !decide (j < completed r.log)).filterMap fun j =>
      ((built r.log)[j]?).map PktState.cut).filter (fun c => c.subOp = ptr) = [] := by
    refine hlater _ fun c hc => ?_
    obtain ⟨j, hj, hget⟩ := List.mem_filterMap.mp hc
    obtain ⟨p, hp, rfl⟩ := Option.map_eq_some_iff.mp hget
    refine hbehind ptr hptr _ (List.mem_append_left _ (List.mem_map_of_mem ?_))
    have hge : completed r.log ≤ j := by simpa using (List.mem_filter.mp hj).2
    refine List.mem_iff_getElem?.mpr ⟨j - completed r.log, ?_⟩
    rw [List.getElem?_drop, Nat.add_sub_cancel' hge, hp]
  have hlt : ptr < r.worker.heap.length :=
    Nat.lt_of_lt_of_le (List.mem_range.mp (h.pushed_range.subset hptr)) h.cursor.le
  have hcuts : (((built r.log).take (completed r.log)).map PktState.cut).filter
      (fun c => c.subOp = ptr) = r.worker.cutsOf ctx ptr := by
    rw [← cuts_filter hlt, hsplit, List.filter_append, hlater _ (hbehind ptr hptr), List.append_nil]
  rw [h.window.acceptedCuts_eq, ← hcuts, ← filterMap_range _ hle]
  have hperm := (hsplitAcc.filterMap fun j => ((built r.log)[j]?).map PktState.cut).filter
    fun c => c.subOp = ptr
  rwa [List.filterMap_append, List.filter_append, hrest, List.append_nil] at hperm

/-- The packets of a sub-op cover its bytes once. -/
theorem cover_count (data size addr n : ℕ) :
    (List.range n).countP (fun j => decide (data + j * payloadSize ≤ addr ∧
      addr < data + j * payloadSize + min payloadSize (size - j * payloadSize))) =
    if data ≤ addr ∧ addr < data + min size (n * payloadSize) then 1 else 0 := by
  induction n with
  | zero => simp
  | succ n ih =>
    rw [List.range_succ, List.countP_append, ih, List.countP_singleton]
    clear ih
    simp only [decide_eq_true_eq]
    split <;> split <;> split <;> simp only [payloadSize] at * <;> omega

/-- PSNs less than a wrap apart differ. -/
theorem psn_count (start : BitVec 32) {n j : ℕ} (hj : j < n) (hn : n ≤ 2 ^ 32) :
    (List.range n).countP (fun i =>
      decide (start + BitVec.ofNat 32 i = start + BitVec.ofNat 32 j)) = 1 := by
  have hcount : (List.range n).countP (fun i => i == j) = 1 := by
    rw [← List.count]
    exact List.count_eq_one_of_mem List.nodup_range (List.mem_range.mpr hj)
  rw [← hcount]
  refine List.countP_congr fun i hi => ?_
  have hi' := List.mem_range.mp hi
  rw [decide_eq_true_iff, beq_iff_eq]
  refine ⟨fun he => ?_, fun he => by rw [he]⟩
  have hnum : BitVec.ofNat 32 i = BitVec.ofNat 32 j := by grind
  have hnat := congrArg BitVec.toNat hnum
  rwa [BitVec.toNat_ofNat, BitVec.toNat_ofNat, Nat.mod_eq_of_lt (Nat.lt_of_lt_of_le hi' hn),
    Nat.mod_eq_of_lt (Nat.lt_of_lt_of_le hj hn)] at hnat

/-- The writes of one sub-op. -/
theorem writes_count {w : Worker} {ptr addr : ℕ} (cs : List Cut) :
    (cs.flatMap w.writes).countP (fun x => decide (x.1 = ptr ∧ x.2.1 ≤ addr ∧
      addr < x.2.1 + x.2.2)) =
    ((cs.filter fun c => c.subOp = ptr).flatMap w.writes).countP (fun x => decide (x.1 = ptr ∧
      x.2.1 ≤ addr ∧ addr < x.2.1 + x.2.2)) := by
  induction cs with
  | nil => rfl
  | cons c cs ih =>
    rw [List.flatMap_cons, List.countP_append, ih, List.filter_cons]
    by_cases hc : c.subOp = ptr
    · rw [if_pos (by simpa using hc), List.flatMap_cons, List.countP_append]
    · rw [if_neg (by simpa using hc), Nat.add_eq_right, List.countP_eq_zero]
      intro x hx
      rw [Worker.writes] at hx
      split at hx
      · rw [List.mem_singleton.mp hx]
        simp [hc]
      · exact absurd hx List.not_mem_nil

theorem size_le_pktCount (s : SubOp) : s.size ≤ pktCount s * payloadSize := by
  rw [pktCount]
  split <;> simp only [payloadSize] at * <;> omega

/-- The writes for all packets of a sub-op, whole words for an op the switch adds. -/
theorem writes_cutsOf {w : Worker} {ptr : ℕ} (addr : ℕ)
    (hwords : (w.subOp ptr).op.reduces = true → 4 ∣ (w.subOp ptr).size) :
    ((w.cutsOf ctx ptr).flatMap w.writes).countP (fun x => decide (x.1 = ptr ∧ x.2.1 ≤ addr ∧
      addr < x.2.1 + x.2.2)) =
    if needRx (w.subOp ptr).op = true ∧ (w.subOp ptr).data ≤ addr ∧
      addr < (w.subOp ptr).data + (w.subOp ptr).size then 1 else 0 := by
  have hone : ∀ j, w.writes (cutAt ptr (w.subOp ptr)
      (psnAfter ctx (w.heap.take ptr) (w.subOp ptr).op.group.groupId) j) =
      if needRx (w.subOp ptr).op = true then [(ptr, (w.subOp ptr).data + j * payloadSize,
        min payloadSize ((w.subOp ptr).size - j * payloadSize))] else [] := by
    intro j
    generalize hlen : min payloadSize ((w.subOp ptr).size - j * payloadSize) = len
    have hw : w.writes (cutAt ptr (w.subOp ptr)
        (psnAfter ctx (w.heap.take ptr) (w.subOp ptr).op.group.groupId) j) =
        if needRx (w.subOp ptr).op then [(ptr, (w.subOp ptr).data + j * payloadSize,
          if (w.subOp ptr).op.reduces then len / 4 * 4 else len)] else [] := hlen ▸ rfl
    rw [hw]
    by_cases hadd : (w.subOp ptr).op.reduces = true
    · obtain ⟨q, hq⟩ := hwords hadd
      have hfour : len / 4 * 4 = len := by
        rw [← hlen, hq]
        simp only [payloadSize]
        omega
      rw [if_pos hadd, hfour]
    · rw [if_neg hadd]
  rw [Worker.cutsOf, cutSubOp, List.flatMap_map]
  by_cases hrx : needRx (w.subOp ptr).op = true
  · have hcover := cover_count (w.subOp ptr).data (w.subOp ptr).size addr (pktCount (w.subOp ptr))
    have hmin : min (w.subOp ptr).size (pktCount (w.subOp ptr) * payloadSize) =
        (w.subOp ptr).size := Nat.min_eq_left (size_le_pktCount _)
    rw [hmin] at hcover
    simp only [hone, hrx, if_true, true_and]
    rw [← hcover, ← List.map_eq_flatMap, List.countP_map]
    exact List.countP_congr fun j _ => by simp
  · simp only [hone, hrx]
    simp

/-! ## 7. Memory -/

/-- The byte of a response that goes to the `i`-th byte of its packet. -/
def Frame.byteFor (f : Frame) (op : Op) (i : ℕ) : Byte :=
  f.payload (if op.reduces then i / 4 * 4 + (3 - i % 4) else i)

/-- An address the events say was written. -/
def Written (events : List Event) (addr : ℕ) : Prop :=
  ∃ x ∈ wrote events, x.2.1 ≤ addr ∧ addr < x.2.1 + x.2.2

instance (events : List Event) : DecidablePred (Written events) := fun addr =>
  inferInstanceAs (Decidable (∃ x ∈ wrote events, x.2.1 ≤ addr ∧ addr < x.2.1 + x.2.2))

/-- Writing `size` bytes through a pointer. -/
theorem storeAt_copied {copy : (ℕ → Byte) → ℕ → Byte} {src : ℕ → Byte} {size : ℕ}
    (h : ∀ dst i, copy dst i = if i < size then src i else dst i) (mem : ℕ → Byte) (start addr : ℕ) :
    storeAt mem start copy addr =
      if start ≤ addr ∧ addr < start + size then src (addr - start) else mem addr := by
  rw [storeAt]
  split
  · rename_i hle
    rw [h]
    by_cases hlt : addr < start + size
    · rw [if_pos (by omega), if_pos ⟨hle, hlt⟩]
    · rw [if_neg (by omega), if_neg fun hin => hlt hin.2, Nat.add_sub_cancel' hle]
  · rename_i hle
    rw [if_neg fun hin => hle hin.1]

/-- **The events tell what memory got**: the bytes of the response where they say so, and
nothing elsewhere. -/
theorem copyPayload_wrote (w : Worker) (p : PktState) (f : Frame) (addr : ℕ) :
    (w.copyPayload p f).1.mem addr =
      if Written (w.copyPayload p f).2 addr then f.byteFor (w.subOp p.subOp).op (addr - p.data)
      else w.mem addr := by
  have hone : ∀ len, Written [.deref p.subOp, .wrote p.subOp p.data len] addr ↔
      p.data ≤ addr ∧ addr < p.data + len := fun len => by simp [Written, wrote]
  simp only [Worker.copyPayload, Frame.byteFor]
  split
  · split
    · simp only [hone]
      exact storeAt_copied (fun _ _ => rfl) w.mem p.data addr
    · simp only [hone]
      exact storeAt_copied (fun _ _ => rfl) w.mem p.data addr
  · rw [if_neg]
    rintro ⟨x, hx, -⟩
    exact absurd hx List.not_mem_nil

theorem copyPayload_written {w : Worker} {p : PktState} {f : Frame} {addr : ℕ}
    (h : Written (w.copyPayload p f).2 addr) : p.data ≤ addr ∧ addr < p.data + p.size := by
  obtain ⟨x, hx, hle, hlt⟩ := h
  rw [wrote_copyPayload, Worker.writes] at hx
  split at hx
  · rw [List.mem_singleton.mp hx] at hle hlt
    refine ⟨hle, Nat.lt_of_lt_of_le hlt (Nat.add_le_add_left ?_ _)⟩
    dsimp only
    split
    · exact Nat.div_mul_le_self _ _
    · exact Nat.le_refl _
  · exact absurd hx List.not_mem_nil

theorem copyPayload_mem {w : Worker} {p : PktState} {f : Frame} {addr : ℕ}
    (h : (w.copyPayload p f).1.mem addr ≠ w.mem addr) : p.data ≤ addr ∧ addr < p.data + p.size := by
  rw [copyPayload_wrote] at h
  by_cases hw : Written (w.copyPayload p f).2 addr
  · exact copyPayload_written hw
  · exact absurd (if_neg hw) h

/-- A packet's bytes are bytes of its sub-op. -/
theorem Cursor.built_range (h : Cursor ctx r k sent) {p : PktState} (hp : p ∈ built r.log)
    {addr : ℕ} (hle : p.data ≤ addr) (hlt : addr < p.data + p.size) :
    (r.worker.subOp p.subOp).data ≤ addr ∧
      addr < (r.worker.subOp p.subOp).data + (r.worker.subOp p.subOp).size := by
  have hmem : p.cut ∈ (cuts ctx r.worker.heap).filter fun c => c.subOp = p.subOp :=
    List.mem_filter.mpr ⟨h.built_cuts.subset (List.mem_map_of_mem hp), decide_eq_true rfl⟩
  rw [cuts_filter (h.header p hp).2.1] at hmem
  obtain ⟨j, -, hcut⟩ := mem_cutSubOp hmem
  have hdata : p.data = _ := congrArg Cut.data hcut
  have hsize : p.size = _ := congrArg Cut.size hcut
  simp only [cutAt] at hdata hsize
  omega

/-- **What is said to be written is what memory gets**, in every step but a store of someone
else. -/
theorem Inv.mem_written {l : Label} {events : List Event} (h : Inv ctx r k sent popped acc)
    (hstep : r.Step l r') (hlog : r'.log = r.log ++ events) (hstore : ∀ addr b, l ≠ .store addr b)
    (addr : ℕ) :
    (¬ Written events addr → r'.worker.mem addr = r.worker.mem addr) ∧
    (Written events addr → ∃ f, l = .receive f ∧ ∃ p ∈ built r.log, p.subOp ∉ pushed r.log ∧
      f.inc.psn = p.psn ∧ p.data ≤ addr ∧ addr < p.data + p.size ∧
      r'.worker.mem addr = f.byteFor (r.worker.subOp p.subOp).op (addr - p.data)) := by
  obtain ⟨hmem, hnone, -⟩ | ⟨f, hl, p, hp, hun, hpsn, hmem, hsame, -⟩ :=
    h.step_writes hstep hlog
  · constructor
    · intro _
      rw [hmem hstore]
    · rintro ⟨x, hx, -⟩
      rw [hnone] at hx
      exact absurd hx List.not_mem_nil
  · have hiff : Written events addr ↔ Written (r.worker.copyPayload p f).2 addr := by
      rw [Written, Written, hsame, wrote_copyPayload]
    constructor
    · intro hno
      rw [hmem, copyPayload_wrote, if_neg fun hin => hno (hiff.mpr hin)]
    · intro hw
      have hin := hiff.mp hw
      obtain ⟨hle, hlt⟩ := copyPayload_written hin
      refine ⟨f, hl, p, hp, hun, hpsn, hle, hlt, ?_⟩
      rw [hmem, copyPayload_wrote, if_pos hin]

/-- **A step writes only into the range of an unanswered sub-op.** -/
theorem Inv.mem_step {l : Label} (h : Inv ctx r k sent popped acc) (hstep : r.Step l r')
    (hstore : ∀ addr b, l ≠ .store addr b) {addr : ℕ}
    (hne : r'.worker.mem addr ≠ r.worker.mem addr) :
    ∃ ptr < r.worker.heap.length, ptr ∉ pushed r.log ∧ (r.worker.subOp ptr).data ≤ addr ∧
      addr < (r.worker.subOp ptr).data + (r.worker.subOp ptr).size := by
  obtain ⟨events, -, hlog⟩ := id hstep
  obtain ⟨hsame, hcopied⟩ := h.mem_written hstep hlog hstore addr
  by_cases hw : Written events addr
  · obtain ⟨-, -, p, hp, hun, -, hle, hlt, -⟩ := hcopied hw
    exact ⟨p.subOp, (h.cursor.header p hp).2.1, hun, h.cursor.built_range hp hle hlt⟩
  · exact absurd (hsame hw) hne

/-! ## 8. Completion -/

/-- Everything carried along a run. -/
theorem completion_reach (h : Reach (Run.Init ctx) Run.Step Orderly r) :
    Promised r ∧ r.WritesAccepted ∧ Retires r.log ∧ ∃ k sent popped acc, Inv ctx r k sent popped acc :=
  h.invariant (P := fun r => Promised r ∧ r.WritesAccepted ∧ Retires r.log ∧
      ∃ k sent popped acc, Inv ctx r k sent popped acc)
    (fun r hi => by
      refine ⟨.init hi, ?_, ?_, 0, 0, 0, [], .init hi⟩
      · rw [Run.WritesAccepted, hi.2]; rfl
      · rw [Retires, hi.2]; exact List.Pairwise.nil)
    fun _ _ _ ⟨hp, hw, hr, _, _, _, _, hinv⟩ hok hs => by
      obtain ⟨k', sent', popped', acc', hinv', -⟩ := hinv.step (hinv.not_mixes hp.group) hs
      exact ⟨hp.step hinv.cursor hok hs, hinv.writesAccepted hw hs, hinv.retires hr hs,
        k', sent', popped', acc', hinv'⟩

/-- How often a byte was written for a sub-op. -/
def writesAt (log : List Event) (ptr addr : ℕ) : ℕ :=
  (wrote log).countP fun x => decide (x.1 = ptr ∧ x.2.1 ≤ addr ∧ addr < x.2.1 + x.2.2)

/-- How often a response with a PSN was accepted for a sub-op. -/
def acceptedAt (log : List Event) (ptr : ℕ) (psn : BitVec 32) : ℕ :=
  (accepted log).countP fun a => decide (a.1.subOp = ptr ∧ a.2.inc.psn = psn)

/-- The first PSN of a sub-op. -/
def Worker.startPsn (w : Worker) (ctx : BitVec 8 → BitVec 32) (ptr : ℕ) : BitVec 32 :=
  psnAfter ctx (w.heap.take ptr) (w.subOp ptr).op.group.groupId

/-- **Completion is exact.**  In every run in which sub-ops of another group are queued only
after all earlier ones are answered: answers are given in the order the sub-ops were taken,
each once; every PSN of an answered sub-op was accepted once, and its bytes, when this rank
receives, were written once and no others; after its answer a sub-op is never touched, and
memory changes only in the ranges of sub-ops not answered yet. -/
theorem completion_exact (h : Reach (Run.Init ctx) Run.Step Orderly r) :
    pushed r.log <+: took r.log ∧ (took r.log).Nodup ∧
    (∀ ptr ∈ pushed r.log,
      (∀ j < pktCount (r.worker.subOp ptr),
        acceptedAt r.log ptr (r.worker.startPsn ctx ptr + BitVec.ofNat 32 j) = 1) ∧
      ∀ addr, writesAt r.log ptr addr =
        if needRx (r.worker.subOp ptr).op = true ∧ (r.worker.subOp ptr).data ≤ addr ∧
          addr < (r.worker.subOp ptr).data + (r.worker.subOp ptr).size then 1 else 0) ∧
    Retires r.log ∧
    ∀ l r', r.Step l r' → (∀ addr b, l ≠ .store addr b) →
      ∀ addr, r'.worker.mem addr ≠ r.worker.mem addr →
        ∃ ptr < r.worker.heap.length, ptr ∉ pushed r.log ∧ (r.worker.subOp ptr).data ≤ addr ∧
          addr < (r.worker.subOp ptr).data + (r.worker.subOp ptr).size := by
  obtain ⟨hp, hw, hr, k, sent, popped, acc, hinv⟩ := completion_reach h
  refine ⟨?_, ?_, fun ptr hptr => ?_, hr, fun l r' hstep hstore addr => hinv.mem_step hstep hstore⟩
  · refine hinv.pushed_range.trans ?_
    rw [hinv.cursor.took]
    split
    · exact List.prefix_refl _
    · exact List.range_succ ▸ List.prefix_append _ _
  · rw [hinv.cursor.took]
    exact List.nodup_range
  have hlt : ptr < r.worker.heap.length :=
    Nat.lt_of_lt_of_le (List.mem_range.mp (hinv.pushed_range.subset hptr)) hinv.cursor.le
  have hperm := hinv.accepted_perm hptr
  refine ⟨fun j hj => ?_, fun addr => ?_⟩
  · have hmap : acceptedAt r.log ptr (r.worker.startPsn ctx ptr + BitVec.ofNat 32 j) =
        ((acceptedCuts r.log).filter fun c => c.subOp = ptr).countP fun c =>
          decide (c.psn = r.worker.startPsn ctx ptr + BitVec.ofNat 32 j) := by
      rw [acceptedAt, acceptedCuts, List.countP_filter, List.countP_map]
      refine List.countP_congr fun a ha => ?_
      obtain ⟨p, -, hcut, hpsn⟩ := hinv.window.accepted_built ha
      have hpsn' : a.1.psn = a.2.inc.psn := (congrArg Cut.psn hcut).trans hpsn.symm
      simp [PktState.cut, hpsn', and_comm]
    have hsize : pktCount (r.worker.subOp ptr) ≤ 2 ^ 32 := by
      have := hp.size ptr hlt
      rw [pktCount]
      split <;> simp only [payloadSize] at * <;> omega
    rw [hmap, hperm.countP_eq, Worker.cutsOf, cutSubOp, List.countP_map]
    exact psn_count _ hj hsize
  · have hwrote : wrote r.log = _ := hw
    rw [writesAt, hwrote, writes_count, (hperm.flatMap_right _).countP_eq,
      writes_cutsOf addr (hp.words ptr hlt)]

/-- The promise, computed. -/
def keepsPromise (r : Run) : Label → Bool
  | .pushReq s =>
    ((List.range r.worker.heap.length).all fun ptr => decide (ptr ∈ pushed r.log) ||
      (r.worker.subOp ptr).op.group.groupId == s.op.group.groupId) &&
    (!s.op.reduces || s.size % 4 == 0) && decide (s.size < 2 ^ 32)
  | _ => true

theorem keepsPromise_orderly (r : Run) (l : Label) (h : keepsPromise r l = true) : Orderly r l := by
  cases l with
  | pushReq s =>
    simp only [keepsPromise, Bool.and_eq_true, decide_eq_true_eq, List.all_eq_true,
      List.mem_range, Bool.or_eq_true, beq_iff_eq, Bool.not_eq_true'] at h
    obtain ⟨⟨hgroup, hwords⟩, hsize⟩ := h
    refine ⟨fun ptr hptr hun => (hgroup ptr hptr).resolve_left hun, fun hred => ?_, hsize⟩
    exact Nat.dvd_of_mod_eq_zero (hwords.resolve_left (by simp [hred]))
  | _ => trivial

/-- A sub-op of three packets, answered out of order and one of them twice; then one of
another group. -/
def threeThenOther : List Label :=
  [.pushReq { emptySubOp 1 with size := 600 }, .loopTop 0, .endRx, .startTx, .sendOne, .sendOne,
    .sendOne, .sendOne, .congestion, .loopTop 1, .receive (answer 0 0), .receive (answer 2 0),
    .receive (answer 2 0), .receive (answer 1 0), .endRx, .pushReq (emptySubOp 2), .startTx,
    .sendOne]

/-- The three answers are accepted once each, and the 600 bytes written once each. -/
theorem completion_exact_three : ∃ r, Run.start.exec keepsPromise threeThenOther = some r ∧
    pushed r.log = [0] ∧ (built r.log).length = 4 ∧
    (∀ j < 3, acceptedAt r.log 0 (BitVec.ofNat 32 j) = 1) ∧
    ∀ addr, writesAt r.log 0 addr = if addr < 600 then 1 else 0 := by
  have hrun : (Run.start.exec keepsPromise threeThenOther).map (fun r =>
      (pushed r.log, (built r.log).length, decide (pktCount (r.worker.subOp 0) = 3 ∧
        r.worker.startPsn (fun _ => 0) 0 = 0 ∧ needRx (r.worker.subOp 0).op = true ∧
        (r.worker.subOp 0).data = 0 ∧ (r.worker.subOp 0).size = 600))) =
      some ([0], 4, true) := by decide +kernel
  obtain ⟨r, hr, hview⟩ := Option.map_eq_some_iff.mp hrun
  simp only [Prod.mk.injEq] at hview
  obtain ⟨hpush, hbuilt, hview⟩ := hview
  obtain ⟨hcount, hstart, hrx, hdata, hsize⟩ := of_decide_eq_true hview
  obtain ⟨-, -, hall, -⟩ :=
    completion_exact (Run.exec_reach keepsPromise_orderly _ (.init Run.start_init) hr)
  obtain ⟨hacc, hwrote⟩ := hall 0 (by rw [hpush]; exact List.mem_cons_self)
  rw [hcount, hstart] at hacc
  rw [hrx, hdata, hsize] at hwrote
  refine ⟨r, hr, hpush, hbuilt, fun j hj => ?_, fun addr => ?_⟩
  · simpa using hacc j hj
  · simpa using hwrote addr

end NetCCL.Backend
