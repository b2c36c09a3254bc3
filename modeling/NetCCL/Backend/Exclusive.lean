/-
# Group exclusivity of the send window

All packets sent and not yet shifted out should be of one group, the current one.  `gen_pkt`
tests `window_tx_empty` before it turns to a sub-op of another group, but the test reads the
stored `to_send`, which stays where it was until the loop of `shift_send` is over.  So a loop
that began with an empty window can send the last packet of one group and turn to another.

* `window_exclusive`: without such a step (`Mixes`) the window is exclusive in every run, and no
  such step leaves it so;
* `window_exclusive_fails`: with two short sub-ops of different groups in the queue it is not.
-/
import NetCCL.Backend.Steps

namespace NetCCL.Backend

open Lib

/-! ## 1. Exclusivity -/

/-- The packets sent and not yet shifted out. -/
def inFlight (log : List Event) : List PktState := (built log).drop (completed log)

/-- All outstanding packets are of the current group. -/
def Run.Exclusive (r : Run) : Prop :=
  ∀ p ∈ inFlight r.log, p.pkt.inc.groupId = r.worker.currentGroupId

variable {ctx : BitVec 8 → BitVec 32} {r r' : Run} {k sent popped : ℕ} {acc : List ℕ}

theorem mem_inFlight {log : List Event} {p : PktState} (h : p ∈ inFlight log) :
    ∃ j, completed log ≤ j ∧ (built log)[j]? = some p := by
  obtain ⟨i, hi⟩ := List.mem_iff_getElem?.mp h
  rw [inFlight, List.getElem?_drop] at hi
  exact ⟨_, Nat.le_add_right _ _, hi⟩

theorem InWindow.exclusive (h : InWindow r acc) : r.Exclusive := fun p hp => by
  obtain ⟨j, hj, hget⟩ := mem_inFlight hp
  exact h.group j p hj hget

/-- The array shows exactly the outstanding packets, in order. -/
theorem InWindow.array (h : InWindow r acc) :
    (walk maxWinLen r.worker.window.toAck r.worker.sendPos).map
      (fun pos => (r.worker.window.state pos).cut) = (inFlight r.log).map PktState.cut := by
  have hle := h.holds.le
  have hbound := h.holds.bound
  rw [h.holds.toAck, h.sendPos, walk_mod _ _ _ hle (by simp only [maxWinLen] at *; omega)
    (by simp only [maxWinLen] at *; omega), List.map_map, inFlight]
  refine List.ext_getElem? fun i => ?_
  rw [List.getElem?_map, List.getElem?_map, List.getElem?_drop]
  rcases Nat.lt_or_ge (completed r.log + i) (built r.log).length with hi | hi
  · have hget := List.getElem?_eq_getElem hi
    rw [hget, List.getElem?_range' (by omega : i < _), Option.map_some, Option.map_some,
      Nat.one_mul, Function.comp_apply, h.holds.state _ _ (Nat.le_add_right _ _) hget]
    rfl
  · rw [List.getElem?_eq_none hi, List.getElem?_eq_none (by rw [List.length_range']; omega)]
    rfl

/-- Another group is turned to only when nothing is outstanding. -/
theorem Inv.turns {l : Label} (h : Inv ctx r k sent popped acc) (hmix : ¬ Mixes r l)
    (hstep : r.Step l r') (hgroup : r'.worker.currentGroupId ≠ r.worker.currentGroupId) :
    inFlight r.log = [] := by
  obtain ⟨events, hlog, hcase⟩ := step_cases h.cursor hstep
  cases hcase with
  | quiet hs => exact absurd hs.group hgroup
  | pushReq _ hr => exact absurd (by rw [hr]) hgroup
  | popResp _ hr => exact absurd (by rw [hr]) hgroup
  | accept _ _ hat =>
    obtain ⟨-, ⟨_, _, _, _, hr⟩, -⟩ := hat
    exact absurd (by rw [hr]) hgroup
  | endRx => exact absurd (step_sameQueue hstep.choose_spec.1 (by simp) (by simp)).1.group hgroup
  | startTx => exact absurd (step_sameQueue hstep.choose_spec.1 (by simp) (by simp)).1.group hgroup
  | endTx _ hr => exact absurd (by rw [hr]; rfl) hgroup
  | sent hpc hlt hs hpre =>
    have h0 := (h.group_of_sent hmix hpc hlt hpre).resolve_left fun he =>
      hgroup (hs.group.trans he)
    have hwin := (h.window.send _ _ _ hpc).1
    exact List.drop_eq_nil_of_le (by omega)

/-! ## 2. The slip -/

/-- **The slip always breaks exclusivity.** -/
theorem Mixes.breaks {l : Label} (hinv : Inv ctx r k sent popped acc) (h : Mixes r l)
    (hstep : r.Step l r') : ¬ r'.Exclusive := by
  obtain ⟨rfl, toSend, winLen, expectWinLen, ptr, hpc, hlt, h0, hgen, hfront, hgroup, hempty⟩ := h
  obtain ⟨rfl, hk⟩ := hinv.cursor.frontReq hfront
  have hwin := (hinv.window.send _ _ _ hpc).1
  obtain ⟨p, hp, hpg⟩ : ∃ p, (built r.log)[completed r.log]? = some p ∧
      p.pkt.inc.groupId = r.worker.currentGroupId := by
    have hopen : completed r.log < (built r.log).length := by omega
    have hget := List.getElem?_eq_getElem hopen
    exact ⟨_, hget, hinv.window.group _ _ (Nat.le_refl _) hget⟩
  rcases hinv.cursor.sendOne hpc hstep with ⟨events, hlog, hr, hev, -⟩ |
    ⟨q, pre, _, _, -, hpre, hs, hlog, -⟩
  · -- the loop does not end here: there is room, and `gen_pkt` does not refuse
    obtain ⟨ev, hw, -⟩ := hstep
    have hcc : r'.worker.pc = .cc := by rw [hr]; rfl
    simp only [Worker.step, hpc, Worker.sendOne, if_pos hlt, Worker.genPkt, hgen, Worker.nextSubOp,
      hfront, hempty, Bool.true_eq_false, and_false, if_false] at hw
    rw [← (Prod.mk.inj (Option.some.inj hw)).1] at hcc
    exact absurd hcc (by simp)
  · intro hex
    have hpre0 : built pre = [] ∧ completed pre = 0 := by cases hpre <;> exact ⟨rfl, rfl⟩
    have hb : built r'.log = built r.log ++ [q] := by
      rw [hlog, built_append, built_append, hpre0.1]; rfl
    have hc : completed r'.log = completed r.log := by
      rw [hlog, completed_append, completed_append, hpre0.2]; rfl
    have hmem : p ∈ inFlight r'.log := by
      rw [inFlight, hb, hc, List.drop_append_of_le_length (by omega)]
      refine List.mem_append_left _ (List.mem_iff_getElem?.mpr ⟨0, ?_⟩)
      rw [List.getElem?_drop]
      exact hp
    rw [hex p hmem, hs.group] at hpg
    exact hgroup hpg

/-- **The window is exclusive** in every run without the slip, and turns to another group only
when it is empty; the first slip is the end of it. -/
theorem window_exclusive (h : Reach (Run.Init ctx) Run.Step (fun r l => ¬ Mixes r l) r) :
    r.Exclusive ∧ ∀ l r', r.Step l r' → (r'.Exclusive ↔ ¬ Mixes r l) ∧
      (¬ Mixes r l → r'.worker.currentGroupId ≠ r.worker.currentGroupId →
        inFlight r.log = []) := by
  obtain ⟨k, sent, popped, acc, hinv⟩ := inv_reach h
  refine ⟨hinv.window.exclusive, fun l r' hstep =>
    ⟨⟨fun hex hmix => hmix.breaks hinv hstep hex, fun hmix => ?_⟩,
      fun hmix => hinv.turns hmix hstep⟩⟩
  obtain ⟨_, _, _, _, hinv', -⟩ := hinv.step hmix hstep
  exact hinv'.window.exclusive

/-! ## 3. Concrete runs -/

/-- One step of a run, computed. -/
def Run.exec1 (r : Run) (l : Label) : Option Run :=
  (r.worker.step l).map fun (w, events) => ⟨w, r.log ++ events⟩

theorem Run.exec1_step {r r' : Run} {l : Label} (h : r.exec1 l = some r') : r.Step l r' := by
  obtain ⟨⟨w, events⟩, hw, rfl⟩ := Option.map_eq_some_iff.mp h
  exact ⟨events, hw, rfl⟩

/-- Some steps, each allowed by `ok`. -/
def Run.exec (ok : Run → Label → Bool) (r : Run) : List Label → Option Run
  | [] => some r
  | l :: ls => if ok r l then (r.exec1 l).bind fun r' => r'.exec ok ls else none

theorem Run.exec_reach {ok : Run → Label → Bool} {P : Run → Label → Prop}
    (hok : ∀ r l, ok r l = true → P r l) (ls : List Label) :
    ∀ {r r' : Run}, Reach (Run.Init ctx) Run.Step P r → r.exec ok ls = some r' →
      Reach (Run.Init ctx) Run.Step P r' := by
  induction ls with
  | nil =>
    intro r r' hr h
    exact Option.some.inj h ▸ hr
  | cons l ls ih =>
    intro r r' hr h
    rw [Run.exec] at h
    split at h
    · obtain ⟨r₁, h₁, hrest⟩ := Option.bind_eq_some_iff.mp h
      exact ih (.step hr (hok r l ‹_›) (exec1_step h₁)) hrest
    · exact absurd h (by simp)

/-- A run on empty memory, before it begins. -/
def Run.start : Run where
  worker := .init (fun _ => 0) (fun _ => ⟨⟨0, 0, 0, 0, 0, 0⟩, 0, 0, fun _ => 0⟩) fun _ => 0
  log := []

theorem Run.start_init : Run.start.Init fun _ => 0 := ⟨⟨_, _, rfl⟩, rfl⟩

/-- An empty all-reduce of a group. -/
def emptySubOp (groupId : BitVec 8) : SubOp :=
  ⟨⟨.allReduce, 0, 0, 0, ⟨groupId, 2, 0, 0, 64⟩⟩, 0, 0, 0, 64⟩

/-- One loop of `worker_loop` with sub-ops of two groups waiting. -/
def twoGroups : List Label :=
  [.pushReq (emptySubOp 1), .pushReq (emptySubOp 2), .loopTop 0, .endRx, .startTx, .sendOne,
    .sendOne]

/-- The groups of the outstanding packets, and the current group. -/
def Run.groups (r : Run) : List (BitVec 8) × BitVec 8 :=
  ((inFlight r.log).map fun p => p.pkt.inc.groupId, r.worker.currentGroupId)

/-- **Exclusivity fails**: the loop sends the packet of the first sub-op and then turns to the
second, of another group. -/
theorem window_exclusive_fails : ∃ r, Run.start.exec (fun _ _ => true) twoGroups = some r ∧
    Reach (Run.Init fun _ => 0) Run.Step Free r ∧ ¬ r.Exclusive := by
  have hgroups : (Run.start.exec (fun _ _ => true) twoGroups).map Run.groups =
      some ([1, 2], 2) := by decide +kernel
  obtain ⟨r, hr, hg⟩ := Option.map_eq_some_iff.mp hgroups
  refine ⟨r, hr, Run.exec_reach (fun _ _ _ => trivial) _ (.init Run.start_init) hr, fun hex => ?_⟩
  obtain ⟨hfirst, hcur⟩ := Prod.mk.inj hg
  have hmem : (1 : BitVec 8) ∈ (inFlight r.log).map fun p => p.pkt.inc.groupId := by
    rw [hfirst]
    exact List.mem_cons_self
  obtain ⟨p, hp, hone⟩ := List.mem_map.mp hmem
  have htwo := hex p hp
  rw [hone, hcur] at htwo
  exact absurd htwo (by decide)

/-- Steps that are not the slip: a sub-op that is taken inside the loop is of the current group. -/
def keepsGroup (r : Run) : Label → Bool
  | .sendOne => match r.worker.pc, r.worker.gen.subOp, r.worker.qp.frontReq with
    | .send _ winLen _, none, some ptr => winLen == 0 ||
        (r.worker.subOp ptr).op.group.groupId == r.worker.currentGroupId
    | _, _, _ => true
  | _ => true

theorem keepsGroup_not_mixes (r : Run) (l : Label) (h : keepsGroup r l = true) : ¬ Mixes r l := by
  rintro ⟨rfl, _, _, _, _, hpc, -, h0, hidle, hfront, hgroup, -⟩
  simp only [keepsGroup, hpc, hidle, hfront, Bool.or_eq_true, beq_iff_eq] at h
  exact h.elim h0 hgroup

/-- The answer to an all-reduce of group 1. -/
def answer (psn : BitVec 32) (typeOfService : BitVec 8) : Frame :=
  ⟨⟨1, 1, 0, 0, 0, psn⟩, typeOfService, 300, fun _ => 7⟩

/-- Two sub-ops of one group in one loop; then, when both are answered, one of another. -/
def oneThenOther : List Label :=
  [.pushReq (emptySubOp 1), .pushReq (emptySubOp 1), .loopTop 0, .endRx, .startTx, .sendOne,
    .sendOne, .sendOne, .congestion, .pushReq (emptySubOp 2), .loopTop 1, .receive (answer 0 0),
    .receive (answer 1 0), .endRx, .startTx]

/-- The worker turns to the other group, and the window is exclusive before and after. -/
theorem window_exclusive_turn : ∃ r r', Run.start.exec keepsGroup oneThenOther = some r ∧
    r.Step .sendOne r' ∧ (built r.log).length = 2 ∧ r.worker.currentGroupId = 1 ∧
    r'.groups = ([2], 2) ∧ r.Exclusive ∧ inFlight r.log = [] ∧ r'.Exclusive := by
  have hrun : ((Run.start.exec keepsGroup oneThenOther).bind fun r =>
      (r.exec1 .sendOne).map fun r' => (keepsGroup r .sendOne, (built r.log).length,
        r.worker.currentGroupId, r'.groups)) = some (true, 2, 1, [2], 2) := by decide +kernel
  obtain ⟨r, hr, hview⟩ := Option.bind_eq_some_iff.mp hrun
  obtain ⟨r', hr', hview⟩ := Option.map_eq_some_iff.mp hview
  simp only [Prod.mk.injEq] at hview
  obtain ⟨hkeeps, hbuilt, hone, hgroups⟩ := hview
  have hstep := Run.exec1_step hr'
  have hmix := keepsGroup_not_mixes _ _ hkeeps
  obtain ⟨hex, hall⟩ :=
    window_exclusive (Run.exec_reach keepsGroup_not_mixes _ (.init Run.start_init) hr)
  obtain ⟨hnext, hturn⟩ := hall _ _ hstep
  have hother : (2 : BitVec 8) ≠ 1 := by decide
  refine ⟨r, r', hr, hstep, hbuilt, hone, hgroups, hex, hturn hmix ?_, hnext.mpr hmix⟩
  rw [hone]
  exact fun h => hother ((congrArg Prod.snd hgroups).symm.trans h)

end NetCCL.Backend
