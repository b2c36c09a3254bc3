/-
# `CreateGroup` under a driver that refuses

`CreateGroup` looks for its resources before it takes any, and returns the null group when one
is missing.  From then on it keeps the command that reverses each command it has executed, in
`undo_funcs`; a call that did not reach its end could be taken back with them.

* `Atomic` is what a call that returns no group should leave: everything as it was.
* `accepts` says that the driver refuses none of a list of operations, each in the state the
  operations before it have left.
* `Servicer.Ready` is what the controller keeps whatever was refused before: 0 is neither a
  free group nor one that an undo command gives back, and every recirculation port has a count.
* **The residual**: nothing catches the exception of a refused operation, and `undo_funcs` is a
  local variable until the call ends.  The block of memory is the first thing taken, so
  `createGroup_atomic` says that the call is atomic exactly when the driver accepts all it is
  asked, or is asked nothing.
-/
import NetCCL.Controller.Partitioned
import NetCCL.Lib.Reach

namespace NetCCL.Controller

open Lib

variable {topo : Topo} {raises : Installed → TableOp → Bool} {s s' : Servicer}
  {member : List ℕ} {index : ℕ} {v : GroupVars}

/-! ## 1. A call that changes nothing -/

/-- The resources, the undo lists and the entries in the switch are the same. -/
structure Servicer.Same (s s' : Servicer) : Prop where
  memseg : s'.memseg = s.memseg
  freeGroup : s'.freeGroup = s.freeGroup
  freeNode : s'.freeNode = s.freeNode
  recirPortCnt : s'.recirPortCnt = s.recirPortCnt
  undo : s'.undo = s.undo
  recirculate : s'.installed.recirculate = s.installed.recirculate
  metadata : s'.installed.metadata = s.installed.metadata
  restore : s'.installed.restore = s.installed.restore
  node : s'.installed.node = s.installed.node
  mgid : s'.installed.mgid = s.installed.mgid

theorem Servicer.Same.refl (s : Servicer) : s.Same s :=
  ⟨rfl, rfl, rfl, rfl, rfl, rfl, rfl, rfl, rfl, rfl⟩

/-- A call that does not return a group leaves everything as it was. -/
def Atomic (topo : Topo) (raises : Installed → TableOp → Bool) (s : Servicer)
    (member : List ℕ) : Prop :=
  (¬ ∃ r, (createGroup topo raises s member).2 = .ok r ∧ r.groupId ≠ 0) →
    s.Same (createGroup topo raises s member).1

/-- The local variables of `CreateGroup` once it has found its resources, with the index of the
entry of `memseg`; `none` for `No resource`. -/
def Servicer.vars (s : Servicer) (member : List ℕ) : Option (ℕ × GroupVars) :=
  match fitSeg s.memseg allocSize, s.freeGroup with
  | some (some (segIndex, segAddr)), groupid :: _ =>
    if s.freeNode.length < member.length then none
    else some (segIndex,
      { groupid, segAddr, member, node := s.freeNode.take member.length
        recirPortIdx := selectRecirPortIdx s.recirPortCnt })
  | _, _ => none

/-- The driver refuses none of these operations, made one after the other. -/
def accepts (raises : Installed → TableOp → Bool) : Installed → List TableOp → Bool
  | _, [] => true
  | t, op :: ops => !raises t op && accepts raises (op.apply t) ops

/-- No resource, or no refusal. -/
def Accepted (topo : Topo) (raises : Installed → TableOp → Bool) (s : Servicer)
    (member : List ℕ) : Bool :=
  match s.vars member with
  | none => true
  | some (_, v) => accepts raises s.installed ((tableScript topo v).map (·.1))

/-! ## 2. The two ways through `CreateGroup` -/

theorem createGroup_none (h : s.vars member = none) :
    createGroup topo raises s member = (s, .ok .null) := by
  simp only [Servicer.vars, fitSeg_allocSize] at h
  simp only [createGroup, fitSeg_allocSize]
  cases hfit : fitFrom allocSize 0 s.memseg with
  | none => rfl
  | some found =>
    cases hg : s.freeGroup with
    | nil => rfl
    | cons groupid fg =>
      simp only [hfit, hg, ite_eq_left_iff, reduceCtorEq, imp_false, not_not] at h
      exact if_pos h

theorem createGroup_some (h : s.vars member = some (index, v)) :
    createGroup topo raises s member =
      match execAll raises s ((script topo index v).map (·.1)) with
      | (s, some e) => (s, .error e)
      | (s, none) =>
        ({ s with undo := s.undo.filter (·.1 ≠ v.groupid) ++ [(v.groupid, undoFuncs topo v)] },
          .ok (v.response topo)) := by
  simp only [Servicer.vars, fitSeg_allocSize] at h
  simp only [createGroup, fitSeg_allocSize]
  cases hfit : fitFrom allocSize 0 s.memseg with
  | none => simp [hfit] at h
  | some found =>
    cases hg : s.freeGroup with
    | nil => simp [hg] at h
    | cons groupid fg =>
      simp only [hfit, hg, Option.ite_none_left_eq_some, Option.some.injEq, Prod.mk.injEq] at h
      obtain ⟨hlen, rfl, rfl⟩ := h
      exact if_neg hlen

/-- Where the variables come from. -/
theorem vars_spec (h : s.vars member = some (index, v)) :
    (∃ A g B, s.memseg = A ++ g :: B ∧ index = A.length ∧ g.l ≤ v.segAddr ∧
      v.segAddr + allocSize ≤ g.r) ∧ v.groupid ∈ s.freeGroup ∧
      v.recirPortIdx = selectRecirPortIdx s.recirPortCnt := by
  simp only [Servicer.vars, fitSeg_allocSize] at h
  cases hfit : fitFrom allocSize 0 s.memseg with
  | none => simp [hfit] at h
  | some found =>
    cases hg : s.freeGroup with
    | nil => simp [hg] at h
    | cons groupid fg =>
      simp only [hfit, hg, Option.ite_none_left_eq_some, Option.some.injEq, Prod.mk.injEq] at h
      obtain ⟨-, rfl, rfl⟩ := h
      obtain ⟨A, g, B, hm, hidx, haddr⟩ := fitFrom_spec hfit
      obtain ⟨hl, hr, -⟩ := addrInSeg_spec (by decide) haddr
      exact ⟨⟨A, g, B, hm, hidx.trans (Nat.zero_add _), hl, hr⟩, List.mem_cons_self, rfl⟩

/-! ## 3. What the controller keeps -/

/-- What holds of the controller between two calls. -/
structure Servicer.Ready (topo : Topo) (s : Servicer) : Prop where
  groups : 0 ∉ s.freeGroup
  ports : s.recirPortCnt.length = topo.recirPort.length
  undo : ∀ e ∈ s.undo, ∀ c ∈ e.2, c ≠ .appendGroup 0

/-- One command. -/
theorem Servicer.Ready.exec {c : Command} (h : s.Ready topo) (hc : c ≠ .appendGroup 0)
    (he : c.exec raises s = .ok s') : s'.Ready topo := by
  cases c with
  | allocSeg index addrL addrR =>
    simp only [Command.exec] at he
    split at he
    · cases he
    · obtain rfl := Except.ok.inj he
      exact { h with }
  | freeSeg addrL addrR =>
    simp only [Command.exec] at he
    split at he
    · cases he
    · obtain rfl := Except.ok.inj he
      exact { h with }
  | dropGroup =>
    obtain rfl := Except.ok.inj he
    exact { h with groups := fun h0 => h.groups (List.mem_of_mem_drop h0) }
  | appendGroup g =>
    obtain rfl := Except.ok.inj he
    refine { h with groups := fun h0 => ?_ }
    rcases List.mem_append.mp h0 with h0 | h0
    · exact h.groups h0
    · exact hc (by rw [List.mem_singleton.mp h0])
  | dropNodes count =>
    obtain rfl := Except.ok.inj he
    exact { h with }
  | appendNodes nodes =>
    obtain rfl := Except.ok.inj he
    exact { h with }
  | incPort idx =>
    simp only [Command.exec] at he
    split at he
    · obtain rfl := Except.ok.inj he
      exact { h with ports := (List.length_modify ..).trans h.ports }
    · cases he
  | decPort idx =>
    simp only [Command.exec] at he
    split at he
    · obtain rfl := Except.ok.inj he
      exact { h with ports := (List.length_modify ..).trans h.ports }
    · cases he
  | table op =>
    simp only [Command.exec] at he
    split at he
    · cases he
    · obtain rfl := Except.ok.inj he
      exact { h with }

/-- A sequence of commands, wherever it stops. -/
theorem Servicer.Ready.execAll {cs : List Command} (h : s.Ready topo)
    (hcs : ∀ c ∈ cs, c ≠ .appendGroup 0) : (execAll raises s cs).1.Ready topo := by
  induction cs generalizing s with
  | nil => exact h
  | cons c cs ih =>
    obtain ⟨hc, hcs⟩ := List.forall_mem_cons.mp hcs
    simp only [Controller.execAll]
    cases he : c.exec raises s with
    | error e => exact h
    | ok s' => exact ih (h.exec hc he) hcs

theorem Servicer.Ready.reinit (topo : Topo) (t : Installed) : (reinit topo t).Ready topo := by
  refine ⟨?_, List.length_map _, fun e he => absurd he List.not_mem_nil⟩
  simp [Controller.reinit]

/-- No command of a group's creation gives a group back. -/
theorem script_ne (c : Command) (hc : c ∈ (script topo index v).map (·.1)) (g : ℕ) :
    c ≠ .appendGroup g := by
  rintro rfl
  simp [script] at hc

/-- The undo commands give back the group's own id. -/
theorem undoFuncs_ne (h0 : v.groupid ≠ 0) (c : Command) (hc : c ∈ undoFuncs topo v) :
    c ≠ .appendGroup 0 := by
  rintro rfl
  rw [undoFuncs_eq] at hc
  simp only [List.cons_append, List.nil_append, List.mem_cons, reduceCtorEq, false_or,
    Command.appendGroup.injEq, List.mem_map, and_false, exists_false, or_false] at hc
  exact h0 hc.symm

theorem Servicer.Ready.createGroup (h : s.Ready topo) (member : List ℕ) :
    (createGroup topo raises s member).1.Ready topo := by
  cases hv : s.vars member with
  | none => rw [createGroup_none hv]; exact h
  | some found =>
    obtain ⟨index, v⟩ := found
    have hexec : (Controller.execAll raises s ((script topo index v).map (·.1))).1.Ready topo :=
      h.execAll fun c hc => script_ne c hc 0
    rw [createGroup_some hv]
    split
    · rename_i hs
      rw [hs] at hexec
      exact hexec
    · rename_i hs
      rw [hs] at hexec
      refine { hexec with undo := fun e he => ?_ }
      rcases List.mem_append.mp he with he | he
      · exact hexec.undo e (List.mem_of_mem_filter he)
      · rw [List.mem_singleton.mp he]
        exact undoFuncs_ne fun h0 => h.groups (h0 ▸ (vars_spec hv).2.1)

theorem Servicer.Ready.destroyGroup (h : s.Ready topo) (groupid : ℕ) :
    (destroyGroup raises s groupid).1.Ready topo := by
  simp only [Controller.destroyGroup]
  cases hl : s.undo.lookup groupid with
  | none => exact h
  | some funcs =>
    obtain ⟨l₁, l₂, hundo, -⟩ := List.lookup_eq_some_iff.mp hl
    have hmem : (groupid, funcs) ∈ s.undo := by rw [hundo]; simp
    have hexec : (Controller.execAll raises s funcs.reverse).1.Ready topo :=
      h.execAll fun c hc => h.undo _ hmem c (List.mem_reverse.mp hc)
    dsimp only
    split
    · rename_i hs
      rw [hs] at hexec
      exact hexec
    · rename_i hs
      rw [hs] at hexec
      exact { hexec with undo := fun e he => hexec.undo e (List.mem_of_mem_filter he) }

/-- The calls of the service that change its state, each with what the driver refuses during it. -/
inductive Call
  | createGroup (raises : Installed → TableOp → Bool) (member : List ℕ)
  | destroyGroup (raises : Installed → TableOp → Bool) (groupid : ℕ)
  | init

/-- The state a call leaves, also when it fails. -/
def Servicer.serve (topo : Topo) (s : Servicer) : Call → Servicer
  | .createGroup raises member => (Controller.createGroup topo raises s member).1
  | .destroyGroup raises groupid => (Controller.destroyGroup raises s groupid).1
  | .init => Controller.reinit topo s.installed

def Servicer.Init (topo : Topo) (s : Servicer) : Prop := ∃ t, s = Controller.reinit topo t

def Servicer.Step (topo : Topo) (s : Servicer) (c : Call) (s' : Servicer) : Prop :=
  s' = s.serve topo c

/-- The run lemma: the controller is ready in every state, whatever was refused on the way. -/
theorem ready_reach (h : Reach (Servicer.Init topo) (Servicer.Step topo) Free s) :
    s.Ready topo := by
  refine h.invariant (P := Servicer.Ready topo) ?_ ?_
  · rintro s ⟨t, rfl⟩
    exact .reinit topo t
  · rintro s c s' hs - rfl
    cases c with
    | createGroup raises member => exact hs.createGroup member
    | destroyGroup raises groupid => exact hs.destroyGroup groupid
    | init => exact .reinit topo s.installed

/-! ## 4. Atomic exactly when nothing is refused -/

/-- A list of operations runs to its end, or raises. -/
theorem execAll_table_outcome (raises : Installed → TableOp → Bool) (s : Servicer)
    (ops : List TableOp) :
    (execAll raises s (ops.map .table)).2 =
      if accepts raises s.installed ops then none else some .raised := by
  induction ops generalizing s with
  | nil => rfl
  | cons op ops ih =>
    simp only [List.map_cons, execAll, Command.exec, accepts]
    by_cases hr : raises s.installed op = true
    · simp only [hr, if_true, Bool.not_true, Bool.false_and, Bool.false_eq_true, if_false]
    · simp only [hr, Bool.false_eq_true, if_false, Bool.not_false, Bool.true_and]
      exact ih _

/-- The operations leave the memory alone. -/
theorem execAll_table_memseg (raises : Installed → TableOp → Bool) (s : Servicer)
    (ops : List TableOp) :
    (execAll raises s (ops.map .table)).1.memseg = s.memseg := by
  induction ops generalizing s with
  | nil => rfl
  | cons op ops ih =>
    simp only [List.map_cons, execAll, Command.exec]
    by_cases hr : raises s.installed op = true
    · simp only [hr, if_true]
    · simp only [hr, Bool.false_eq_true, if_false]
      exact ih _

/-- Once a block is taken the free list is another: the block's first address has left it. -/
theorem memseg_taken {A B : List Seg} {g : Seg} {addr : ℕ} (hl : g.l ≤ addr)
    (hr : addr + allocSize ≤ g.r) :
    A ++ (g.before addr ++ (g.after (addr + allocSize) ++ B)) ≠ A ++ g :: B := by
  intro h
  have hocc := congrArg (fun m => occ m addr) h
  have hpos : 0 < allocSize := by decide
  have hsplit := Seg.occ_split hl (Nat.le_add_right _ allocSize) hr addr
  rw [if_pos (by omega), if_pos (by omega)] at hsplit
  simp only [occ_append, occ_cons] at hocc
  rw [if_pos ⟨hl, by omega⟩] at hocc
  omega

/-- **A call with resources**: it returns the group if nothing is refused; otherwise it raises,
and the block stays taken. -/
theorem Servicer.Ready.createGroup_some (h : s.Ready topo)
    (raises : Installed → TableOp → Bool) (hv : s.vars member = some (index, v)) :
    if accepts raises s.installed ((tableScript topo v).map (·.1)) then
      (Controller.createGroup topo raises s member).2 = .ok (v.response topo) ∧ v.groupid ≠ 0
    else (Controller.createGroup topo raises s member).2 = .error .raised ∧
      (Controller.createGroup topo raises s member).1.memseg ≠ s.memseg := by
  obtain ⟨⟨A, g, B, hm, rfl, hl, hr⟩, hg, hidx⟩ := vars_spec hv
  have hports : s.recirPortCnt ≠ [] := fun h0 =>
    topo.recirPort_ne (List.length_eq_zero_iff.mp (h.ports ▸ by rw [h0]; rfl))
  have hi : v.recirPortIdx < s.recirPortCnt.length := hidx ▸ selectRecirPortIdx_lt hports
  rw [Controller.createGroup_some hv, execAll_allocs raises topo hm hi]
  generalize hs₁ : Servicer.mk _ _ _ _ _ _ = s₁
  have hinst : s₁.installed = s.installed := by rw [← hs₁]
  have hmem : s₁.memseg ≠ s.memseg := by
    rw [← hs₁, hm]
    exact memseg_taken hl hr
  have hout := execAll_table_outcome raises s₁ ((tableScript topo v).map (·.1))
  have hkeep := execAll_table_memseg raises s₁ ((tableScript topo v).map (·.1))
  rw [hinst] at hout
  split
  · rename_i hacc
    rw [if_pos hacc] at hout
    split
    · rename_i he
      rw [he] at hout
      cases hout
    · exact ⟨rfl, fun h0 => h.groups (h0 ▸ hg)⟩
  · rename_i hacc
    rw [if_neg hacc] at hout
    split
    · rename_i he
      rw [he] at hout hkeep
      obtain rfl := Option.some.inj hout
      exact ⟨rfl, fun heq => hmem (hkeep.symm.trans heq)⟩
    · rename_i he
      rw [he] at hout
      cases hout

/-- **`CreateGroup` is atomic exactly when the driver refuses nothing** it is asked for, in every
state the controller can be in. -/
theorem createGroup_atomic (h : Reach (Servicer.Init topo) (Servicer.Step topo) Free s)
    (raises : Installed → TableOp → Bool) (member : List ℕ) :
    Atomic topo raises s member ↔ Accepted topo raises s member := by
  have hready := ready_reach h
  cases hv : s.vars member with
  | none =>
    simp only [Accepted, hv, iff_true]
    intro _
    rw [createGroup_none hv]
    exact .refl s
  | some found =>
    obtain ⟨index, v⟩ := found
    have hcall := hready.createGroup_some raises hv
    simp only [Accepted, hv]
    constructor
    · intro hatomic
      by_contra hacc
      rw [if_neg hacc] at hcall
      obtain ⟨hraised, hmem⟩ := hcall
      refine hmem (hatomic ?_).memseg
      rintro ⟨r, hr, -⟩
      exact absurd (hraised.symm.trans hr) (by simp)
    · intro hacc hnone
      rw [if_pos hacc] at hcall
      exact absurd ⟨_, hcall⟩ hnone

/-- The topology of the repository's testbed. -/
def testbed : Topo :=
  ⟨[180, 164, 148, 132], [0xc0a80101, 0xc0a80102, 0xc0a80103, 0xc0a80104], 0xc0a801fe,
    [140, 156, 172, 188], by simp, by decide⟩

/-- A switch with nothing in it. -/
def Installed.empty : Installed := ⟨[], [], [], [], [], fun _ => ⟨0, 0⟩⟩

/-- A driver that checks that the mask of `metadata_table` fits its 32 bits. -/
def refusesWideMask : Installed → TableOp → Bool
  | _, .addMetadata _ bitmapMask => 2 ^ 32 ≤ bitmapMask
  | _, _ => false

/-- Two members of the testbed are granted a group, as their mask fits; 1024 are not, as there are
1023 nodes, and the call has changed nothing. -/
theorem createGroup_atomic_two :
    Accepted testbed refusesWideMask (reinit testbed .empty) [0xc0a80101, 0xc0a80102] ∧
      Atomic testbed refusesWideMask (reinit testbed .empty) [0xc0a80101, 0xc0a80102] ∧
      (createGroup testbed refusesWideMask (reinit testbed .empty)
        (List.replicate 1024 0xc0a80101)).2 = .ok .null ∧
      (reinit testbed .empty).Same (createGroup testbed refusesWideMask (reinit testbed .empty)
        (List.replicate 1024 0xc0a80101)).1 := by
  have hacc : Accepted testbed refusesWideMask (reinit testbed .empty)
      [0xc0a80101, 0xc0a80102] = true := by decide +kernel
  have hmany : Accepted testbed refusesWideMask (reinit testbed .empty)
      (List.replicate 1024 0xc0a80101) = true := by decide +kernel
  have hnull : (createGroup testbed refusesWideMask (reinit testbed .empty)
      (List.replicate 1024 0xc0a80101)).2 = .ok .null := by decide +kernel
  refine ⟨hacc, (createGroup_atomic (.init ⟨_, rfl⟩) _ _).mpr hacc, hnull,
    (createGroup_atomic (.init ⟨_, rfl⟩) _ _).mpr hmany ?_⟩
  rintro ⟨r, hr, hne⟩
  obtain rfl := Except.ok.inj (hr.symm.trans hnull)
  exact hne rfl

/-- **`CreateGroup` is not atomic**: with 33 members the mask is refused, and the memory, the
group's id, the nodes, the port's count and the first entry are not given back. -/
theorem createGroup_atomic_fails :
    Reach (Servicer.Init testbed) (Servicer.Step testbed) Free (reinit testbed .empty) ∧
      ¬ Atomic testbed refusesWideMask (reinit testbed .empty) (List.replicate 33 0xc0a80101) := by
  refine ⟨.init ⟨_, rfl⟩, fun hatomic => ?_⟩
  have hraised : (createGroup testbed refusesWideMask (reinit testbed .empty)
      (List.replicate 33 0xc0a80101)).2 = .error .raised := by decide +kernel
  have hkept : (createGroup testbed refusesWideMask (reinit testbed .empty)
      (List.replicate 33 0xc0a80101)).1.memseg ≠ (reinit testbed .empty).memseg := by
    decide +kernel
  refine hkept (hatomic ?_).memseg
  rintro ⟨r, hr, -⟩
  exact absurd (hraised.symm.trans hr) (by simp)

end NetCCL.Controller
