/-
# Labelled transition systems, and the induction over their runs

Every state machine of this development is a labelled step relation
`step : σ → α → σ → Prop` together with a predicate on initial states.  This module says
once what a run is and proves the induction that every safety theorem uses.  `Reach.exists_all`
is for what a run can still get to.

A run carries a RESTRICTION `ok : σ → α → Prop` on the pairs (state, label) it may take.
`Reach init step ok s` reads "some run from an initial state, all of whose steps satisfy
`ok` in the state they are taken from, ends in `s`".  An unrestricted run is the one whose
restriction is `fun _ _ => True`; a conditional safety theorem is a theorem about a
restricted run, and `Reach.mono` says that a weaker restriction reaches at least as much.
-/
import Mathlib.Data.Fintype.EquivFin

namespace NetCCL.Lib

universe u v

variable {σ : Type u} {α : Type v}

/-- The states reached by runs all of whose steps satisfy `ok` where they are taken. -/
inductive Reach (init : σ → Prop) (step : σ → α → σ → Prop) (ok : σ → α → Prop) : σ → Prop
  | init {s : σ} : init s → Reach init step ok s
  | step {s s' : σ} {a : α} : Reach init step ok s → ok s a → step s a s' → Reach init step ok s'

/-- The restriction that excludes nothing. -/
def Free : σ → α → Prop := fun _ _ => True

variable {init : σ → Prop} {step : σ → α → σ → Prop} {ok ok' : σ → α → Prop}

/-- **The invariant rule.**  What holds initially and is preserved by every step a run may
take holds in every state it reaches. -/
theorem Reach.invariant {P : σ → Prop} (h0 : ∀ s, init s → P s)
    (hstep : ∀ s a s', P s → ok s a → step s a s' → P s') {s : σ}
    (h : Reach init step ok s) : P s := by
  induction h with
  | init hi => exact h0 _ hi
  | step _ hok hs ih => exact hstep _ _ _ ih hok hs

/-- A weaker restriction reaches at least as much. -/
theorem Reach.mono (hle : ∀ s a, ok s a → ok' s a) {s : σ} (h : Reach init step ok s) :
    Reach init step ok' s := by
  induction h with
  | init hi => exact .init hi
  | step _ hok hs ih => exact .step ih (hle _ _ hok) hs

/-- A run goes on where another has ended. -/
theorem Reach.trans {s t : σ} (h : Reach init step ok s) (h' : Reach (· = s) step ok t) :
    Reach init step ok t := by
  induction h' with
  | init hi => exact hi ▸ h
  | step _ hok hs ih => exact .step ih hok hs

/-- **One thing after the other.**  If a run can go on to each of finitely many things, and none of
them is undone, it can go on to all of them. -/
theorem Reach.exists_all {ι : Type*} [Finite ι] {I : σ → Prop} {P : ι → σ → Prop}
    (hinv : ∀ s a s', I s → ok s a → step s a s' → I s')
    (hkeep : ∀ i s a s', I s → P i s → ok s a → step s a s' → P i s')
    (hgo : ∀ i s, I s → ∃ s', Reach (· = s) step ok s' ∧ P i s') {s : σ} (hs : I s) :
    ∃ s', Reach (· = s) step ok s' ∧ ∀ i, P i s' := by
  obtain ⟨_⟩ := nonempty_fintype ι
  suffices h : ∀ t : Finset ι, ∃ s', Reach (· = s) step ok s' ∧ ∀ i ∈ t, P i s' by
    obtain ⟨s', hs', hP⟩ := h Finset.univ
    exact ⟨s', hs', fun i => hP i (Finset.mem_univ i)⟩
  intro t
  induction t using Finset.cons_induction with
  | empty => exact ⟨s, .init rfl, fun i hi => absurd hi (Finset.notMem_empty i)⟩
  | cons i t hi ih =>
    obtain ⟨s₁, h₁, hP₁⟩ := ih
    have hI : I s₁ := h₁.invariant (fun x (he : x = s) => he ▸ hs) hinv
    obtain ⟨s₂, h₂, hPi⟩ := hgo i s₁ hI
    refine ⟨s₂, h₁.trans h₂, fun j hj => ?_⟩
    rcases Finset.mem_cons.mp hj with rfl | hj
    · exact hPi
    · refine (h₂.invariant (P := fun x => I x ∧ P j x)
        (fun x (he : x = s₁) => he ▸ ⟨hI, hP₁ j hj⟩) ?_).2
      exact fun x a y hx hok hxy => ⟨hinv x a y hx.1 hok hxy, hkeep j x a y hx.1 hx.2 hok hxy⟩

/-- Some steps of a machine that computes them, each allowed by `ok`. -/
def exec (step : σ → α → Option σ) (ok : σ → α → Bool) (s : σ) : List α → Option σ
  | [] => some s
  | a :: as => if ok s a then (step s a).bind fun s' => exec step ok s' as else none

theorem exec_reach {next : σ → α → Option σ} {allowed : σ → α → Bool}
    (hok : ∀ s a, allowed s a = true → ok s a) (as : List α) :
    ∀ {s s' : σ}, Reach init (fun s a s' => next s a = some s') ok s →
      exec next allowed s as = some s' → Reach init (fun s a s' => next s a = some s') ok s' := by
  induction as with
  | nil =>
    intro s s' hs h
    exact Option.some.inj h ▸ hs
  | cons a as ih =>
    intro s s' hs h
    rw [exec] at h
    split at h
    · obtain ⟨s₁, h₁, hrest⟩ := Option.bind_eq_some_iff.mp h
      exact ih (.step hs (hok s a ‹_›) h₁) hrest
    · cases h

end NetCCL.Lib
