import LebStudy.Lib.Transition
import Mathlib.Algebra.BigOperators.Fin

/-!
# Runs that settle

Some steps of a system do work, the others only wait. Where each step that does work lowers a
measure that no step raises, a run has at most as many of them as the measure says, and a state
can be reached from which no run does any work. The measure of a system of parties is the sum of
theirs.
-/

namespace LebStudy.Transition

variable {σ α : Type*} {step : σ → α → Option σ} {busy : σ → α → Prop}

/-- No run from here does any work. -/
def Settled (step : σ → α → Option σ) (busy : σ → α → Prop) (s : σ) : Prop :=
  ∀ as t, run step s as = some t → ∀ a u, step t a = some u → ¬ busy t a

theorem Settled.of_step {s t : σ} {a : α} (hs : Settled step busy s) (h : step s a = some t) :
    Settled step busy t := by
  intro as u hrun
  apply hs (a :: as)
  rw [run_cons, h]
  exact hrun

theorem Settled.not_busy {s t : σ} {a : α} (hs : Settled step busy s) (h : step s a = some t) :
    ¬ busy s a :=
  hs [] s rfl a t h

/-- How many steps of a run do work. -/
def busySteps (step : σ → α → Option σ) (busy : σ → α → Prop) [∀ s a, Decidable (busy s a)] :
    σ → List α → ℕ
  | _, [] => 0
  | s, a :: as =>
    (if busy s a then 1 else 0) + ((step s a).map fun t => busySteps step busy t as).getD 0

section Work

variable [∀ s a, Decidable (busy s a)] {I : σ → Prop} {work : σ → ℕ}
  (keeps : ∀ s a t, I s → step s a = some t → I t)
  (lowers : ∀ s a t, I s → step s a = some t → (if busy s a then 1 else 0) + work t ≤ work s)

include keeps lowers

/-- A run does no more work than there is. -/
theorem busySteps_add_le {s t : σ} {as : List α} (hs : I s) (hrun : run step s as = some t) :
    busySteps step busy s as + work t ≤ work s := by
  induction as generalizing s with
  | nil =>
    cases hrun
    rw [busySteps, Nat.zero_add]
  | cons a as ih =>
    obtain ⟨u, hstep, hrest⟩ := Option.bind_eq_some_iff.mp hrun
    have hone := lowers s a u hs hstep
    have hmore := ih (keeps s a u hs hstep) hrest
    rw [busySteps, hstep, Option.map_some, Option.getD_some]
    omega

theorem exists_settled {s : σ} (hs : I s) :
    ∃ as t, run step s as = some t ∧ Settled step busy t := by
  induction hwork : work s using Nat.strongRecOn generalizing s with
  | ind w ih =>
    by_cases hsettled : Settled step busy s
    · exact ⟨[], s, rfl, hsettled⟩
    · -- some run does a step of work, behind which less is left
      simp only [Settled, not_forall, not_not] at hsettled
      obtain ⟨as, t, hrun, a, u, hstep, hbusy⟩ := hsettled
      have ht : I t := run_invariant hs keeps hrun
      have hlower := lowers t a u ht hstep
      rw [if_pos hbusy] at hlower
      have hle := busySteps_add_le keeps lowers hs hrun
      obtain ⟨bs, v, hmore, hv⟩ := ih (work u) (by omega) (keeps t a u ht hstep) rfl
      refine ⟨as ++ a :: bs, v, ?_, hv⟩
      rw [run_append, hrun, Option.bind_some, run_cons, hstep]
      exact hmore

end Work

/-- One party moves. -/
theorem sum_update {n : ℕ} {β : Type*} (f : β → ℕ) (parties : Fin n → β) (i : Fin n) (party : β) :
    (∑ j, f (Function.update parties i party j)) + f (parties i) =
      (∑ j, f (parties j)) + f party := by
  have hupdate : (fun j => f (Function.update parties i party j)) =
      Function.update (fun j => f (parties j)) i (f party) := by
    funext j
    exact Function.apply_update (fun _ party => f party) parties i party j
  rw [hupdate, Finset.sum_update_of_mem (Finset.mem_univ i), ← Finset.add_sum_erase
    Finset.univ (fun j => f (parties j)) (Finset.mem_univ i), Finset.sdiff_singleton_eq_erase]
  omega

end LebStudy.Transition
