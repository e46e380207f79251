import Mathlib.Data.List.Count
import Mathlib.Data.List.Induction

/-!
# Resources that are acquired and released

A trace of acquisitions and releases, the same resource any number of times: what is held
behind a trace, and traces that release only what is held. Behind these nothing is held
exactly if each resource has been released as often as acquired.
-/

namespace LebStudy

namespace Ledger

inductive Event (α : Type*)
  | acquired (a : α)
  | released (a : α)
  deriving DecidableEq, Repr

variable {α : Type*} [DecidableEq α] {t u : List (Event α)} {e : Event α} {a : α}

def note (held : List α) : Event α → List α
  | .acquired a => a :: held
  | .released a => held.erase a

/-- What is held behind the trace. -/
def held (t : List (Event α)) : List α := t.foldl note []

/-- Only what is held is released. -/
def Proper (t : List (Event α)) : Prop :=
  ∀ pre a post, t = pre ++ .released a :: post → a ∈ held pre

@[simp] theorem held_concat (t : List (Event α)) (e : Event α) :
    held (t ++ [e]) = note (held t) e := by
  rw [held, List.foldl_append, List.foldl_cons, List.foldl_nil, held]

theorem proper_nil : Proper ([] : List (Event α)) := by
  intro pre a post h
  exact absurd h (by simp)

theorem Proper.of_append (h : Proper (t ++ u)) : Proper t := by
  rintro pre a post rfl
  exact h pre a (post ++ u) (by simp)

theorem proper_concat : Proper (t ++ [e]) ↔ Proper t ∧ ∀ a, e = .released a → a ∈ held t := by
  constructor
  · intro h
    refine ⟨h.of_append, ?_⟩
    rintro a rfl
    exact h t a [] rfl
  · rintro ⟨hproper, hlast⟩ pre a post hsplit
    -- the release is the last event, or it is in front of it
    induction post using List.reverseRecOn with
    | nil =>
      obtain ⟨rfl, hlist⟩ := List.append_inj' hsplit rfl
      exact hlast a (List.cons.inj hlist).1
    | append_singleton post x _ =>
      rw [← List.cons_append, ← List.append_assoc] at hsplit
      exact hproper pre a post (List.append_inj' hsplit rfl).1

/-- Each acquisition that is not held any more has its release. -/
theorem Proper.count_eq (h : Proper t) (a : α) :
    t.count (.acquired a) = t.count (.released a) + (held t).count a := by
  induction t using List.reverseRecOn with
  | nil => rfl
  | append_singleton t e ih =>
    obtain ⟨hproper, hlast⟩ := proper_concat.mp h
    have hcount := ih hproper
    rw [List.count_append, List.count_append, held_concat]
    cases e with
    | acquired b =>
      by_cases hab : b = a
      · subst hab
        simp [note]
        omega
      · simp [note, hab, hcount]
    | released b =>
      have hmem := hlast b rfl
      by_cases hab : b = a
      · subst hab
        have hpos := List.count_pos_iff.mpr hmem
        simp [note, List.count_erase_self]
        omega
      · have hne : a ≠ b := fun h => hab h.symm
        simp [note, hab, List.count_erase_of_ne hne, hcount]

/-- Nothing is held exactly if all has been released. -/
theorem Proper.held_eq_nil_iff (h : Proper t) :
    held t = [] ↔ ∀ a, t.count (.released a) = t.count (.acquired a) := by
  constructor
  · intro hnil a
    rw [h.count_eq, hnil, List.count_nil, Nat.add_zero]
  · intro hall
    refine List.eq_nil_iff_forall_not_mem.mpr fun a hmem => ?_
    have hcount := h.count_eq a
    have hpos := List.count_pos_iff.mpr hmem
    have hequal := hall a
    omega

end Ledger

end LebStudy
