import Mathlib.Data.List.Basic
import Mathlib.Logic.Function.Basic
import Mathlib.Order.Basic

/-!
# Readers of one list

Several readers go through one list, each at its own pace. The one that is furthest and the
one that is last bound where the others are, and say which elements some have read, which all
have, and what the distance between them can be.
-/

namespace LebStudy

namespace Spread

variable {κ α : Type*} {members : List κ} {pos : κ → ℕ} {behind ahead : ℕ} {K : List α}

/-- Between the last and the first of the readers. -/
structure Between (members : List κ) (pos : κ → ℕ) (behind ahead : ℕ) : Prop where
  ge : ∀ n ∈ members, behind ≤ pos n
  le : ∀ n ∈ members, pos n ≤ ahead
  last : ∃ n ∈ members, pos n = behind
  first : ∃ n ∈ members, pos n = ahead

/-- No reader is more than `d` in front of another. -/
def Within (members : List κ) (pos : κ → ℕ) (d : ℕ) : Prop :=
  ∀ n ∈ members, ∀ n' ∈ members, pos n ≤ pos n' + d

instance (members : List κ) (pos : κ → ℕ) (d : ℕ) : Decidable (Within members pos d) :=
  inferInstanceAs (Decidable (∀ n ∈ members, ∀ n' ∈ members, _))

/-- There are a first and a last. -/
theorem exists_between (h : members ≠ []) : ∃ behind ahead, Between members pos behind ahead := by
  induction members with
  | nil => exact absurd rfl h
  | cons n members ih =>
    by_cases hnil : members = []
    · subst hnil
      exact ⟨pos n, pos n, by simp, by simp, by simp, by simp⟩
    · obtain ⟨behind, ahead, hge, hle, hlast, hfirst⟩ := ih hnil
      refine ⟨min (pos n) behind, max (pos n) ahead, ?_, ?_, ?_, ?_⟩
      · intro m hm
        rcases List.mem_cons.mp hm with rfl | hm
        · exact Nat.min_le_left _ _
        · exact Nat.le_trans (Nat.min_le_right _ _) (hge m hm)
      · intro m hm
        rcases List.mem_cons.mp hm with rfl | hm
        · exact Nat.le_max_left _ _
        · exact Nat.le_trans (hle m hm) (Nat.le_max_right _ _)
      · rcases Nat.le_total (pos n) behind with hmin | hmin
        · exact ⟨n, List.mem_cons_self, (Nat.min_eq_left hmin).symm⟩
        · obtain ⟨m, hm, hpos⟩ := hlast
          exact ⟨m, List.mem_cons_of_mem _ hm, hpos.trans (Nat.min_eq_right hmin).symm⟩
      · rcases Nat.le_total (pos n) ahead with hmax | hmax
        · obtain ⟨m, hm, hpos⟩ := hfirst
          exact ⟨m, List.mem_cons_of_mem _ hm, hpos.trans (Nat.max_eq_right hmax).symm⟩
        · exact ⟨n, List.mem_cons_self, (Nat.max_eq_left hmax).symm⟩

theorem Between.le_ahead (h : Between members pos behind ahead) : behind ≤ ahead := by
  obtain ⟨n, hn, rfl⟩ := h.last
  exact h.le n hn

theorem Between.within_iff (h : Between members pos behind ahead) {d : ℕ} :
    Within members pos d ↔ ahead ≤ behind + d := by
  constructor
  · intro hwithin
    obtain ⟨n, hn, rfl⟩ := h.first
    obtain ⟨n', hn', rfl⟩ := h.last
    exact hwithin n hn n' hn'
  · intro hle n hn n' hn'
    have hahead := h.le n hn
    have hbehind := h.ge n' hn'
    omega

/-! ### What has been read -/

/-- All have read what the last one has. -/
theorem Between.forall_mem_take (h : Between members pos behind ahead) {k : α} :
    (∀ n ∈ members, k ∈ K.take (pos n)) ↔ k ∈ K.take behind := by
  constructor
  · intro hall
    obtain ⟨n, hn, rfl⟩ := h.last
    exact hall n hn
  · intro hk n hn
    exact (List.take_subset_take_left K (h.ge n hn)) hk

/-- Some have read what the first one has. -/
theorem Between.exists_mem_take (h : Between members pos behind ahead) {k : α} :
    (∃ n ∈ members, k ∈ K.take (pos n)) ↔ k ∈ K.take ahead := by
  constructor
  · rintro ⟨n, hn, hk⟩
    exact (List.take_subset_take_left K (h.le n hn)) hk
  · intro hk
    obtain ⟨n, hn, rfl⟩ := h.first
    exact ⟨n, hn, hk⟩

/-- What some have read and not all lies between the last and the first. -/
theorem mem_between_iff (hK : K.Nodup) (hle : behind ≤ ahead) {k : α} :
    k ∈ (K.take ahead).drop behind ↔ k ∈ K.take ahead ∧ k ∉ K.take behind := by
  have hsplit : K.take ahead = K.take behind ++ (K.take ahead).drop behind := by
    conv_lhs => rw [← List.take_append_drop behind (K.take ahead), List.take_take,
      Nat.min_eq_left hle]
  have hnd : (K.take behind ++ (K.take ahead).drop behind).Nodup := by
    rw [← hsplit]
    exact hK.sublist (List.take_sublist _ _)
  constructor
  · intro hk
    exact ⟨List.mem_of_mem_drop hk, fun hbehind =>
      (List.nodup_append.mp hnd).2.2 k hbehind k hk rfl⟩
  · rintro ⟨hk, hnot⟩
    rw [hsplit] at hk
    exact (List.mem_append.mp hk).resolve_left hnot

/-! ### One step of a reader -/

section Advance

variable [DecidableEq κ] {n : κ} {d : ℕ}

/-- A reader that is not the first takes a step: the distances stay what they could be. -/
theorem Between.within_advance (h : Between members pos behind ahead) (hn : pos n < ahead)
    (hwithin : Within members pos d) : Within members (Function.update pos n (pos n + 1)) d := by
  have hbound := h.within_iff.mp hwithin
  intro m hm m' hm'
  have hle : Function.update pos n (pos n + 1) m ≤ ahead := by
    rw [Function.update_apply]
    split
    · exact hn
    · exact h.le m hm
  have hge : behind ≤ Function.update pos n (pos n + 1) m' := by
    rw [Function.update_apply]
    split
    · next heq =>
      have hbehind := h.ge m' hm'
      rw [heq] at hbehind
      exact Nat.le_trans hbehind (Nat.le_succ _)
    · exact h.ge m' hm'
  omega

/-- Of two readers or more the last one can be chosen to be another than a given one that is
first. -/
theorem Between.exists_last_ne (h : Between members pos behind ahead) (hn : pos n = ahead)
    (hnd : members.Nodup) (hlen : 2 ≤ members.length) :
    ∃ n' ∈ members, n' ≠ n ∧ pos n' = behind := by
  obtain ⟨m, hm, hpos⟩ := h.last
  by_cases hmn : m = n
  · -- all are at one place
    subst hmn
    obtain ⟨m', hm', hne⟩ : ∃ m' ∈ members, m' ≠ m := by
      by_contra hnone
      have hall : ∀ m' ∈ members, m' = m := fun m' hm' =>
        Classical.byContradiction fun hne => hnone ⟨m', hm', hne⟩
      match members, hnd, hlen with
      | a :: b :: rest, hnd, _ =>
        have ha := hall a (by simp)
        have hb := hall b (by simp)
        subst ha hb
        simp at hnd
    have hge := h.ge m' hm'
    have hle := h.le m' hm'
    exact ⟨m', hm', hne, by omega⟩
  · exact ⟨m, hm, hmn, hpos⟩

/-- The first takes a step, and it is not alone: the distance to the last grows by one. -/
theorem Between.within_advance_first (h : Between members pos behind ahead) (hmem : n ∈ members)
    (hn : pos n = ahead) (hnd : members.Nodup) (hlen : 2 ≤ members.length) :
    Within members (Function.update pos n (pos n + 1)) d ↔ ahead + 1 ≤ behind + d := by
  constructor
  · intro hwithin
    obtain ⟨n', hn', hne, rfl⟩ := h.exists_last_ne hn hnd hlen
    have hdist := hwithin n hmem n' hn'
    rwa [Function.update_self, Function.update_of_ne hne, hn] at hdist
  · intro hle m hm m' hm'
    have hahead : Function.update pos n (pos n + 1) m ≤ ahead + 1 := by
      rw [Function.update_apply]
      split
      · exact Nat.le_of_eq (congrArg (· + 1) hn)
      · exact Nat.le_succ_of_le (h.le m hm)
    have hbehind : behind ≤ Function.update pos n (pos n + 1) m' := by
      rw [Function.update_apply]
      split
      · rw [hn]
        exact Nat.le_succ_of_le h.le_ahead
      · exact h.ge m' hm'
    omega

end Advance

end Spread

end LebStudy
