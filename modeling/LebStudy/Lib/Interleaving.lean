import Mathlib.Data.List.Basic

/-!
# Interleavings of streams

A list interleaves a family of streams, one for each key, if the elements with a
key are the stream of this key, in its order. What holds along every stream then
holds in the list between any two elements with the same key.
-/

namespace LebStudy.Interleaving

variable {α κ : Type*} {key : α → κ} {R : α → α → Prop} {l l' : List α}

/-- Along the list `R` holds between elements with the same key. -/
def Ordered (key : α → κ) (R : α → α → Prop) (l : List α) : Prop :=
  l.Pairwise fun a b => key a = key b → R a b

theorem Ordered.of_append (h : Ordered key R (l ++ l')) : Ordered key R l :=
  (List.pairwise_append.mp h).1

/-- The last element of an ordered list against an earlier one with its key. -/
theorem Ordered.last {a b : α} (h : Ordered key R (l ++ [b])) (ha : a ∈ l)
    (hab : key a = key b) : R a b :=
  (List.pairwise_append.mp h).2.2 a ha b (List.mem_singleton_self b) hab

variable [DecidableEq κ] {streams : κ → List α}

instance [DecidableRel R] (l : List α) : Decidable (Ordered key R l) :=
  inferInstanceAs (Decidable (l.Pairwise _))

/-- The elements with one key stand in the order of the list. -/
theorem Ordered.filter (h : Ordered key R l) (k : κ) : (l.filter (key · = k)).Pairwise R := by
  refine (List.Pairwise.filter _ h).imp_of_mem ?_
  intro a b ha hb hab
  have ha := of_decide_eq_true (List.mem_filter.mp ha).2
  have hb := of_decide_eq_true (List.mem_filter.mp hb).2
  exact hab (ha.trans hb.symm)

/-- The elements with key `k` are the stream of `k`. -/
def Interleaves (key : α → κ) (streams : κ → List α) (l : List α) : Prop :=
  ∀ k, l.filter (key · = k) = streams k

theorem Interleaves.mem_iff (h : Interleaves key streams l) {a : α} :
    a ∈ l ↔ a ∈ streams (key a) := by
  rw [← h (key a), List.mem_filter]
  simp

theorem Interleaves.key_eq (h : Interleaves key streams l) {a : α} {k : κ}
    (ha : a ∈ streams k) : key a = k := by
  rw [← h k, List.mem_filter] at ha
  simpa using ha.2

theorem Interleaves.exists_mem_iff (h : Interleaves key streams l) {k : κ} {P : α → Prop} :
    (∃ a ∈ l, key a = k ∧ P a) ↔ ∃ a ∈ streams k, P a := by
  constructor
  · rintro ⟨a, ha, rfl, hp⟩
    exact ⟨a, h.mem_iff.mp ha, hp⟩
  · rintro ⟨a, ha, hp⟩
    have hk := h.key_eq ha
    exact ⟨a, h.mem_iff.mpr (hk ▸ ha), hk, hp⟩

theorem ordered_of_forall_filter
    (h : ∀ k, (l.filter (key · = k)).Pairwise R) : Ordered key R l := by
  induction l with
  | nil => exact List.Pairwise.nil
  | cons a l ih =>
    refine List.Pairwise.cons ?_ (ih fun k => ?_)
    · intro b hb hab
      have ha := h (key a)
      rw [List.filter_cons_of_pos (by simp), List.pairwise_cons] at ha
      exact ha.1 b (List.mem_filter.mpr ⟨hb, by simp [hab]⟩)
    · exact (h k).sublist ((List.sublist_cons_self a l).filter _)

/-- What holds along every stream holds along the interleaving, key by key. -/
theorem Interleaves.ordered (h : Interleaves key streams l)
    (hR : ∀ k, (streams k).Pairwise R) : Ordered key R l :=
  ordered_of_forall_filter fun k => h k ▸ hR k

/-! ### Queues that several senders share -/

section Queue

variable [DecidableEq α] {a : α} {k : κ}

/-- Taking the first element with a key out of a queue. -/
theorem filter_eq_cons_of_find? (h : l.find? (key · = k) = some a) :
    l.filter (key · = k) = a :: (l.erase a).filter (key · = k) := by
  induction l with
  | nil => cases h
  | cons b l ih =>
    by_cases hb : key b = k
    · rw [List.find?_cons_of_pos (by simpa using hb)] at h
      obtain rfl := Option.some.inj h
      rw [List.filter_cons_of_pos (by simpa using hb), List.erase_cons_head]
    · rw [List.find?_cons_of_neg (by simpa using hb)] at h
      have hne : b ≠ a := by
        rintro rfl
        have hkey := List.find?_some h
        exact hb (by simpa using hkey)
      rw [List.filter_cons_of_neg (by simpa using hb), List.erase_cons_tail (by simpa using hne),
        List.filter_cons_of_neg (by simpa using hb)]
      exact ih h

/-- The same where the elements with the key are those with some property. -/
theorem filter_eq_cons_of_key {p : α → Prop} [DecidablePred p]
    (h : l.find? (key · = k) = some a) (hkey : ∀ b ∈ l, key b = k ↔ p b) :
    l.filter p = a :: (l.erase a).filter p := by
  have hsame : ∀ b ∈ l, decide (key b = k) = decide (p b) :=
    fun b hb => decide_eq_decide.mpr (hkey b hb)
  rw [← List.filter_congr hsame, filter_eq_cons_of_find? h,
    List.filter_congr fun b hb => hsame b (List.mem_of_mem_erase hb)]

theorem filter_erase_of_ne (h : key a ≠ k) :
    (l.erase a).filter (key · = k) = l.filter (key · = k) := by
  induction l with
  | nil => rfl
  | cons b l ih =>
    by_cases hb : b = a
    · subst hb
      rw [List.erase_cons_head, List.filter_cons_of_neg (by simpa using h)]
    · rw [List.erase_cons_tail (by simpa using hb), List.filter_cons, List.filter_cons, ih]

/-- An element that is received in the order of its sender changes nobody's stream. -/
theorem filter_handOver (h : l.find? (key · = k) = some a) (l' : List α) (k' : κ) :
    (l' ++ [a] ++ l.erase a).filter (key · = k') = (l' ++ l).filter (key · = k') := by
  have ha : key a = k := by
    have hkey := List.find?_some h
    simpa using hkey
  rw [List.append_assoc, List.singleton_append, List.filter_append, List.filter_append]
  congr 1
  by_cases hk : key a = k'
  · rw [List.filter_cons_of_pos (by simpa using hk), ← hk, ha, filter_eq_cons_of_find? h]
  · rw [List.filter_cons_of_neg (by simpa using hk), filter_erase_of_ne hk]

end Queue

end LebStudy.Interleaving
