import Mathlib.Data.List.Induction

/-!
# Runs of labelled partial steps

A system is a partial step function: `step s a` is the state after label `a`,
or `none` where `a` is not enabled. `run` follows a list of labels, `Meets`
says that every label of a run is taken under a condition on the state before
it, and the induction rules carry an invariant from one step to a whole run.

Labels hold everything the environment chooses (which party moves, what a
system call returns), so a statement about all lists of labels is a statement
about all interleavings and all outcomes.
-/

namespace LebStudy.Transition

variable {σ α : Type*} {step : σ → α → Option σ} {cond cond' : σ → α → Prop}

/-- The state after the labels `as`, if each of them is enabled in turn. -/
def run (step : σ → α → Option σ) : σ → List α → Option σ
  | s, [] => some s
  | s, a :: as => (step s a).bind fun t => run step t as

/-- Every label of the run is taken in a state that meets the condition. -/
def Meets (step : σ → α → Option σ) (cond : σ → α → Prop) : σ → List α → Prop
  | _, [] => True
  | s, a :: as => cond s a ∧ ∀ t, step s a = some t → Meets step cond t as

@[simp] theorem run_nil (s : σ) : run step s [] = some s := rfl

@[simp] theorem run_cons (s : σ) (a : α) (as : List α) :
    run step s (a :: as) = (step s a).bind fun t => run step t as := rfl

theorem run_append (s : σ) (as bs : List α) :
    run step s (as ++ bs) = (run step s as).bind fun t => run step t bs := by
  induction as generalizing s with
  | nil => rfl
  | cons a as ih =>
    cases h : step s a with
    | none => simp [h]
    | some t => simp [h, ih]

/-- A run that ends in `u` after one more label passed through the state before it. -/
theorem run_concat_eq_some {s u : σ} {as : List α} {a : α} :
    run step s (as ++ [a]) = some u ↔ ∃ t, run step s as = some t ∧ step t a = some u := by
  rw [run_append, Option.bind_eq_some_iff]
  refine exists_congr fun t => and_congr_right fun _ => ?_
  cases h : step t a <;> simp [h]

@[simp] theorem meets_nil (s : σ) : Meets step cond s [] := trivial

theorem meets_cons {s : σ} {a : α} {as : List α} :
    Meets step cond s (a :: as) ↔
      cond s a ∧ ∀ t, step s a = some t → Meets step cond t as := Iff.rfl

instance decidableMeets [∀ s a, Decidable (cond s a)] :
    ∀ (s : σ) (as : List α), Decidable (Meets step cond s as)
  | _, [] => isTrue trivial
  | s, a :: as =>
    have (t : σ) : Decidable (Meets step cond t as) := decidableMeets t as
    inferInstanceAs (Decidable (cond s a ∧ ∀ t ∈ step s a, Meets step cond t as))

theorem meets_append {s : σ} {as bs : List α} :
    Meets step cond s (as ++ bs) ↔
      Meets step cond s as ∧ ∀ t, run step s as = some t → Meets step cond t bs := by
  induction as generalizing s with
  | nil => simp
  | cons a as ih =>
    simp only [List.cons_append, meets_cons, ih, run_cons, Option.bind_eq_some_iff]
    constructor
    · rintro ⟨hc, h⟩
      exact ⟨⟨hc, fun t ht => (h t ht).1⟩, fun u ⟨t, ht, hu⟩ => (h t ht).2 u hu⟩
    · rintro ⟨⟨hc, h⟩, h'⟩
      exact ⟨hc, fun t ht => ⟨h t ht, fun u hu => h' u ⟨t, ht, hu⟩⟩⟩

theorem meets_concat {s : σ} {as : List α} {a : α} :
    Meets step cond s (as ++ [a]) ↔
      Meets step cond s as ∧ ∀ t, run step s as = some t → cond t a := by
  simp [meets_append, meets_cons]

/-- `Meets` spelled out over the splits of the run. -/
theorem meets_iff_forall_split {s : σ} {as : List α} :
    Meets step cond s as ↔
      ∀ pre a post, as = pre ++ a :: post → ∀ t, run step s pre = some t → cond t a := by
  constructor
  · rintro h pre a post rfl t ht
    exact ((meets_append.mp h).2 t ht).1
  · intro h
    induction as using List.reverseRecOn with
    | nil => trivial
    | append_singleton as a ih =>
      refine meets_concat.mpr ⟨ih ?_, h as a [] rfl⟩
      rintro pre b post rfl t ht
      exact h pre b (post ++ [a]) (by simp) t ht

/-- What holds of each label, in whatever state it is taken, is met by every run of them. -/
theorem meets_of_forall {s : σ} {as : List α} (h : ∀ a ∈ as, ∀ t, cond t a) :
    Meets step cond s as := by
  rw [meets_iff_forall_split]
  rintro pre a post rfl t -
  exact h a (List.mem_append_right _ List.mem_cons_self) t

theorem Meets.imp {s : σ} {as : List α} (h : Meets step cond s as)
    (himp : ∀ t a, cond t a → cond' t a) : Meets step cond' s as := by
  rw [meets_iff_forall_split] at h ⊢
  exact fun pre a post he t ht => himp t a (h pre a post he t ht)

theorem meets_and {s : σ} {as : List α} :
    Meets step (fun t a => cond t a ∧ cond' t a) s as ↔
      Meets step cond s as ∧ Meets step cond' s as := by
  simp only [meets_iff_forall_split]
  exact ⟨fun h => ⟨fun pre a post he t ht => (h pre a post he t ht).1,
      fun pre a post he t ht => (h pre a post he t ht).2⟩,
    fun h pre a post he t ht => ⟨h.1 pre a post he t ht, h.2 pre a post he t ht⟩⟩

/-- Two conditions that agree under an invariant which the first of them keeps are met by
the same runs. -/
theorem meets_congr_of_invariant {I : σ → Prop} {s : σ} {as : List α} (init : I s)
    (next : ∀ t a u, I t → cond t a → step t a = some u → I u)
    (h : ∀ t a, I t → (cond t a ↔ cond' t a)) :
    Meets step cond s as ↔ Meets step cond' s as := by
  induction as generalizing s with
  | nil => exact Iff.rfl
  | cons a as ih =>
    rw [meets_cons, meets_cons, ← h s a init]
    refine and_congr_right fun hc => forall₂_congr fun t ht => ?_
    exact ih (next s a t init hc ht)

/-- Two conditions that agree wherever a run goes are met by the same runs. -/
theorem meets_congr {s : σ} {as : List α}
    (h : ∀ pre t a, run step s pre = some t → (cond t a ↔ cond' t a)) :
    Meets step cond s as ↔ Meets step cond' s as := by
  simp only [meets_iff_forall_split]
  exact ⟨fun hm pre a post he t ht => (h pre t a ht).mp (hm pre a post he t ht),
    fun hm pre a post he t ht => (h pre t a ht).mpr (hm pre a post he t ht)⟩

/-- Induction along a run whose labels all meet `cond`: what holds at the start and is
kept by every step holds, of the labels taken so far, wherever the run ends. -/
theorem run_induction {P : List α → σ → Prop} {s : σ} (init : P [] s)
    (next : ∀ as t a u, run step s as = some t → P as t → cond t a → step t a = some u →
      P (as ++ [a]) u)
    {as : List α} {t : σ} (hrun : run step s as = some t) (hmeets : Meets step cond s as) :
    P as t := by
  induction as using List.reverseRecOn generalizing t with
  | nil =>
    cases hrun
    exact init
  | append_singleton as a ih =>
    obtain ⟨u, hu, hstep⟩ := run_concat_eq_some.mp hrun
    obtain ⟨hm, hc⟩ := meets_concat.mp hmeets
    exact next as u a t hu (ih hu hm) (hc u hu) hstep

/-- The unconditional rule: an invariant of every step is an invariant of every run. -/
theorem run_invariant {I : σ → Prop} {s t : σ} {as : List α} (init : I s)
    (next : ∀ t a u, I t → step t a = some u → I u)
    (hrun : run step s as = some t) : I t := by
  have hmeets : Meets step (fun _ _ => True) s as := meets_of_forall fun _ _ _ => trivial
  exact run_induction (P := fun _ t => I t) init
    (fun _ t a u _ ht _ hu => next t a u ht hu) hrun hmeets

/-- An invariant kept by the steps that meet `cond` holds after every such run. -/
theorem run_invariant_of_meets {I : σ → Prop} {s t : σ} {as : List α} (init : I s)
    (next : ∀ t a u, I t → cond t a → step t a = some u → I u)
    (hrun : run step s as = some t) (hmeets : Meets step cond s as) : I t :=
  run_induction (P := fun _ t => I t) init (fun _ t a u _ => next t a u) hrun hmeets

/-- A run keeps `I` as long as its labels meet `cond`; where the first one does not, `B` sets
in for good. -/
theorem meets_or {I B : σ → Prop} {s t : σ} {as : List α} (init : I s)
    (next : ∀ t a u, I t → cond t a → step t a = some u → I u)
    (fail : ∀ t a u, I t → ¬ cond t a → step t a = some u → B u)
    (stay : ∀ t a u, B t → step t a = some u → B u) (hrun : run step s as = some t) :
    Meets step cond s as ∧ I t ∨ B t := by
  induction as using List.reverseRecOn generalizing t with
  | nil =>
    cases hrun
    exact .inl ⟨meets_nil s, init⟩
  | append_singleton as a ih =>
    obtain ⟨u, hu, hstep⟩ := run_concat_eq_some.mp hrun
    -- the last label may be the first that does not meet `cond`
    rcases ih hu with ⟨hmeets, hinv⟩ | hbroken
    · by_cases hc : cond u a
      · refine .inl ⟨meets_concat.mpr ⟨hmeets, fun v hv => ?_⟩, next u a t hinv hc hstep⟩
        cases hu.symm.trans hv
        exact hc
      · exact .inr (fail u a t hinv hc hstep)
    · exact .inr (stay u a t hbroken hstep)

end LebStudy.Transition
