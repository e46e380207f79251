import Mathlib.Data.List.Basic

/-!
# Services and what they are specified to do

A service answers requests one at a time from a state of its own, and may stay without an
answer. It is compared with a specification that always has one, through a function that
says which state of the specification a state of the service stands for. What is shown for
one request holds for any list of them.
-/

namespace LebStudy

namespace Service

variable {σ τ ι ο : Type*}

/-- The answers to these requests, and the state behind the last of them; none where one of
the requests stays without an answer. -/
def answers (serve : σ → ι → Option (ο × σ)) : σ → List ι → Option (List ο × σ)
  | s, [] => some ([], s)
  | s, i :: is =>
    (serve s i).bind fun (o, s) => (answers serve s is).map fun (os, s) => (o :: os, s)

/-- The answers that are specified. -/
def specified (spec : τ → ι → ο × τ) : τ → List ι → List ο × τ
  | t, [] => ([], t)
  | t, i :: is =>
    let (o, t) := spec t i
    let (os, t) := specified spec t is
    (o :: os, t)

/-- An answer is the specified one, in all states with `inv`, and `inv` is kept. -/
structure Refines (serve : σ → ι → Option (ο × σ)) (spec : τ → ι → ο × τ) (abs : σ → τ)
    (inv : σ → Prop) : Prop where
  agrees : ∀ {s i o s'}, inv s → serve s i = some (o, s') → (o, abs s') = spec (abs s) i
  keeps : ∀ {s i o s'}, inv s → serve s i = some (o, s') → inv s'

variable {serve : σ → ι → Option (ο × σ)} {spec : τ → ι → ο × τ} {abs : σ → τ}
  {inv : σ → Prop} {s s' : σ} {is : List ι} {os : List ο}

theorem answers_cons_eq_some {i : ι} :
    answers serve s (i :: is) = some (os, s') ↔
      ∃ o s₁ os', serve s i = some (o, s₁) ∧ answers serve s₁ is = some (os', s') ∧
        os = o :: os' := by
  rw [answers, Option.bind_eq_some_iff]
  constructor
  · rintro ⟨⟨o, s₁⟩, hserve, hrest⟩
    obtain ⟨⟨os', s₂⟩, hanswers, heq⟩ := Option.map_eq_some_iff.mp hrest
    cases heq
    exact ⟨o, s₁, os', hserve, hanswers, rfl⟩
  · rintro ⟨o, s₁, os', hserve, hanswers, rfl⟩
    exact ⟨(o, s₁), hserve, by simp [hanswers]⟩

theorem specified_cons (t : τ) (i : ι) (is : List ι) :
    specified spec t (i :: is) =
      ((spec t i).1 :: (specified spec (spec t i).2 is).1,
        (specified spec (spec t i).2 is).2) := rfl

theorem specified_concat (t : τ) (is : List ι) (i : ι) :
    specified spec t (is ++ [i]) =
      ((specified spec t is).1 ++ [(spec (specified spec t is).2 i).1],
        (spec (specified spec t is).2 i).2) := by
  induction is generalizing t with
  | nil => rfl
  | cons j is ih => rw [List.cons_append, specified_cons, specified_cons, ih, List.cons_append]

/-- What is preserved by each request is preserved by a list of them. -/
theorem inv_of_answers (keeps : ∀ {s i o s'}, inv s → serve s i = some (o, s') → inv s')
    (hs : inv s) (h : answers serve s is = some (os, s')) : inv s' := by
  induction is generalizing s os with
  | nil =>
    cases h
    exact hs
  | cons i is ih =>
    obtain ⟨o, s₁, os', hserve, hanswers, -⟩ := answers_cons_eq_some.mp h
    exact ih (keeps hs hserve) hanswers

/-- The answers to a list of requests are the specified ones. -/
theorem Refines.answers_eq (href : Refines serve spec abs inv) (hs : inv s)
    (h : answers serve s is = some (os, s')) : (os, abs s') = specified spec (abs s) is := by
  induction is generalizing s os with
  | nil =>
    cases h
    rfl
  | cons i is ih =>
    obtain ⟨o, s₁, os', hserve, hanswers, rfl⟩ := answers_cons_eq_some.mp h
    have hone := href.agrees hs hserve
    have hrest := ih (href.keeps hs hserve) hanswers
    rw [specified_cons, ← hone]
    show (o :: os', abs s') =
      (o :: (specified spec (abs s₁) is).1, (specified spec (abs s₁) is).2)
    rw [← hrest]

/-- If each request is answered, so is any list of them. -/
theorem answers_isSome (keeps : ∀ {s i o s'}, inv s → serve s i = some (o, s') → inv s')
    (total : ∀ {s i}, inv s → (serve s i).isSome) (hs : inv s) (is : List ι) :
    (answers serve s is).isSome := by
  induction is generalizing s with
  | nil => rfl
  | cons i is ih =>
    obtain ⟨⟨o, s₁⟩, hserve⟩ := Option.isSome_iff_exists.mp (total (i := i) hs)
    obtain ⟨⟨os, s₂⟩, hanswers⟩ := Option.isSome_iff_exists.mp (ih (keeps hs hserve))
    exact Option.isSome_iff_exists.mpr
      ⟨_, answers_cons_eq_some.mpr ⟨o, s₁, os, hserve, hanswers, rfl⟩⟩

end Service

end LebStudy
