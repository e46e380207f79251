import Mathlib.Data.List.Induction

/-!
# What a run collects

A run over a list keeps a state, and at each item it collects at most one value, by the
state in front of the item. Two runs collect the same behind every prefix exactly if they
collect the same at every item.
-/

namespace LebStudy

section Collect

variable {σ τ α β : Type*}

/-- The values that a run from `s` collects. -/
def collect (entry : σ → α → Option β) (next : σ → α → σ) (s : σ) : List α → List β
  | [] => []
  | a :: l => (entry s a).toList ++ collect entry next (next s a) l

variable {entry : σ → α → Option β} {next : σ → α → σ} {entry' : τ → α → Option β}
  {next' : τ → α → τ}

theorem collect_append (s : σ) (l m : List α) :
    collect entry next s (l ++ m) =
      collect entry next s l ++ collect entry next (l.foldl next s) m := by
  induction l generalizing s with
  | nil => rfl
  | cons a l ih => rw [List.cons_append, collect, ih, collect, List.append_assoc, List.foldl_cons]

theorem collect_concat (s : σ) (l : List α) (a : α) :
    collect entry next s (l ++ [a]) =
      collect entry next s l ++ (entry (l.foldl next s) a).toList := by
  rw [collect_append, collect, collect, List.append_nil]

/-- Without the state the run is a `filterMap`. -/
theorem collect_stateless (f : α → Option β) (s : σ) (l : List α) :
    collect (fun _ => f) next s l = l.filterMap f := by
  induction l generalizing s with
  | nil => rfl
  | cons a l ih =>
    rw [collect, ih, List.filterMap_cons]
    cases f a <;> rfl

theorem toList_injective {x y : Option β} (h : x.toList = y.toList) : x = y := by
  cases x <;> cases y <;> simp_all

/-- Behind every prefix the same is collected exactly if it is at every item. -/
theorem collect_eq_iff (s : σ) (t : τ) (l : List α) :
    (∀ pre post, l = pre ++ post → collect entry next s pre = collect entry' next' t pre) ↔
      ∀ pre a post, l = pre ++ a :: post →
        entry (pre.foldl next s) a = entry' (pre.foldl next' t) a := by
  constructor
  · intro h pre a post hsplit
    have hpre := h pre (a :: post) hsplit
    have hitem := h (pre ++ [a]) post (by simpa using hsplit)
    rw [collect_concat, collect_concat, hpre] at hitem
    exact toList_injective (List.append_cancel_left hitem)
  · intro h pre
    induction pre using List.reverseRecOn with
    | nil =>
      intro _ _
      rfl
    | append_singleton pre a ih =>
      intro post hsplit
      have hsplit' : l = pre ++ a :: post := by simpa using hsplit
      rw [collect_concat, collect_concat, ih (a :: post) hsplit', h pre a post hsplit']

/-- Without the state: the same behind every prefix, exactly if the same at every item. -/
theorem filterMap_eq_iff (f g : α → Option β) (l : List α) :
    (∀ pre post, l = pre ++ post → pre.filterMap f = pre.filterMap g) ↔ ∀ a ∈ l, f a = g a := by
  have hcollect (h : α → Option β) (m : List α) :
      m.filterMap h = collect (fun _ => h) (fun u _ => u) () m := (collect_stateless h () m).symm
  simp only [hcollect]
  rw [collect_eq_iff]
  constructor
  · intro h a hmem
    obtain ⟨pre, post, hsplit⟩ := List.append_of_mem hmem
    exact h pre a post hsplit
  · intro h pre a post hsplit
    exact h a (by simp [hsplit])

/-! ### Items that collect in every state or in none -/

theorem collect_length_eq (hsome : ∀ s t a, (entry s a).isSome = (entry' t a).isSome) (s : σ)
    (t : τ) (l : List α) :
    (collect entry next s l).length = (collect entry' next' t l).length := by
  induction l generalizing s t with
  | nil => rfl
  | cons a l ih =>
    rw [collect, collect, List.length_append, List.length_append, Option.length_toList,
      Option.length_toList, hsome s t a, ih (next s a) (next' t a)]

/-- Two runs then collect the same at every item if they have collected the same at the end. -/
theorem collect_end_eq_iff (hsome : ∀ s t a, (entry s a).isSome = (entry' t a).isSome) (s : σ)
    (t : τ) (l : List α) :
    collect entry next s l = collect entry' next' t l ↔
      ∀ pre a post, l = pre ++ a :: post →
        entry (pre.foldl next s) a = entry' (pre.foldl next' t) a := by
  constructor
  · intro h
    induction l generalizing s t with
    | nil =>
      intro pre a post hsplit
      exact absurd hsplit (by simp)
    | cons b l ih =>
      have hlen : (entry s b).toList.length = (entry' t b).toList.length := by
        rw [Option.length_toList, Option.length_toList, hsome s t b]
      obtain ⟨hhead, htail⟩ := List.append_inj h hlen
      intro pre a post hsplit
      cases pre with
      | nil =>
        obtain ⟨rfl, -⟩ := List.cons.inj hsplit
        exact toList_injective hhead
      | cons c pre =>
        obtain ⟨rfl, hrest⟩ := List.cons.inj hsplit
        exact ih (next s b) (next' t b) htail pre a post hrest
  · intro h
    exact (collect_eq_iff s t l).mpr h l [] (List.append_nil l).symm

/-- An item can be left out exactly if it collects nothing and the items behind it collect what
they would from the state in front of it. -/
theorem collect_without_iff (hsome : ∀ s t a, (entry s a).isSome = (entry t a).isSome) (s : σ)
    (pre post : List α) (a : α) :
    collect entry next s (pre ++ a :: post) = collect entry next s (pre ++ post) ↔
      entry (pre.foldl next s) a = none ∧ ∀ mid b rest, post = mid ++ b :: rest →
        entry (mid.foldl next (next (pre.foldl next s) a)) b =
          entry (mid.foldl next (pre.foldl next s)) b := by
  rw [collect_append, collect_append, List.append_cancel_left_eq, collect]
  generalize pre.foldl next s = t
  rw [← collect_end_eq_iff hsome]
  constructor
  · intro h
    have hlen := congrArg List.length h
    have hbehind : (collect entry next (next t a) post).length =
        (collect entry next t post).length := collect_length_eq hsome _ _ _
    rw [List.length_append, hbehind] at hlen
    have hnone : entry t a = none := Option.length_toList_eq_zero_iff.mp (by omega)
    rw [hnone, Option.toList_none, List.nil_append] at h
    exact ⟨hnone, h⟩
  · rintro ⟨hnone, hbehind⟩
    rw [hnone, Option.toList_none, List.nil_append, hbehind]

end Collect

end LebStudy
