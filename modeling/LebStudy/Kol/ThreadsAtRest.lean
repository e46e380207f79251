import LebStudy.Kol.ThreadController

/-!
# When a controller can be destroyed

A posted thread, its deleter and the owner have a few steps each, and the only one that waits for
more than a thread which has its last steps to take is the destructor: it polls until nothing runs.
A thread that could not be created, or whose deleter could not, is counted as running for ever.
-/

namespace LebStudy

open Transition

/-! ### How much is left to do -/

def WorkerPc.work : WorkerPc → ℕ
  | .run => 10
  | .done => 9
  | .setId => 1
  | .none | .ended => 0

def DeleterPc.work : DeleterPc → ℕ
  | .lock => 7
  | .join => 6
  | .takeId => 5
  | .joinThread => 4
  | .delete => 3
  | .count => 2
  | .unlock => 1
  | .none | .ended => 0

def PostedThread.work (t : PostedThread) : ℕ := t.worker.work + t.deleter.work

def OwnerPc.work {n : ℕ} : OwnerPc n → ℕ
  | .post k => 13 * (n - k) + 3
  | .store i => 13 * (n - (i + 1)) + 5
  | .count i => 13 * (n - (i + 1)) + 4
  | .poll => 2
  | .join => 1
  | .ended => 0

namespace ThreadController

variable {n : ℕ}

/-- All steps but those with which the destructor waits. -/
def Busy (s : ThreadController n) : ThreadAction n → Prop
  | .owner _ => s.owner = .poll → s.mRunning = 0
  | .worker _ _ | .deleter _ => True

instance : ∀ (s : ThreadController n) (a : ThreadAction n), Decidable (s.Busy a)
  | s, .owner _ => inferInstanceAs (Decidable (s.owner = .poll → s.mRunning = 0))
  | _, .worker _ _ | _, .deleter _ => .isTrue trivial

def work (s : ThreadController n) : ℕ := (∑ i, (s.threads i).work) + s.owner.work

theorem work_setThread (s : ThreadController n) (i : Fin n) (t : PostedThread) :
    (s.setThread i t).work + (s.threads i).work = s.work + t.work := by
  have hsum := sum_update PostedThread.work s.threads i t
  simp only [work, setThread]
  omega

/-- A step of a thread or of its deleter, which does not move the owner. -/
theorem work_move {s u : ThreadController n} {i : Fin n} {t : PostedThread}
    (hthreads : u.threads = s.threads) (howner : u.owner = s.owner)
    (hlower : 1 + t.work ≤ (s.threads i).work) : 1 + (u.setThread i t).work ≤ s.work := by
  have hset := work_setThread u i t
  have hwork : u.work = s.work := by rw [work, work, hthreads, howner]
  rw [hthreads] at hset
  omega

theorem work_ownerStep {s t : ThreadController n} {creates : Bool}
    (h : s.ownerStep creates = some t) :
    (if s.Busy (.owner creates) then 1 else 0) + t.work ≤ s.work := by
  have hone : (if s.Busy (.owner creates) then 1 else 0) ≤ 1 := by split <;> omega
  cases ownerStep_kind h with
  | create k howner =>
    have hset := work_setThread s k { s.threads k with worker := .run }
    simp only [work, howner, OwnerPc.work, setThread, PostedThread.work, WorkerPc.work] at *
    omega
  | fail k howner | posted k _ howner hk | count k _ howner hfree | leave _ howner hfree hzero =>
    simp only [work, howner, OwnerPc.work] at *
    omega
  | store k _ howner =>
    have hset := work_setThread s k { s.threads k with threadid := true }
    simp only [work, howner, OwnerPc.work, setThread, PostedThread.work] at *
    omega
  | wait _ howner hrunning =>
    have hidle : ¬ s.Busy (.owner creates) := fun hbusy => hrunning (hbusy howner)
    rw [if_neg hidle, Nat.zero_add]
  | join _ u howner hjoin =>
    obtain ⟨hthreads, -⟩ := joinId_frame hjoin
    simp only [work, howner, OwnerPc.work, hthreads] at *
    omega

theorem work_workerStep {s t : ThreadController n} {i : Fin n} {creates : Bool}
    (h : s.workerStep i creates = some t) : 1 + t.work ≤ s.work := by
  rw [workerStep] at h
  cases hworker : (s.threads i).worker with
  | none | ended =>
    rw [hworker] at h
    cases h
  | run | setId =>
    rw [hworker] at h
    cases h
    apply work_move rfl rfl
    simp only [PostedThread.work, hworker, WorkerPc.work]
    omega
  | done =>
    rw [hworker] at h
    cases h
    apply work_move rfl rfl
    cases creates with
    | true => simp [PostedThread.work, hworker, WorkerPc.work, DeleterPc.work]
    | false =>
      rw [PostedThread.work, PostedThread.work, hworker]
      show 1 + (1 + 0) ≤ 9 + _
      omega

theorem work_deleterStep {s t : ThreadController n} {i : Fin n}
    (h : s.deleterStep i = some t) : 1 + t.work ≤ s.work := by
  rw [deleterStep] at h
  cases hpc : (s.threads i).deleter with
  | none | ended =>
    rw [hpc] at h
    cases h
  | lock | joinThread =>
    simp only [hpc] at h
    split at h <;> cases h
    apply work_move rfl rfl
    simp only [PostedThread.work, hpc, DeleterPc.work]
    omega
  | join =>
    rw [hpc] at h
    obtain ⟨u, hu, rfl⟩ := Option.map_eq_some_iff.mp h
    obtain ⟨hthreads, howner⟩ := joinId_frame hu
    apply work_move hthreads howner
    simp only [PostedThread.work, hpc, DeleterPc.work]
    omega
  | takeId | delete | count | unlock =>
    rw [hpc] at h
    cases h
    apply work_move rfl rfl
    simp only [PostedThread.work, hpc, DeleterPc.work]
    omega

/-- Busy steps lower the work that is left. -/
theorem work_step {s t : ThreadController n} {a : ThreadAction n} (h : s.step a = some t) :
    (if s.Busy a then 1 else 0) + t.work ≤ s.work := by
  cases a with
  | owner creates => exact work_ownerStep h
  | worker i creates => exact work_workerStep h
  | deleter i => exact work_deleterStep h

/-! ### What has come to rest -/

/-- Nobody does anything any more but wait. -/
def AtRest (s : ThreadController n) : Prop := Settled step Busy s

section AtRest

variable {s : ThreadController n}

theorem worker_of_atRest (hs : s.AtRest) (i : Fin n) :
    (s.threads i).worker = .none ∨ (s.threads i).worker = .ended := by
  have hnone : s.workerStep i true = none := by
    cases h : s.workerStep i true with
    | none => rfl
    | some t =>
      have hstep : s.step (.worker i true) = some t := h
      exact absurd trivial (hs.not_busy hstep)
  cases hworker : (s.threads i).worker with
  | none => exact .inl rfl
  | ended => exact .inr rfl
  | run | done | setId =>
    rw [workerStep, hworker] at hnone
    cases hnone

theorem deleterStep_of_atRest (hs : s.AtRest) (i : Fin n) : s.deleterStep i = none := by
  cases h : s.deleterStep i with
  | none => rfl
  | some t =>
    have hstep : s.step (.deleter i) = some t := h
    exact absurd trivial (hs.not_busy hstep)

/-- The join of the deleter before never blocks the one that holds the mutex. -/
theorem joinId_isSome (hinv : s.Inv)
    (h : ∀ j, (s.threads j).deleter.HasTakenId → (s.threads j).deleter = .ended) :
    s.joinId.isSome := by
  rw [joinId]
  split
  · rfl
  · next j hj =>
    have hended := h j (hinv.taken j ((hinv.held j).mp hj).1)
    rw [if_pos hended]
    rfl

/-- A deleter with a thread to join finds that it has ended. -/
theorem worker_ended_of_atRest (hs : s.AtRest) (hinv : s.Inv) {i : Fin n}
    (h : (s.threads i).deleter ≠ .none) : (s.threads i).worker = .ended := by
  obtain hnone | hended := worker_of_atRest hs i
  · exact absurd ((hinv.ordered i).absent (.inl hnone)) h
  · exact hended

/-- Nobody waits for the mutex, or for a thread, for ever. -/
theorem mutex_of_atRest (hs : s.AtRest) (hinv : s.Inv) : s.mutex = none := by
  cases hmutex : s.mutex with
  | none => rfl
  | some i =>
    have hholds := (hinv.mutex i).mp hmutex
    have hnone := deleterStep_of_atRest hs i
    rw [deleterStep] at hnone
    cases hpc : (s.threads i).deleter with
    | none | lock | ended =>
      rw [hpc] at hholds
      exact absurd hholds id
    | takeId | delete | count | unlock =>
      rw [hpc] at hnone
      cases hnone
    | join =>
      have hsome : s.joinId.isSome := by
        apply joinId_isSome hinv
        intro j htook
        obtain hended | hj := DeleterPc.ended_or_holds htook
        · exact hended
        · -- the other would hold the mutex as well
          rw [← hinv.mutex j, hmutex] at hj
          cases hj
          rw [hpc] at htook
          exact absurd htook id
      rw [hpc] at hnone
      rw [Option.map_eq_none_iff.mp hnone] at hsome
      cases hsome
    | joinThread =>
      have hended := worker_ended_of_atRest hs hinv (i := i) (by simp [hpc])
      rw [hpc] at hnone
      simp [hended] at hnone

theorem deleter_of_atRest (hs : s.AtRest) (hinv : s.Inv) (i : Fin n) :
    (s.threads i).deleter = .none ∨ (s.threads i).deleter = .ended := by
  have hfree := mutex_of_atRest hs hinv
  have hholds : ¬ (s.threads i).deleter.Holds := by
    rw [← hinv.mutex i, hfree]
    simp
  have hnone := deleterStep_of_atRest hs i
  cases hpc : (s.threads i).deleter with
  | none => exact .inl rfl
  | ended => exact .inr rfl
  | lock =>
    rw [deleterStep, hpc] at hnone
    simp [hfree] at hnone
  | join | takeId | joinThread | delete | count | unlock =>
    rw [hpc] at hholds
    exact absurd trivial hholds

/-- Only its end stops the owner, once the mutex is free. -/
theorem ownerStep_isSome (hinv : s.Inv) (hfree : s.mutex = none) (h : s.owner ≠ .ended) :
    (s.ownerStep true).isSome := by
  rw [ownerStep]
  cases howner : s.owner with
  | ended => exact absurd howner h
  | post k =>
    simp only
    split <;> rfl
  | store i => rfl
  | count i => simp [hfree]
  | poll =>
    simp only [hfree, if_true]
    split <;> rfl
  | join =>
    rw [Option.isSome_map]
    exact joinId_isSome hinv fun j _ => hinv.allEnded (.inl howner) j

/-- At rest the owner has destroyed the controller, or it polls for ever. -/
theorem owner_of_atRest (hs : s.AtRest) (hinv : s.Inv) :
    s.owner = .ended ∨ s.owner = .poll ∧ s.mRunning ≠ 0 := by
  by_cases hended : s.owner = .ended
  · exact .inl hended
  · obtain ⟨t, ht⟩ :=
      Option.isSome_iff_exists.mp (ownerStep_isSome hinv (mutex_of_atRest hs hinv) hended)
    have hstep : s.step (.owner true) = some t := ht
    have hnot := hs.not_busy hstep
    rw [Busy, Classical.not_imp] at hnot
    exact .inr hnot

/-- Who has posted them all, and counts none. -/
theorem running_eq (hinv : s.Inv) (howner : s.owner = .poll)
    (hrest : ∀ i, (s.threads i).deleter = .none ∨ (s.threads i).deleter = .ended) :
    s.mRunning = (Finset.univ.filter fun i => (s.threads i).deleter = .none).card := by
  have hgone : ∀ i, (s.threads i).deleter.gone + (if (s.threads i).deleter = .none then 1 else 0)
      = 1 := by
    intro i
    obtain h | h := hrest i <;> simp [h, DeleterPc.gone]
  have hsum := Finset.sum_congr rfl fun i (_ : i ∈ Finset.univ) => hgone i
  rw [Finset.sum_add_distrib, ← Finset.card_filter] at hsum
  have hrunning := hinv.running
  simp only [howner, OwnerPc.counted, Finset.sum_const, Finset.card_univ, Fintype.card_fin,
    smul_eq_mul, mul_one] at hsum hrunning
  omega

end AtRest

/-! ### Threads that are not created -/

/-- The step calls `pthread_create` for thread `i` or for its deleter, and the call fails. -/
def Fails (s : ThreadController n) : ThreadAction n → Fin n → Prop
  | .owner creates, i => s.owner = .post i ∧ creates = false
  | .worker j creates, i => j = i ∧ (s.threads j).worker = .done ∧ creates = false
  | .deleter _, _ => False

instance : ∀ (s : ThreadController n) (a : ThreadAction n) (i : Fin n), Decidable (s.Fails a i)
  | s, .owner creates, i => inferInstanceAs (Decidable (s.owner = .post i ∧ creates = false))
  | s, .worker j creates, i =>
    inferInstanceAs (Decidable (j = i ∧ (s.threads j).worker = .done ∧ creates = false))
  | _, .deleter _, _ => .isFalse id

/-- Nobody will delete the thread: it has not been created, or its deleter has not. -/
def Lost (s : ThreadController n) (i : Fin n) : Prop :=
  ((s.threads i).worker = .none ∧ (i : ℕ) < s.owner.posted) ∨
    ((s.threads i).worker = .setId ∨ (s.threads i).worker = .ended) ∧
      (s.threads i).deleter = .none

section Lost

variable {s t : ThreadController n} {i : Fin n}

theorem lost_start (i : Fin n) : ¬ (start n).Lost i := by
  simp [Lost, start, OwnerPc.posted]

/-- Only where the thread stands, where its deleter does, and what has been posted count. -/
theorem lost_congr (hworker : (t.threads i).worker = (s.threads i).worker)
    (hdeleter : (t.threads i).deleter = .none ↔ (s.threads i).deleter = .none)
    (hposted : (i : ℕ) < t.owner.posted ↔ (i : ℕ) < s.owner.posted) : t.Lost i ↔ s.Lost i := by
  rw [Lost, Lost, hworker, hdeleter, hposted]

theorem lost_ownerStep (hs : s.Inv) {creates : Bool} (h : s.ownerStep creates = some t) :
    t.Lost i ↔ s.Lost i ∨ s.Fails (.owner creates) i := by
  -- what is posted next is not lost yet
  have hnot : s.owner = .post i → (s.threads i).worker = .none ∧ ¬ s.Lost i := by
    intro howner
    have hposted : s.owner.posted ≤ i := by
      rw [howner]
      exact min_le_left _ _
    have hworker := worker_of_post hs howner
    simp [Lost, hworker, hposted]
  have hposted : ∀ k : Fin n, s.owner = .post k → i ≠ k →
      ((i : ℕ) < (k : ℕ) + 1 ↔ (i : ℕ) < s.owner.posted) := by
    intro k howner hi
    have hne : (i : ℕ) ≠ k := fun h => hi (Fin.ext h)
    rw [howner, OwnerPc.posted]
    omega
  cases ownerStep_kind h with
  | create k howner =>
    by_cases hi : i = k
    · subst hi
      rw [or_iff_right (hnot howner).2]
      simp [Lost, Fails, setThread]
    · rw [or_iff_left (by simp [Fails])]
      apply lost_congr
      · simp [setThread, hi]
      · simp [setThread, hi]
      · exact hposted k howner hi
  | fail k howner =>
    by_cases hi : i = k
    · subst hi
      rw [or_iff_right (hnot howner).2]
      simp [Lost, Fails, howner, (hnot howner).1, OwnerPc.posted]
    · have hne : (i : ℕ) ≠ k := fun h => hi (Fin.ext h)
      rw [or_iff_left (by simp [Fails, howner, hne.symm])]
      apply lost_congr
      · rfl
      · rfl
      · exact hposted k howner hi
  | posted k _ howner hk =>
    have hne : k ≠ i := by omega
    rw [or_iff_left (by simp [Fails, howner, hne])]
    apply lost_congr
    · rfl
    · rfl
    · simp only [howner, OwnerPc.posted]
      omega
  | store k _ howner =>
    rw [or_iff_left (by simp [Fails, howner])]
    by_cases hi : i = k
    · subst hi
      apply lost_congr <;> simp [setThread, howner, OwnerPc.posted]
    · apply lost_congr <;> simp [setThread, hi, howner, OwnerPc.posted]
  | count k _ howner hfree =>
    rw [or_iff_left (by simp [Fails, howner])]
    apply lost_congr
    · rfl
    · rfl
    · simp only [howner, OwnerPc.posted]
      omega
  | leave _ howner hfree hzero =>
    rw [or_iff_left (by simp [Fails, howner])]
    apply lost_congr <;> simp [howner, OwnerPc.posted]
  | wait _ howner hrunning => rw [or_iff_left (by simp [Fails, howner])]
  | join _ u howner hjoin =>
    obtain ⟨hthreads, -⟩ := joinId_frame hjoin
    rw [or_iff_left (by simp [Fails, howner])]
    apply lost_congr <;> simp [hthreads, howner, OwnerPc.posted]

theorem lost_workerStep (hs : s.Inv) {j : Fin n} {creates : Bool}
    (h : s.workerStep j creates = some t) :
    t.Lost i ↔ s.Lost i ∨ s.Fails (.worker j creates) i := by
  have habsent := (hs.ordered j).absent
  rw [workerStep] at h
  cases hworker : (s.threads j).worker with
  | none | ended =>
    rw [hworker] at h
    cases h
  | run =>
    rw [hworker] at h
    cases h
    rw [or_iff_left (by simp [Fails, hworker])]
    by_cases hi : i = j
    · subst hi
      simp [Lost, setThread, hworker]
    · apply lost_congr <;> simp [setThread, hi]
  | done =>
    rw [hworker] at h
    cases h
    by_cases hi : i = j
    · subst hi
      cases creates <;> simp [Lost, setThread, Fails, hworker]
    · rw [or_iff_left (by simp [Fails, Ne.symm hi])]
      apply lost_congr <;> simp [setThread, hi]
  | setId =>
    rw [hworker] at h
    cases h
    rw [or_iff_left (by simp [Fails, hworker])]
    by_cases hi : i = j
    · subst hi
      simp [Lost, setThread, hworker]
    · apply lost_congr <;> simp [setThread, hi]

/-- A deleter once created stays. -/
theorem lost_deleterStep {j : Fin n} (h : s.deleterStep j = some t) : t.Lost i ↔ s.Lost i := by
  obtain ⟨pc, hthreads, howner, hcreated, hpc, -⟩ := deleterStep_kind h
  by_cases hi : i = j
  · subst hi
    apply lost_congr <;> simp [hthreads, howner, hcreated, hpc]
  · apply lost_congr <;> simp [hi, hthreads, howner]

theorem lost_step (hs : s.Inv) {a : ThreadAction n} (h : s.step a = some t) :
    t.Lost i ↔ s.Lost i ∨ s.Fails a i := by
  cases a with
  | owner creates => exact lost_ownerStep hs h
  | worker j creates => exact lost_workerStep hs h
  | deleter j => simpa [Fails] using lost_deleterStep h

/-- Every thread will be deleted as long as no `pthread_create` has failed. -/
theorem meets_iff_not_lost {as : List (ThreadAction n)} (h : run step (start n) as = some s) :
    Meets step (fun s a => ∀ i, ¬ s.Fails a i) (start n) as ↔ ∀ i, ¬ s.Lost i := by
  induction as using List.reverseRecOn generalizing s with
  | nil =>
    cases h
    exact iff_of_true (meets_nil _) lost_start
  | append_singleton as a ih =>
    obtain ⟨u, hu, hstep⟩ := run_concat_eq_some.mp h
    rw [meets_concat, ih hu, hu]
    simp only [Option.some.injEq, forall_eq', lost_step (inv_of_run hu) hstep, not_or, forall_and]

/-- At rest the threads that are not deleted are lost. -/
theorem lost_iff_of_atRest (hs : s.AtRest) (hinv : s.Inv) (i : Fin n) :
    s.Lost i ↔ (s.threads i).deleter = .none := by
  constructor
  · rintro (⟨hworker, -⟩ | ⟨-, hdeleter⟩)
    · exact (hinv.ordered i).absent (.inl hworker)
    · exact hdeleter
  · intro hdeleter
    have hposted : s.owner.posted = n := by
      obtain h | ⟨h, -⟩ := owner_of_atRest hs hinv <;> rw [h, OwnerPc.posted]
    obtain hworker | hworker := worker_of_atRest hs i
    · exact .inl ⟨hworker, by rw [hposted]; exact i.isLt⟩
    · exact .inr ⟨.inr hworker, hdeleter⟩

end Lost

/-- A controller that `n` threads are posted to, and its threads, do at most `13 n + 3` steps
besides waiting, and from everywhere can come to rest. At rest no thread and no deleter is left
half done, and the controller has been destroyed if and only if no `pthread_create` has failed; if
one has, the destructor polls for ever, and `m_running` counts the threads that are not deleted. -/
theorem controller_settles {as : List (ThreadAction n)} {s : ThreadController n}
    (hrun : run step (start n) as = some s) :
    busySteps step Busy (start n) as ≤ 13 * n + 3 ∧
      (∃ more t, run step s more = some t ∧ t.AtRest) ∧
      (s.AtRest →
        (∀ i, ((s.threads i).worker = .none ∨ (s.threads i).worker = .ended) ∧
          ((s.threads i).deleter = .none ∨ (s.threads i).deleter = .ended)) ∧
        (s.owner = .ended ↔ Meets step (fun s a => ∀ i, ¬ s.Fails a i) (start n) as) ∧
        (s.owner ≠ .ended → s.owner = .poll ∧
          s.mRunning = (Finset.univ.filter fun i => (s.threads i).deleter = .none).card)) := by
  have hkeeps : ∀ (s : ThreadController n) a t, True → s.step a = some t → True :=
    fun _ _ _ _ _ => trivial
  have hlowers : ∀ (s : ThreadController n) a t, True → s.step a = some t →
      (if s.Busy a then 1 else 0) + t.work ≤ s.work := fun s a t _ h => work_step h
  refine ⟨?_, exists_settled hkeeps hlowers trivial, fun hrest => ?_⟩
  · have hle := busySteps_add_le hkeeps hlowers trivial hrun
    have hwork : (start n).work = 13 * n + 3 := by
      simp [work, start, PostedThread.work, WorkerPc.work, DeleterPc.work, OwnerPc.work]
    omega
  · have hinv := inv_of_run hrun
    have hdeleter := deleter_of_atRest hrest hinv
    refine ⟨fun i => ⟨worker_of_atRest hrest i, hdeleter i⟩, ?_, fun hopen => ?_⟩
    · rw [meets_iff_not_lost hrun]
      simp only [lost_iff_of_atRest hrest hinv]
      constructor
      · intro hended i
        rw [hinv.allEnded (.inr hended) i]
        simp
      · intro hall
        obtain hended | ⟨hpoll, hrunning⟩ := owner_of_atRest hrest hinv
        · exact hended
        · -- none is left that could be counted
          have hcard := running_eq hinv hpoll hdeleter
          rw [Finset.filter_eq_empty_iff.mpr fun i _ => hall i] at hcard
          exact absurd hcard hrunning
    · obtain hended | ⟨hpoll, -⟩ := owner_of_atRest hrest hinv
      · exact absurd hended hopen
      · exact ⟨hpoll, running_eq hinv hpoll hdeleter⟩

/-- A controller that has been destroyed, or waits for a thread that there is not, while no other
thread is half done. -/
theorem atRest_of_ended {s : ThreadController n}
    (howner : s.owner = .ended ∨ s.owner = .poll ∧ s.mRunning ≠ 0)
    (hworker : ∀ i, (s.threads i).worker = .none ∨ (s.threads i).worker = .ended)
    (hdeleter : ∀ i, (s.threads i).deleter = .none ∨ (s.threads i).deleter = .ended) :
    s.AtRest := by
  have hwaits : ∀ a u, s.step a = some u → u = s ∧ ¬ s.Busy a := by
    intro a u h
    cases a with
    | owner creates =>
      obtain hended | ⟨hpoll, hrunning⟩ := howner
      · simp [step, ownerStep, hended] at h
      · simp only [step, ownerStep, hpoll, hrunning, if_false] at h
        split at h <;> cases h
        exact ⟨rfl, fun hbusy => hrunning (hbusy hpoll)⟩
    | worker i creates =>
      obtain hi | hi := hworker i <;> simp [step, workerStep, hi] at h
    | deleter i =>
      obtain hi | hi := hdeleter i <;> simp [step, deleterStep, hi] at h
  intro as t hrun a u hstep
  obtain rfl : t = s := by
    refine run_invariant (I := (· = s)) rfl (fun v b w hv hb => ?_) hrun
    subst hv
    exact (hwaits b w hb).1
  exact (hwaits a u hstep).2

/-- The thread cannot be created. -/
def notCreated : List (ThreadAction 1) := [.owner false, .owner true, .owner true]

theorem controller_settles_oneThread :
    (∃ s, run step (start 1) oneThread = some s ∧
      busySteps step Busy (start 1) oneThread ≤ 16 ∧
      (∃ more t, run step s more = some t ∧ t.AtRest) ∧
      s.AtRest ∧ s.owner = .ended ∧
      Meets step (fun s a => ∀ i, ¬ s.Fails a i) (start 1) oneThread) ∧
    ∃ s, run step (start 1) notCreated = some s ∧ s.AtRest ∧ s.owner = .poll ∧
      s.mRunning = (Finset.univ.filter fun i => (s.threads i).deleter = .none).card ∧
      ¬ Meets step (fun s a => ∀ i, ¬ s.Fails a i) (start 1) notCreated := by
  have hone : (run step (start 1) oneThread).map
      (fun s => (s.owner, (s.threads 0).worker, (s.threads 0).deleter)) =
      some (.ended, .ended, .ended) := by decide +kernel
  have hnot : (run step (start 1) notCreated).map
      (fun s => (s.owner, s.mRunning, (s.threads 0).worker, (s.threads 0).deleter)) =
      some (.poll, 1, .none, .none) := by decide +kernel
  constructor
  · obtain ⟨s, hrun, hends⟩ := Option.map_eq_some_iff.mp hone
    simp only [Prod.mk.injEq] at hends
    obtain ⟨howner, hworker, hdeleter⟩ := hends
    obtain ⟨hle, hmore, hends⟩ := controller_settles hrun
    have hrest : s.AtRest := atRest_of_ended (.inl howner)
      (fun i => .inr (Subsingleton.elim 0 i ▸ hworker))
      (fun i => .inr (Subsingleton.elim 0 i ▸ hdeleter))
    obtain ⟨-, hended, -⟩ := hends hrest
    exact ⟨s, hrun, hle, hmore, hrest, howner, hended.mp howner⟩
  · obtain ⟨s, hrun, hends⟩ := Option.map_eq_some_iff.mp hnot
    simp only [Prod.mk.injEq] at hends
    obtain ⟨hpoll, hrunning, hworker, hdeleter⟩ := hends
    obtain ⟨-, -, hends⟩ := controller_settles hrun
    have hrest : s.AtRest := atRest_of_ended (.inr ⟨hpoll, by simp [hrunning]⟩)
      (fun i => .inl (Subsingleton.elim 0 i ▸ hworker))
      (fun i => .inl (Subsingleton.elim 0 i ▸ hdeleter))
    obtain ⟨-, hended, hcounts⟩ := hends hrest
    have hopen : s.owner ≠ .ended := by simp [hpoll]
    exact ⟨s, hrun, hrest, hpoll, (hcounts hopen).2, fun hmeets => hopen (hended.mpr hmeets)⟩

end ThreadController

end LebStudy
