import LebStudy.Lib.Settling
import Mathlib.Algebra.Order.BigOperators.Group.Finset

/-!
# The threads of `kol::ThreadController`

The owner of a controller posts threads. Each of them, when its `run` is over, creates one more
thread that joins and deletes it, under the mutex of the controller, and that joins the one which
has deleted before it. The destructor waits until as many have been deleted as were posted, and
joins the last. The threads of a run move in any order, and any `pthread_create` may fail; of one
that succeeds it is not said whether the new thread moves before the caller knows its id.
-/

namespace LebStudy

open Transition

/-- Where `start_routine` of a posted thread stands. -/
inductive WorkerPc
  /-- `start` has not been called, or has failed -/
  | none
  | run
  /-- before `pthread_create` in `done` -/
  | done
  /-- before `p->delthreadid(tid)` -/
  | setId
  | ended
  deriving DecidableEq, Repr

/-- Where `delthread` of the thread stands that deletes it. -/
inductive DeleterPc
  /-- it has not been created -/
  | none
  /-- before `m_mutex.lock()` -/
  | lock
  /-- before `join(); closeid();` -/
  | join
  /-- before `m_threadid = p->delthreadid()` -/
  | takeId
  /-- before `p->join()` -/
  | joinThread
  | delete
  /-- before `--m_running` -/
  | count
  /-- before `m_mutex.unlock()` -/
  | unlock
  | ended
  deriving DecidableEq, Repr

/-- A posted `Thread`: whether its two ids are set, and what `pthread_create` has returned in
`done`. -/
structure PostedThread where
  worker : WorkerPc
  deleter : DeleterPc
  threadid : Bool
  delthreadid : Bool
  created : Bool
  deriving DecidableEq, Repr

/-- Where the owner stands that posts the threads in turn and then destroys the controller. -/
inductive OwnerPc (n : ℕ)
  | post (k : ℕ)
  /-- `pthread_create` has made thread `i`, and is about to store its id -/
  | store (i : Fin n)
  /-- before `++m_running` -/
  | count (i : Fin n)
  /-- before `numrunning()` in the destructor -/
  | poll
  /-- before `join(); closeid();` in the destructor -/
  | join
  | ended
  deriving DecidableEq, Repr

/-- A controller with the `n` threads posted to it. `mThreadid` is the thread whose deleter's id
it holds, `mutex` the thread whose deleter holds the mutex. The last two fields are history: how
often each deleter has been joined, and whether its id was there when it took it. -/
structure ThreadController (n : ℕ) where
  owner : OwnerPc n
  mRunning : ℤ
  mThreadid : Option (Fin n)
  mutex : Option (Fin n)
  threads : Fin n → PostedThread
  joined : Fin n → ℕ
  idTaken : Fin n → Bool

/-- Who moves, and whether `pthread_create` succeeds if the step calls it. -/
inductive ThreadAction (n : ℕ)
  | owner (creates : Bool)
  | worker (i : Fin n) (creates : Bool)
  | deleter (i : Fin n)
  deriving DecidableEq, Repr

/-- The thread has been deleted. -/
def DeleterPc.HasDeleted : DeleterPc → Prop
  | .count | .unlock | .ended => True
  | .none | .lock | .join | .takeId | .joinThread | .delete => False

namespace ThreadController

variable {n : ℕ}

def start (n : ℕ) : ThreadController n where
  owner := .post 0
  mRunning := 0
  mThreadid := none
  mutex := none
  threads _ := ⟨.none, .none, false, false, false⟩
  joined _ := 0
  idTaken _ := false

def setThread (s : ThreadController n) (i : Fin n) (t : PostedThread) : ThreadController n :=
  { s with threads := Function.update s.threads i t }

/-- `ThreadController::join` and `closeid`; none where the join blocks. -/
def joinId (s : ThreadController n) : Option (ThreadController n) :=
  match s.mThreadid with
  | none => some s
  | some j =>
    if (s.threads j).deleter = .ended then
      some { s with
        mThreadid := none
        joined := Function.update s.joined j (s.joined j + 1) }
    else none

/-- `post`, with `Thread::start` in it, whose result is not looked at, and `~ThreadController`. -/
def ownerStep (s : ThreadController n) (creates : Bool) : Option (ThreadController n) :=
  match s.owner with
  | .post k =>
    if h : k < n then
      if creates then
        some { s.setThread ⟨k, h⟩ { s.threads ⟨k, h⟩ with worker := .run } with
          owner := .store ⟨k, h⟩ }
      else some { s with owner := .count ⟨k, h⟩ }
    else some { s with owner := .poll }
  | .store i =>
    some { s.setThread i { s.threads i with threadid := true } with owner := .count i }
  | .count i =>
    if s.mutex = none then
      some { s with mRunning := s.mRunning + 1, owner := .post (i + 1) }
    else none
  | .poll =>
    if s.mutex = none then
      if s.mRunning = 0 then some { s with owner := .join } else some s
    else none
  | .join => s.joinId.map fun s => { s with owner := .ended }
  | .ended => none

/-- `start_routine`, with `done` in it. -/
def workerStep (s : ThreadController n) (i : Fin n) (creates : Bool) :
    Option (ThreadController n) :=
  let t := s.threads i
  match t.worker with
  | .run => some (s.setThread i { t with worker := .done })
  | .done =>
    some (s.setThread i { t with
      worker := .setId
      deleter := if creates then .lock else .none
      created := creates })
  | .setId => some (s.setThread i { t with worker := .ended, delthreadid := t.created })
  | .none | .ended => none

/-- `delthread` -/
def deleterStep (s : ThreadController n) (i : Fin n) : Option (ThreadController n) :=
  let t := s.threads i
  let at_ (s : ThreadController n) (pc : DeleterPc) : ThreadController n :=
    s.setThread i { t with deleter := pc }
  match t.deleter with
  | .lock => if s.mutex = none then some (at_ { s with mutex := some i } .join) else none
  | .join => s.joinId.map fun s => at_ s .takeId
  | .takeId =>
    some (at_ { s with
      mThreadid := if t.delthreadid then some i else none
      idTaken := Function.update s.idTaken i t.delthreadid } .joinThread)
  | .joinThread =>
    -- without an id `join` returns at once
    if t.threadid ∧ t.worker ≠ .ended then none else some (at_ s .delete)
  | .delete => some (at_ s .count)
  | .count => some (at_ { s with mRunning := s.mRunning - 1 } .unlock)
  | .unlock => some (at_ { s with mutex := none } .ended)
  | .none | .ended => none

def step (s : ThreadController n) : ThreadAction n → Option (ThreadController n)
  | .owner creates => s.ownerStep creates
  | .worker i creates => s.workerStep i creates
  | .deleter i => s.deleterStep i

/-- One thread is posted, run and deleted, and the controller destroyed. -/
def oneThread : List (ThreadAction 1) :=
  [.owner true, .owner true, .owner true] ++ List.replicate 3 (.worker (Fin.last 0) true) ++
    List.replicate 7 (.deleter (Fin.last 0)) ++ [.owner true, .owner true, .owner true]

/-! ### What a step does -/

/-- The steps of the owner. -/
inductive OwnerStep (s : ThreadController n) : Bool → ThreadController n → Prop
  | create (i : Fin n) (howner : s.owner = .post i) : s.OwnerStep true
      { s.setThread i { s.threads i with worker := .run } with owner := .store i }
  | fail (i : Fin n) (howner : s.owner = .post i) : s.OwnerStep false { s with owner := .count i }
  | posted (k : ℕ) (creates : Bool) (howner : s.owner = .post k) (hk : n ≤ k) :
      s.OwnerStep creates { s with owner := .poll }
  | store (i : Fin n) (creates : Bool) (howner : s.owner = .store i) : s.OwnerStep creates
      { s.setThread i { s.threads i with threadid := true } with owner := .count i }
  | count (i : Fin n) (creates : Bool) (howner : s.owner = .count i) (hfree : s.mutex = none) :
      s.OwnerStep creates { s with mRunning := s.mRunning + 1, owner := .post (i + 1) }
  | leave (creates : Bool) (howner : s.owner = .poll) (hfree : s.mutex = none)
      (hzero : s.mRunning = 0) : s.OwnerStep creates { s with owner := .join }
  | wait (creates : Bool) (howner : s.owner = .poll) (hrunning : s.mRunning ≠ 0) :
      s.OwnerStep creates s
  | join (creates : Bool) (u : ThreadController n) (howner : s.owner = .join)
      (hjoin : s.joinId = some u) : s.OwnerStep creates { u with owner := .ended }

section Kind

variable {s t : ThreadController n}

theorem ownerStep_kind {creates : Bool} (h : s.ownerStep creates = some t) :
    s.OwnerStep creates t := by
  rw [ownerStep] at h
  match howner : s.owner, h with
  | .post k, h =>
    simp only at h
    split at h
    · next hk =>
      split at h
      · next hcreates =>
        cases h
        subst hcreates
        exact .create ⟨k, hk⟩ howner
      · next hfails =>
        cases h
        rw [Bool.not_eq_true] at hfails
        subst hfails
        exact .fail ⟨k, hk⟩ howner
    · next hk =>
      cases h
      exact .posted k creates howner (Nat.le_of_not_lt hk)
  | .store i, h =>
    cases h
    exact .store i creates howner
  | .count i, h =>
    simp only at h
    split at h
    · next hfree =>
      cases h
      exact .count i creates howner hfree
    · cases h
  | .poll, h =>
    simp only at h
    split at h
    · next hfree =>
      split at h
      · next hzero =>
        cases h
        exact .leave creates howner hfree hzero
      · next hrunning =>
        cases h
        exact .wait creates howner hrunning
    · cases h
  | .join, h =>
    obtain ⟨u, hu, rfl⟩ := Option.map_eq_some_iff.mp h
    exact .join creates u howner hu

theorem joinId_frame (h : s.joinId = some t) :
    t.threads = s.threads ∧ t.owner = s.owner := by
  rw [joinId] at h
  split at h
  · cases h
    exact ⟨rfl, rfl⟩
  · split at h <;> cases h
    exact ⟨rfl, rfl⟩

/-- A thread moves itself on, and creates its deleter. -/
theorem workerStep_kind {j : Fin n} {creates : Bool} (h : s.workerStep j creates = some t) :
    ∃ u, t = s.setThread j u ∧ u.threadid = (s.threads j).threadid ∧
      (s.threads j).worker ≠ .none ∧ u.worker ≠ .none ∧ (s.threads j).worker ≠ .ended ∧
      (u.deleter = (s.threads j).deleter ∨ u.deleter = .none ∨ u.deleter = .lock) := by
  rw [workerStep] at h
  match hworker : (s.threads j).worker, h with
  | .run, h | .setId, h =>
    cases h
    exact ⟨_, rfl, rfl, by simp, by simp, by simp, .inl rfl⟩
  | .done, h =>
    cases h
    refine ⟨_, rfl, rfl, by simp, by simp, by simp, .inr ?_⟩
    cases creates <;> simp

/-- A deleter moves itself on; it gets to `delete p` if it need not wait for the thread. -/
theorem deleterStep_kind {j : Fin n} (h : s.deleterStep j = some t) :
    ∃ pc, t.threads = Function.update s.threads j { s.threads j with deleter := pc } ∧
      t.owner = s.owner ∧ (s.threads j).deleter ≠ .none ∧ pc ≠ .none ∧
      (pc = .delete ∨ pc.HasDeleted → (s.threads j).deleter = .joinThread ∧
          ((s.threads j).threadid = true → (s.threads j).worker = .ended) ∨
        (s.threads j).deleter = .delete ∨ (s.threads j).deleter.HasDeleted) := by
  rw [deleterStep] at h
  match hpc : (s.threads j).deleter, h with
  | .lock, h =>
    simp only at h
    split at h <;> cases h
    refine ⟨_, rfl, rfl, by simp, by simp, ?_⟩
    simp [DeleterPc.HasDeleted]
  | .join, h =>
    obtain ⟨u, hu, rfl⟩ := Option.map_eq_some_iff.mp h
    obtain ⟨hthreads, howner⟩ := joinId_frame hu
    refine ⟨.takeId, ?_, howner, by simp, by simp, ?_⟩
    · rw [← hthreads]
      rfl
    · simp [DeleterPc.HasDeleted]
  | .takeId, h =>
    cases h
    refine ⟨_, rfl, rfl, by simp, by simp, ?_⟩
    simp [DeleterPc.HasDeleted]
  | .joinThread, h =>
    simp only at h
    split at h
    · cases h
    · next hpasses =>
      cases h
      refine ⟨_, rfl, rfl, by simp, by simp, fun _ => .inl ⟨rfl, fun hid => ?_⟩⟩
      by_contra hworker
      exact hpasses ⟨hid, hworker⟩
  | .delete, h | .count, h | .unlock, h =>
    cases h
    refine ⟨_, rfl, rfl, by simp, by simp, fun _ => .inr ?_⟩
    simp [DeleterPc.HasDeleted]

end Kind

end ThreadController

/-! ### The invariant -/

/-- The deleter holds the mutex. -/
def DeleterPc.Holds : DeleterPc → Prop
  | .join | .takeId | .joinThread | .delete | .count | .unlock => True
  | .none | .lock | .ended => False

instance (pc : DeleterPc) : Decidable pc.Holds := by
  unfold DeleterPc.Holds
  split <;> infer_instance

/-- The thread has been counted out of `m_running`. -/
def DeleterPc.gone : DeleterPc → ℕ
  | .unlock | .ended => 1
  | .none | .lock | .join | .takeId | .joinThread | .delete | .count => 0

/-- The deleter has taken its id. -/
def DeleterPc.HasTakenId : DeleterPc → Prop
  | .joinThread | .delete | .count | .unlock | .ended => True
  | .none | .lock | .join | .takeId => False

/-- The threads counted into `m_running`. -/
def OwnerPc.counted {n : ℕ} : OwnerPc n → ℕ
  | .post k => min k n
  | .store i | .count i => i
  | .poll | .join | .ended => n

/-- The threads that `start` has been called for. -/
def OwnerPc.posted {n : ℕ} : OwnerPc n → ℕ
  | .post k => min k n
  | .store i | .count i => i + 1
  | .poll | .join | .ended => n

/-- A thread by itself: its deleter comes behind its `run`, and its second id is that of the
deleter. -/
structure PostedThread.Ordered (t : PostedThread) : Prop where
  absent : t.worker = .none ∨ t.worker = .run ∨ t.worker = .done → t.deleter = .none
  created : t.worker = .setId ∨ t.worker = .ended → (t.created = true ↔ t.deleter ≠ .none)
  early : t.worker ≠ .ended → t.delthreadid = false
  late : t.worker = .ended → t.delthreadid = t.created

theorem DeleterPc.ended_or_holds {pc : DeleterPc} (h : pc.HasTakenId) :
    pc = .ended ∨ pc.Holds := by
  cases pc with
  | ended => exact .inl rfl
  | joinThread | delete | count | unlock => exact .inr trivial
  | none | lock | join | takeId => exact absurd h id

namespace ThreadController

variable {n : ℕ}

/-- Who holds the mutex, which ids there are, and what is counted. -/
structure Inv (s : ThreadController n) : Prop where
  ordered : ∀ i, (s.threads i).Ordered
  mutex : ∀ i, s.mutex = some i ↔ (s.threads i).deleter.Holds
  running : s.mRunning + (∑ i, (s.threads i).deleter.gone : ℕ) = s.owner.counted
  unposted : ∀ i : Fin n, s.owner.posted ≤ i → (s.threads i).worker = .none
  taken : ∀ i, s.idTaken i = true → (s.threads i).deleter.HasTakenId
  closed : ∀ i, (s.threads i).deleter = .takeId → s.mThreadid = none
  held : ∀ i, s.mThreadid = some i ↔ s.idTaken i = true ∧ s.joined i = 0
  after : ∀ i, s.joined i = 0 ∨
    s.joined i = 1 ∧ s.idTaken i = true ∧ (s.threads i).deleter = .ended
  allEnded : s.owner = .join ∨ s.owner = .ended → ∀ i, (s.threads i).deleter = .ended

theorem inv_start (n : ℕ) : (start n).Inv where
  ordered i := ⟨fun _ => rfl, fun h => by simp [start] at h, fun _ => rfl, fun _ => rfl⟩
  mutex i := by simp [start, DeleterPc.Holds]
  running := by simp [start, OwnerPc.counted, DeleterPc.gone]
  unposted i _ := rfl
  taken i h := by cases h
  closed i h := rfl
  held i := by simp [start]
  after i := .inl rfl
  allEnded h := by simp [start] at h

/-- The deleter of a thread moves on. -/
theorem ordered_deleter {t : PostedThread} (ht : t.Ordered) {pc : DeleterPc}
    (hcreated : t.deleter ≠ .none) (hpc : pc ≠ .none) : ({ t with deleter := pc }).Ordered := by
  obtain ⟨habsent, hnew, hearly, hlate⟩ := ht
  refine ⟨fun h => absurd (habsent h) hcreated, fun h => ?_, hearly, hlate⟩
  rw [hnew h]
  exact iff_of_true hcreated hpc

section Step

variable {s t : ThreadController n} {i : Fin n}

theorem sum_gone_setThread (s : ThreadController n) (i : Fin n) (t : PostedThread) :
    (∑ j, ((s.setThread i t).threads j).deleter.gone) + (s.threads i).deleter.gone =
      (∑ j, (s.threads j).deleter.gone) + t.deleter.gone :=
  sum_update (fun t : PostedThread => t.deleter.gone) s.threads i t

/-- A step that changes one thread, and leaves where its deleter stands as far as the mutex, the
count and the ids go. -/
theorem Inv.setThread (hs : s.Inv) {u : PostedThread} (hordered : u.Ordered)
    (hholds : u.deleter.Holds ↔ (s.threads i).deleter.Holds)
    (hgone : u.deleter.gone = (s.threads i).deleter.gone)
    (hposted : s.owner.posted ≤ i → u.worker = .none)
    (htaken : (s.threads i).deleter.HasTakenId → u.deleter.HasTakenId)
    (htakeId : u.deleter = .takeId → (s.threads i).deleter = .takeId)
    (hended : (s.threads i).deleter = .ended → u.deleter = .ended) : (s.setThread i u).Inv where
  ordered := (Function.forall_update_iff s.threads fun _ t => t.Ordered).mpr
    ⟨hordered, fun j _ => hs.ordered j⟩
  mutex := (Function.forall_update_iff s.threads fun j t =>
    s.mutex = some j ↔ t.deleter.Holds).mpr
      ⟨(hs.mutex i).trans hholds.symm, fun j _ => hs.mutex j⟩
  running := by
    have hsum := sum_gone_setThread s i u
    have hrunning := hs.running
    show s.mRunning + ((∑ j, ((s.setThread i u).threads j).deleter.gone : ℕ) : ℤ) = s.owner.counted
    omega
  unposted := (Function.forall_update_iff s.threads fun j t =>
    s.owner.posted ≤ j → t.worker = .none).mpr ⟨hposted, fun j _ => hs.unposted j⟩
  taken := (Function.forall_update_iff s.threads fun j t =>
    s.idTaken j = true → t.deleter.HasTakenId).mpr
      ⟨fun h => htaken (hs.taken i h), fun j _ => hs.taken j⟩
  closed := (Function.forall_update_iff s.threads fun j t =>
    t.deleter = .takeId → s.mThreadid = none).mpr
      ⟨fun h => hs.closed i (htakeId h), fun j _ => hs.closed j⟩
  held := hs.held
  after := (Function.forall_update_iff s.threads fun j t =>
    s.joined j = 0 ∨ s.joined j = 1 ∧ s.idTaken j = true ∧ t.deleter = .ended).mpr
      ⟨(hs.after i).imp_right fun h => ⟨h.1, h.2.1, hended h.2.2⟩, fun j _ => hs.after j⟩
  allEnded h := (Function.forall_update_iff s.threads fun _ t => t.deleter = .ended).mpr
    ⟨hended (hs.allEnded h i), fun j _ => hs.allEnded h j⟩

/-- A step of the owner that changes no thread. -/
theorem Inv.setOwner (hs : s.Inv) {o : OwnerPc n} (hcounted : o.counted = s.owner.counted)
    (hposted : s.owner.posted ≤ o.posted)
    (hover : o = .join ∨ o = .ended → ∀ i, (s.threads i).deleter = .ended) :
    ({ s with owner := o }).Inv :=
  { hs with
    running := by rw [hcounted]; exact hs.running
    unposted := fun j hj => hs.unposted j (hposted.trans hj)
    allEnded := hover }

theorem deleter_of_unposted (hs : s.Inv) (h : s.owner.posted ≤ i) :
    (s.threads i).deleter = .none :=
  (hs.ordered i).absent (.inl (hs.unposted i h))

/-- What is posted next does not run yet. -/
theorem worker_of_post (hs : s.Inv) (h : s.owner = .post i) : (s.threads i).worker = .none := by
  apply hs.unposted
  rw [h]
  exact min_le_left _ _

/-- The deleter whose id is taken has passed its own test of it, or nobody knows the id. -/
theorem Inv.joinId (hs : s.Inv) (h : s.joinId = some t) :
    t.Inv ∧ t.mThreadid = none ∧ t.threads = s.threads ∧ t.mutex = s.mutex ∧ t.owner = s.owner := by
  rw [ThreadController.joinId] at h
  split at h
  · next hnone =>
    cases h
    exact ⟨hs, hnone, rfl, rfl, rfl⟩
  · next j hj =>
    split at h
    · next hended =>
      cases h
      obtain ⟨htaken, hjoined⟩ := (hs.held j).mp hj
      refine ⟨{ hs with closed := fun _ _ => rfl, held := fun k => ?_, after := ?_ }, rfl, rfl, rfl,
        rfl⟩
      · by_cases hk : k = j
        · subst hk
          simp
        · have hother : s.mThreadid ≠ some k := by
            rw [hj]
            exact fun h => hk (Option.some.inj h).symm
          rw [Ne, hs.held k] at hother
          simp [Function.update_of_ne hk, hother]
      · refine (Function.forall_update_iff s.joined fun k m => m = 0 ∨
          m = 1 ∧ s.idTaken k = true ∧ (s.threads k).deleter = .ended).mpr
            ⟨.inr ⟨by rw [hjoined], htaken, hended⟩, fun k _ => hs.after k⟩
    · cases h

/-- When the destructor finds no thread running, all have been deleted. -/
theorem ended_of_not_running (hs : s.Inv) (howner : s.owner = .poll) (hzero : s.mRunning = 0)
    (hfree : s.mutex = none) (i : Fin n) : (s.threads i).deleter = .ended := by
  have hle : ∀ pc : DeleterPc, pc.gone ≤ 1 := by
    intro pc
    cases pc <;> simp [DeleterPc.gone]
  have hrunning := hs.running
  simp only [howner, hzero, OwnerPc.counted, zero_add, Nat.cast_inj] at hrunning
  have hall : ∀ j ∈ Finset.univ, (s.threads j).deleter.gone = 1 := by
    apply (Finset.sum_eq_sum_iff_of_le fun j _ => hle (s.threads j).deleter).mp
    simpa using hrunning
  have hgone := hall i (Finset.mem_univ i)
  have hnot : ¬ (s.threads i).deleter.Holds := by
    rw [← hs.mutex i, hfree]
    simp
  cases hpc : (s.threads i).deleter <;> simp [hpc, DeleterPc.gone, DeleterPc.Holds] at hgone hnot ⊢

theorem Inv.ownerStep (hs : s.Inv) {creates : Bool} (h : s.ownerStep creates = some t) : t.Inv := by
  cases ownerStep_kind h with
  | create k howner =>
    have hposted : s.owner.posted ≤ k := by
      rw [howner]
      exact min_le_left _ _
    have hdeleter := deleter_of_unposted hs hposted
    have hid := (hs.ordered k).early (by simp [hs.unposted k hposted])
    have howned : ({ s with owner := .store k }).Inv := by
      apply hs.setOwner
      · simp only [howner, OwnerPc.counted]
        omega
      · simp only [howner, OwnerPc.posted]
        omega
      · simp
    apply howned.setThread (i := k)
    · exact ⟨fun _ => hdeleter, by simp, fun _ => hid, by simp⟩
    · rfl
    · rfl
    · simp [OwnerPc.posted]
    · exact id
    · exact id
    · exact id
  | fail k howner =>
    apply hs.setOwner
    · simp only [howner, OwnerPc.counted]
      omega
    · simp only [howner, OwnerPc.posted]
      omega
    · simp
  | posted k _ howner hk =>
    apply hs.setOwner
    · simp only [howner, OwnerPc.counted]
      omega
    · simp only [howner, OwnerPc.posted]
      omega
    · simp
  | store k _ howner =>
    have howned : ({ s with owner := .count k }).Inv := by
      apply hs.setOwner
      · rw [howner]
        rfl
      · rw [howner]
        rfl
      · simp
    obtain ⟨habsent, hnew, hearly, hlate⟩ := hs.ordered k
    apply howned.setThread (i := k)
    · exact ⟨habsent, hnew, hearly, hlate⟩
    · rfl
    · rfl
    · exact howned.unposted k
    · exact id
    · exact id
    · exact id
  | count k _ howner hfree =>
    have hrunning := hs.running
    rw [howner] at hrunning
    refine { hs with running := ?_, unposted := fun j hj => hs.unposted j ?_, allEnded := by simp }
    · simp only [OwnerPc.counted] at hrunning ⊢
      omega
    · simp only [howner, OwnerPc.posted] at hj ⊢
      omega
  | leave _ howner hfree hzero =>
    apply hs.setOwner
    · rw [howner]
      rfl
    · rw [howner]
      rfl
    · exact fun _ => ended_of_not_running hs howner hzero hfree
  | wait _ howner hrunning => exact hs
  | join _ u howner hjoin =>
    obtain ⟨hinv, -, hthreads, -, hsame⟩ := hs.joinId hjoin
    apply hinv.setOwner
    · rw [hsame, howner]
      rfl
    · rw [hsame, howner]
      rfl
    · intro _
      rw [hthreads]
      exact hs.allEnded (.inl howner)

theorem Inv.workerStep (hs : s.Inv) {creates : Bool} (h : s.workerStep i creates = some t) :
    t.Inv := by
  obtain ⟨habsent, hnew, hearly, hlate⟩ := hs.ordered i
  have hposted : (s.threads i).worker ≠ .none → ¬ s.owner.posted ≤ i :=
    fun hworker hle => hworker (hs.unposted i hle)
  rw [ThreadController.workerStep] at h
  match hworker : (s.threads i).worker, h with
  | .run, h =>
    cases h
    have hdeleter := habsent (.inr (.inl hworker))
    have hid := hearly (by simp [hworker])
    apply hs.setThread
    · exact ⟨fun _ => hdeleter, by simp, fun _ => hid, by simp⟩
    · rfl
    · rfl
    · exact fun hle => absurd hle (hposted (by simp [hworker]))
    · exact id
    · exact id
    · exact id
  | .done, h =>
    cases h
    have hdeleter := habsent (.inr (.inr hworker))
    have hid := hearly (by simp [hworker])
    apply hs.setThread
    · refine ⟨by simp, fun _ => ?_, fun _ => hid, by simp⟩
      cases creates <;> simp
    · cases creates <;> simp [hdeleter, DeleterPc.Holds]
    · cases creates <;> simp [hdeleter, DeleterPc.gone]
    · exact fun hle => absurd hle (hposted (by simp [hworker]))
    · simp [hdeleter, DeleterPc.HasTakenId]
    · cases creates <;> simp
    · simp [hdeleter]
  | .setId, h =>
    cases h
    have hcreated := hnew (.inl hworker)
    apply hs.setThread
    · exact ⟨by simp, fun _ => hcreated, by simp, fun _ => rfl⟩
    · rfl
    · rfl
    · exact fun hle => absurd hle (hposted (by simp [hworker]))
    · exact id
    · exact id
    · exact id

/-- A step of a deleter: what it does to the mutex, the count and the ids. -/
theorem Inv.moveDeleter (hs : s.Inv) {pc : DeleterPc} {r : ℤ} {id m : Option (Fin n)}
    {taken : Fin n → Bool} (hfrom : (s.threads i).deleter ≠ .none)
    (hopen : (s.threads i).deleter ≠ .ended) (hpc : pc ≠ .none)
    (hmutex : m = some i ↔ pc.Holds)
    (hothers : ∀ j, j ≠ i → (m = some j ↔ (s.threads j).deleter.Holds))
    (hrunning : r + pc.gone = s.mRunning + (s.threads i).deleter.gone)
    (htaken : taken i = true → pc.HasTakenId) (hsame : ∀ j, j ≠ i → taken j = s.idTaken j)
    (hclosed : pc = .takeId → id = none)
    (hrest : ∀ j, j ≠ i → (s.threads j).deleter = .takeId → id = none)
    (hheld : ∀ j, id = some j ↔ taken j = true ∧ s.joined j = 0) :
    ({ s with
      mRunning := r
      mThreadid := id
      mutex := m
      threads := Function.update s.threads i { s.threads i with deleter := pc }
      idTaken := taken }).Inv := by
  constructor
  · apply (Function.forall_update_iff s.threads fun _ t => t.Ordered).mpr
    exact ⟨ordered_deleter (hs.ordered i) hfrom hpc, fun j _ => hs.ordered j⟩
  · apply (Function.forall_update_iff s.threads fun j t => m = some j ↔ t.deleter.Holds).mpr
    exact ⟨hmutex, hothers⟩
  · have hsum : _ + (s.threads i).deleter.gone = _ + pc.gone :=
      sum_gone_setThread s i { s.threads i with deleter := pc }
    have hold := hs.running
    show r + ((∑ j, ((s.setThread i { s.threads i with deleter := pc }).threads j).deleter.gone :
      ℕ) : ℤ) = s.owner.counted
    omega
  · apply (Function.forall_update_iff s.threads fun j t =>
      s.owner.posted ≤ j → t.worker = .none).mpr
    exact ⟨hs.unposted i, fun j _ => hs.unposted j⟩
  · apply (Function.forall_update_iff s.threads fun j t =>
      taken j = true → t.deleter.HasTakenId).mpr
    exact ⟨htaken, fun j hj h => hs.taken j (hsame j hj ▸ h)⟩
  · apply (Function.forall_update_iff s.threads fun j t => t.deleter = .takeId → id = none).mpr
    exact ⟨hclosed, hrest⟩
  · exact hheld
  · intro j
    obtain hzero | ⟨hone, htook, hended⟩ := hs.after j
    · exact .inl hzero
    · have hj : j ≠ i := by
        rintro rfl
        exact hopen hended
      refine .inr ⟨hone, (hsame j hj).trans htook, ?_⟩
      show (Function.update s.threads i _ j).deleter = .ended
      rw [Function.update_of_ne hj]
      exact hended
  · intro howner
    exact absurd (hs.allEnded howner i) hopen

/-- A step of the deleter that holds the mutex, and keeps it. -/
theorem Inv.moveHolder (hs : s.Inv) {pc : DeleterPc} {r : ℤ} {id : Option (Fin n)}
    {taken : Fin n → Bool} (hholds : (s.threads i).deleter.Holds) (hpc : pc.Holds)
    (hrunning : r + pc.gone = s.mRunning + (s.threads i).deleter.gone)
    (htaken : taken i = true → pc.HasTakenId) (hsame : ∀ j, j ≠ i → taken j = s.idTaken j)
    (hclosed : pc = .takeId → id = none)
    (hheld : ∀ j, id = some j ↔ taken j = true ∧ s.joined j = 0) :
    ({ s with
      mRunning := r
      mThreadid := id
      threads := Function.update s.threads i { s.threads i with deleter := pc }
      idTaken := taken }).Inv := by
  have hmutex := (hs.mutex i).mpr hholds
  apply hs.moveDeleter
  · intro h
    rw [h] at hholds
    exact hholds
  · intro h
    rw [h] at hholds
    exact hholds
  · rintro rfl
    exact hpc
  · exact iff_of_true hmutex hpc
  · exact fun j _ => hs.mutex j
  · exact hrunning
  · exact htaken
  · exact hsame
  · exact hclosed
  · intro j hj htakeId
    have hj' := (hs.mutex j).mpr (by rw [htakeId]; trivial)
    rw [hmutex] at hj'
    exact absurd (Option.some.inj hj').symm hj
  · exact hheld

theorem Inv.deleterStep (hs : s.Inv) (h : s.deleterStep i = some t) : t.Inv := by
  have htaken := hs.taken i
  rw [ThreadController.deleterStep] at h
  match hpc : (s.threads i).deleter, h with
  | .lock, h =>
    simp only at h
    split at h
    · next hfree =>
      cases h
      apply hs.moveDeleter
      · simp [hpc]
      · simp [hpc]
      · simp
      · exact iff_of_true rfl trivial
      · intro j hj
        rw [← hs.mutex j, hfree]
        simpa using fun h => hj h.symm
      · rw [hpc]
        rfl
      · intro h
        have htook := htaken h
        rw [hpc] at htook
        exact htook
      · exact fun _ _ => rfl
      · simp
      · exact fun j _ => hs.closed j
      · exact hs.held
    · cases h
  | .join, h =>
    obtain ⟨u, hu, rfl⟩ := Option.map_eq_some_iff.mp h
    obtain ⟨hinv, hclosed, hthreads, -, -⟩ := hs.joinId hu
    have htook := hinv.taken i
    rw [← hthreads] at hpc ⊢
    apply hinv.moveHolder
    · rw [hpc]
      trivial
    · trivial
    · rw [hpc]
      rfl
    · intro h
      have htook := htook h
      rw [hpc] at htook
      exact htook
    · exact fun _ _ => rfl
    · exact fun _ => hclosed
    · exact hinv.held
  | .takeId, h =>
    cases h
    have hid := hs.closed i hpc
    have hjoined : s.joined i = 0 := by
      obtain hzero | ⟨-, -, hended⟩ := hs.after i
      · exact hzero
      · rw [hpc] at hended
        cases hended
    apply hs.moveHolder
    · rw [hpc]
      trivial
    · trivial
    · rw [hpc]
      rfl
    · exact fun _ => trivial
    · exact fun j hj => Function.update_of_ne hj _ _
    · simp
    · apply (Function.forall_update_iff s.idTaken fun j taken =>
        (if (s.threads i).delthreadid = true then some i else none) = some j ↔
          taken = true ∧ s.joined j = 0).mpr
      constructor
      · simp [hjoined]
      · intro j hj
        rw [← hs.held j, hid]
        simpa using fun _ h => hj h.symm
  | .joinThread, h =>
    simp only at h
    split at h
    · cases h
    · cases h
      apply hs.moveHolder
      · rw [hpc]
        trivial
      · trivial
      · rw [hpc]
        rfl
      · exact fun _ => trivial
      · exact fun _ _ => rfl
      · simp
      · exact hs.held
  | .delete, h | .count, h =>
    cases h
    apply hs.moveHolder
    · rw [hpc]
      trivial
    · trivial
    · rw [hpc]
      simp [DeleterPc.gone]
    · exact fun _ => trivial
    · exact fun _ _ => rfl
    · simp
    · exact hs.held
  | .unlock, h =>
    cases h
    have hmutex := (hs.mutex i).mpr (by rw [hpc]; trivial)
    apply hs.moveDeleter
    · simp [hpc]
    · simp [hpc]
    · simp
    · exact iff_of_false (by simp) id
    · intro j hj
      rw [← hs.mutex j, hmutex]
      simpa using fun h => hj h.symm
    · rw [hpc]
      rfl
    · exact fun _ => trivial
    · exact fun _ _ => rfl
    · simp
    · exact fun j _ => hs.closed j
    · exact hs.held
  | .none, h | .ended, h => cases h

theorem Inv.step (hs : s.Inv) {a : ThreadAction n} (h : s.step a = some t) : t.Inv := by
  cases a with
  | owner creates => exact hs.ownerStep h
  | worker i creates => exact hs.workerStep h
  | deleter i => exact hs.deleterStep h

theorem inv_of_run {as : List (ThreadAction n)}
    (h : run ThreadController.step (start n) as = some s) : s.Inv :=
  run_invariant (inv_start n) (fun _ _ _ hs hstep => hs.step hstep) h

end Step

end ThreadController

end LebStudy
