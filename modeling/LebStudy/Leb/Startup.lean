import LebStudy.Lib.Transition
import LebStudy.FrontEnd.DTArecbe
import Mathlib.Logic.Function.Basic

/-!
# The start of `leb`

`main` starts the task threads while `c_state` is `SM_INIT` already, and only then
clears their flags `m_is_done` and `m_is_good`, one after the other. A failure that
a thread reports before its `m_is_good` is cleared is overwritten. It does no harm
exactly if at this moment another initialisation of the task is under way, or is
bound to come before the task is seen done.
-/

namespace LebStudy

/-! ### The threads -/

/-- Where the thread of a task stands in `state_machine`, by the flag it is to read or write
next. -/
inductive TaskPc
  | notStarted
  /-- before `switch (c_state)` -/
  | switch
  /-- before `if (!m_is_done)` -/
  | testDone
  /-- in `st_init`, before the connection is made -/
  | connect
  /-- in `st_init`, before `m_is_good = false` -/
  | reportBad
  /-- before `m_is_done = true` -/
  | setDone
  /-- in `st_idle`, `st_running` or `st_end` -/
  | body
  /-- before `if (c_state == SM_EXIT) break` -/
  | exitTest
  | ended
  deriving DecidableEq, Repr

/-- A task as the start sees it. Only the task of a real front-end connects in `st_init`: that
of a dummy and the event builder always succeed. `lastInit` is history: how the `st_init`
that has finished last has ended. -/
structure DaqTask where
  connects : Bool
  mIsDone : Bool
  mIsGood : Bool
  pc : TaskPc
  lastInit : Option Bool
  deriving DecidableEq, Repr

namespace DaqTask

/-- One step of the thread. `connected` says whether the connection is made, if one is. -/
def step (t : DaqTask) (cState : RunState) (connected : Bool) : Option DaqTask :=
  match t.pc with
  | .notStarted => none
  | .switch =>
    match cState with
    | .smInit => some { t with pc := .testDone }
    | .smIdle | .smRunning | .smEnd => some { t with pc := .body }
    | .smExit => some { t with pc := .exitTest }
  | .testDone =>
    if t.mIsDone then some { t with pc := .setDone } else some { t with pc := .connect }
  | .connect =>
    if t.connects && !connected then some { t with pc := .reportBad }
    else some { t with pc := .setDone, lastInit := some true }
  | .reportBad => some { t with pc := .setDone, mIsGood := false, lastInit := some false }
  | .setDone => some { t with pc := .exitTest, mIsDone := true }
  | .body => some { t with pc := .exitTest }
  | .exitTest =>
    if cState = .smExit then some { t with pc := .ended } else some { t with pc := .switch }
  | .ended => none

/-- The thread is in `st_init`. -/
def InInit (t : DaqTask) : Prop := t.pc = .connect ∨ t.pc = .reportBad

/-- An `st_init` is under way, or comes before the task is done. -/
def InitPending (t : DaqTask) : Prop := t.InInit ∨ t.mIsDone = false ∧ t.pc ≠ .setDone

instance (t : DaqTask) : Decidable t.InInit := inferInstanceAs (Decidable (_ ∨ _))

instance (t : DaqTask) : Decidable t.InitPending := inferInstanceAs (Decidable (_ ∨ _))

/-- What always holds of a task: it is not done while it initialises, and once it is done,
or about to be, an `st_init` has finished. Only one that connects can fail. -/
structure Sound (t : DaqTask) : Prop where
  not_done : t.InInit → t.mIsDone = false
  finished : t.mIsDone = true ∨ t.pc = .setDone → t.lastInit ≠ none
  fails : t.pc = .reportBad ∨ t.lastInit = some false → t.connects = true

/-- A task that passes for good though it has failed has another `st_init` before it. -/
def Honest (t : DaqTask) : Prop := t.mIsGood = true → t.lastInit = some false → t.InitPending

/-- The task has failed, and nothing is to change that. -/
def Stuck (t : DaqTask) : Prop := t.lastInit = some false ∧ ¬ t.InitPending

instance (t : DaqTask) : Decidable t.Stuck := inferInstanceAs (Decidable (_ ∧ _))

section Step

variable {t u : DaqTask} {cState : RunState} {connected : Bool}

/-- All that a step can do to the flags and to `st_init`. -/
inductive StepKind (t : DaqTask) : DaqTask → Prop
  /-- a test, or the body of another state; a task that is done passes by `st_init` -/
  | move (pc : TaskPc) (hs : ¬ t.InInit) (hs' : t.pc ≠ .setDone)
      (ht : pc ≠ .connect ∧ pc ≠ .reportBad) (skip : pc = .setDone → t.mIsDone = true) :
      StepKind t { t with pc := pc }
  | begins (hs : t.pc = .testDone) (hdone : t.mIsDone = false) :
      StepKind t { t with pc := .connect }
  | fails (hs : t.pc = .connect) (hconnects : t.connects = true) :
      StepKind t { t with pc := .reportBad }
  | reports (hs : t.pc = .reportBad) :
      StepKind t { t with pc := .setDone, mIsGood := false, lastInit := some false }
  | succeeds (hs : t.pc = .connect) :
      StepKind t { t with pc := .setDone, lastInit := some true }
  | done (hs : t.pc = .setDone) : StepKind t { t with pc := .exitTest, mIsDone := true }

theorem step_kind (h : t.step cState connected = some u) : StepKind t u := by
  unfold DaqTask.step at h
  match hpc : t.pc, h with
  | .switch, h =>
    cases cState <;> cases h <;>
      exact .move _ (by simp [InInit, hpc]) (by simp [hpc]) (by simp) (by simp)
  | .testDone, h =>
    simp only at h
    split at h <;> next hdone =>
      cases h
      first
        | exact .move _ (by simp [InInit, hpc]) (by simp [hpc]) (by simp) fun _ => hdone
        | exact .begins hpc (Bool.eq_false_iff.mpr hdone)
  | .connect, h =>
    simp only at h
    split at h
    · next hfail =>
      cases h
      exact .fails hpc (Bool.and_eq_true_iff.mp hfail).1
    · cases h
      exact .succeeds hpc
  | .reportBad, h =>
    cases h
    exact .reports hpc
  | .setDone, h =>
    cases h
    exact .done hpc
  | .body, h =>
    cases h
    exact .move _ (by simp [InInit, hpc]) (by simp [hpc]) (by simp) (by simp)
  | .exitTest, h =>
    simp only at h
    split at h <;> cases h <;>
      exact .move _ (by simp [InInit, hpc]) (by simp [hpc]) (by simp) (by simp)

theorem Sound.step (ht : t.Sound) (h : t.step cState connected = some u) : u.Sound := by
  obtain ⟨hnot, hfin, hfails⟩ := ht
  cases step_kind h with
  | move pc hs hs' hpc skip =>
    refine ⟨fun hinit => absurd hinit (not_or.mpr hpc), ?_,
      fun hbad => hfails (.inr (hbad.resolve_left hpc.2))⟩
    rintro (hdone | hset)
    · exact hfin (.inl hdone)
    · exact hfin (.inl (skip hset))
  | begins hs hdone =>
    refine ⟨fun _ => hdone, ?_, fun hbad => hfails (.inr (hbad.resolve_left (by simp)))⟩
    rintro (hdone' | hset)
    · exact hfin (.inl hdone')
    · cases hset
  | fails hs hconnects =>
    refine ⟨fun _ => hnot (.inl hs), ?_, fun _ => hconnects⟩
    rintro (hdone | hset)
    · exact hfin (.inl hdone)
    · cases hset
  | reports hs => exact ⟨by simp [InInit], by simp, fun _ => hfails (.inl hs)⟩
  | succeeds hs => exact ⟨by simp [InInit], by simp, by simp⟩
  | done hs =>
    exact ⟨by simp [InInit], fun _ => hfin (.inr hs),
      fun hbad => hfails (.inr (hbad.resolve_left (by simp)))⟩

/-- A pending `st_init` stays pending until it has finished. -/
theorem Honest.step (ht : t.Honest) (h : t.step cState connected = some u) : u.Honest := by
  cases step_kind h with
  | move pc hs hs' hpc skip =>
    intro hgood hlast
    have hdone := ((ht hgood hlast).resolve_left hs).1
    refine .inr ⟨hdone, fun hset => ?_⟩
    rw [skip hset] at hdone
    cases hdone
  | begins => exact fun _ _ => .inl (.inl rfl)
  | fails => exact fun _ _ => .inl (.inr rfl)
  | reports =>
    intro hgood
    cases hgood
  | succeeds =>
    intro _ hlast
    cases hlast
  | done hs =>
    -- at `setDone` nothing is pending, so a failure has been reported
    intro hgood hlast
    rcases ht hgood hlast with hinit | ⟨-, hset⟩
    · simp [InInit, hs] at hinit
    · exact absurd hs hset

theorem Stuck.step (ht : t.Stuck) (h : t.step cState connected = some u) : u.Stuck := by
  obtain ⟨hlast, hpending⟩ := ht
  obtain ⟨hinit, hdone⟩ := not_or.mp hpending
  cases step_kind h with
  | move pc hs hs' hpc skip =>
    refine ⟨hlast, not_or.mpr ⟨not_or.mpr hpc, ?_⟩⟩
    rintro ⟨hdone', -⟩
    exact hdone ⟨hdone', hs'⟩
  | begins hs hdone' => exact absurd ⟨hdone', by simp [hs]⟩ hdone
  | fails hs | succeeds hs => exact absurd (.inl hs) hinit
  | reports hs => exact absurd (.inr hs) hinit
  | done hs => exact ⟨hlast, by simp [InitPending, InInit]⟩

/-- A task that is done stays as it is. -/
theorem step_of_done (ht : t.Sound) (hdone : t.mIsDone = true)
    (h : t.step cState connected = some u) :
    u.mIsDone = true ∧ u.mIsGood = t.mIsGood ∧ u.lastInit = t.lastInit := by
  have hinit : ¬ t.InInit := fun hinit => by simp [ht.not_done hinit] at hdone
  cases step_kind h with
  | move => exact ⟨hdone, rfl, rfl⟩
  | begins hs hdone' => simp [hdone'] at hdone
  | fails hs | succeeds hs => exact absurd (.inl hs) hinit
  | reports hs => exact absurd (.inr hs) hinit
  | done => exact ⟨rfl, rfl, rfl⟩

/-- A task that is done and good has succeeded last. -/
theorem Sound.lastInit_eq (ht : t.Sound) (hhonest : t.Honest) (hdone : t.mIsDone = true)
    (hgood : t.mIsGood = true) : t.lastInit = some true := by
  match hlast : t.lastInit with
  | some true => rfl
  | none => exact absurd hlast (ht.finished (.inl hdone))
  | some false =>
    rcases hhonest hgood hlast with hinit | ⟨hnot, -⟩
    · simp [ht.not_done hinit] at hdone
    · simp [hnot] at hdone

end Step

end DaqTask

/-! ### `main` and the threads -/

/-- Where `main` stands; `k` is the index of the task in the loop over `tasks`. -/
inductive MainPc
  | run (k : ℕ)
  | clearDone (k : ℕ)
  | clearGood (k : ℕ)
  | setInit
  | waitDone (k : ℕ)
  | testGood (k : ℕ)
  /-- before `if (is_good_init)` -/
  | decide
  | setIdle
  | setRunning
  /-- in `remote_command_loop`, which is not part of the start -/
  | commands
  | setExit
  | joining
  deriving DecidableEq, Repr

structure Startup (n : ℕ) where
  cState : RunState
  isGoodInit : Bool
  main : MainPc
  tasks : Fin n → DaqTask

inductive StartupAction (n : ℕ)
  | main
  /-- `connected` says whether the connection is made, if the step makes one. -/
  | task (i : Fin n) (connected : Bool)

namespace Startup

variable {n : ℕ}

/-- Before the first thread is started. The constructor leaves `m_is_good` unset. -/
def start (connects mIsGood : Fin n → Bool) : Startup n where
  cState := .smInit
  isGoodInit := true
  main := .run 0
  tasks i := ⟨connects i, false, mIsGood i, .notStarted, none⟩

def setTask (s : Startup n) (i : Fin n) (t : DaqTask) : Startup n :=
  { s with tasks := Function.update s.tasks i t }

/-- One step of `main`. -/
def mainStep (s : Startup n) : Option (Startup n) :=
  match s.main with
  | .run k =>
    if h : k < n then
      some { s.setTask ⟨k, h⟩ { s.tasks ⟨k, h⟩ with pc := .switch } with main := .run (k + 1) }
    else some { s with main := .clearDone 0 }
  | .clearDone k =>
    if h : k < n then
      some { s.setTask ⟨k, h⟩ { s.tasks ⟨k, h⟩ with mIsDone := false } with
        main := .clearDone (k + 1) }
    else some { s with main := .clearGood 0 }
  | .clearGood k =>
    if h : k < n then
      some { s.setTask ⟨k, h⟩ { s.tasks ⟨k, h⟩ with mIsGood := true } with
        main := .clearGood (k + 1) }
    else some { s with main := .setInit }
  | .setInit => some { s with cState := .smInit, main := .waitDone 0 }
  | .waitDone k =>
    if h : k < n then
      -- `while (i->is_done() != true) usleep(10)`
      if (s.tasks ⟨k, h⟩).mIsDone then some { s with main := .waitDone (k + 1) } else some s
    else some { s with isGoodInit := true, main := .testGood 0 }
  | .testGood k =>
    if h : k < n then
      if (s.tasks ⟨k, h⟩).mIsGood then some { s with main := .testGood (k + 1) }
      else some { s with isGoodInit := false, main := .testGood (k + 1) }
    else some { s with main := .decide }
  | .decide =>
    if s.isGoodInit then some { s with main := .setIdle } else some { s with main := .setExit }
  | .setIdle => some { s with cState := .smIdle, main := .setRunning }
  | .setRunning => some { s with cState := .smRunning, main := .commands }
  | .commands => none
  | .setExit => some { s with cState := .smExit, main := .joining }
  | .joining => none

def step (s : Startup n) : StartupAction n → Option (Startup n)
  | .main => s.mainStep
  | .task i connected => ((s.tasks i).step s.cState connected).map (s.setTask i)

/-! ### What `main` can conclude -/

/-- `main` has cleared `m_is_good` of task `i`. -/
def GoodCleared (main : MainPc) (i : Fin n) : Prop :=
  match main with
  | .run _ | .clearDone _ => False
  | .clearGood k => i < k
  | _ => True

/-- `main` has seen task `i` done. -/
def DoneSeen (main : MainPc) (i : Fin n) : Prop :=
  match main with
  | .run _ | .clearDone _ | .clearGood _ | .setInit => False
  | .waitDone k => i < k
  | _ => True

/-- `main` has looked at `m_is_good` of task `i`. -/
def GoodSeen (main : MainPc) (i : Fin n) : Prop :=
  match main with
  | .run _ | .clearDone _ | .clearGood _ | .setInit | .waitDone _ => False
  | .testGood k => i < k
  | _ => True

/-- `main` has decided to start. -/
def Starts (main : MainPc) : Prop := main = .setIdle ∨ main = .setRunning ∨ main = .commands

/-- `m_is_good` of a task is not cleared where the task has failed for good. -/
def ClearsPending (s : Startup n) : StartupAction n → Prop
  | .main =>
    match s.main with
    | .clearGood k => ∀ h : k < n, ¬ (s.tasks ⟨k, h⟩).Stuck
    | _ => True
  | .task _ _ => True

instance (s : Startup n) : (a : StartupAction n) → Decidable (s.ClearsPending a)
  | .task _ _ => .isTrue trivial
  | .main =>
    match hmain : s.main with
    | .clearGood k =>
      decidable_of_iff (∀ h : k < n, ¬ (s.tasks ⟨k, h⟩).Stuck) (by simp [ClearsPending, hmain])
    | .run _ | .clearDone _ | .setInit | .waitDone _ | .testGood _ | .decide | .setIdle
    | .setRunning | .commands | .setExit | .joining => .isTrue (by simp [ClearsPending, hmain])

/-- What holds of the tasks by what `main` has done and seen so far. -/
structure StartInv (s : Startup n) : Prop where
  honest : ∀ i, GoodCleared s.main i → (s.tasks i).Honest
  done : ∀ i, DoneSeen s.main i → (s.tasks i).mIsDone = true
  good : s.isGoodInit = true → ∀ i, GoodSeen s.main i → (s.tasks i).mIsGood = true
  starts : Starts s.main → s.isGoodInit = true

theorem startInv_start (connects mIsGood : Fin n → Bool) :
    (start connects mIsGood).StartInv := by
  constructor <;> simp [start, GoodCleared, DoneSeen, GoodSeen, Starts]

section Step

variable {s t : Startup n}

theorem forall_setTask {P : Fin n → DaqTask → Prop} {i : Fin n} {u : DaqTask} (hi : P i u)
    (hother : ∀ j, j ≠ i → P j (s.tasks j)) (j : Fin n) : P j ((s.setTask i u).tasks j) := by
  by_cases hj : j = i
  · subst hj
    simpa [setTask] using hi
  · simpa [setTask, hj] using hother j hj

/-- What `main` can do to a task. -/
theorem mainStep_task (h : s.mainStep = some t) (i : Fin n) :
    t.tasks i = s.tasks i ∨ t.tasks i = { s.tasks i with pc := .switch } ∨
      t.tasks i = { s.tasks i with mIsDone := false } ∨
      t.tasks i = { s.tasks i with mIsGood := true } := by
  unfold mainStep at h
  match s.main, h with
  | .run k, h | .clearDone k, h | .clearGood k, h =>
    simp only at h
    split at h <;> cases h
    · next hk =>
      by_cases hi : i = ⟨k, hk⟩
      · subst hi
        simp [setTask]
      · simp [setTask, hi]
    · exact .inl rfl
  | .waitDone k, h | .testGood k, h =>
    simp only at h
    split at h
    · split at h <;> cases h <;> exact .inl rfl
    · cases h
      exact .inl rfl
  | .decide, h =>
    simp only at h
    split at h <;> cases h <;> exact .inl rfl
  | .setInit, h | .setIdle, h | .setRunning, h | .setExit, h =>
    cases h
    exact .inl rfl

theorem sound_step {a : StartupAction n} (hs : ∀ i, (s.tasks i).Sound)
    (h : s.step a = some t) (i : Fin n) : (t.tasks i).Sound := by
  cases a with
  | task j connected =>
    obtain ⟨u, hu, rfl⟩ := Option.map_eq_some_iff.mp h
    exact forall_setTask ((hs j).step hu) (fun k _ => hs k) i
  | main =>
    obtain ⟨hnot, hfin, hfails⟩ := hs i
    rcases mainStep_task h i with heq | heq | heq | heq <;> rw [heq]
    · exact hs i
    · exact ⟨by simp [DaqTask.InInit], fun hd => hfin (.inl (hd.resolve_right (by simp))),
        fun hbad => hfails (.inr (hbad.resolve_left (by simp)))⟩
    · exact ⟨fun _ => rfl, fun hd => hfin (.inr (hd.resolve_left (by simp))), hfails⟩
    · exact ⟨hnot, hfin, hfails⟩

theorem StartInv.taskStep (hs : s.StartInv) (hsound : ∀ i, (s.tasks i).Sound) {i : Fin n}
    {connected : Bool} {u : DaqTask} (h : (s.tasks i).step s.cState connected = some u) :
    (s.setTask i u).StartInv := by
  obtain ⟨hhonest, hdone, hgood, hstarts⟩ := hs
  refine ⟨forall_setTask (P := fun j t => GoodCleared s.main j → t.Honest)
      (fun hc => (hhonest i hc).step h) fun j _ => hhonest j,
    forall_setTask (P := fun j t => DoneSeen s.main j → t.mIsDone = true) (fun hd => ?_)
      fun j _ => hdone j,
    fun hok => forall_setTask (P := fun j t => GoodSeen s.main j → t.mIsGood = true)
      (fun hg => ?_) fun j _ => hgood hok j, hstarts⟩
  · exact (DaqTask.step_of_done (hsound i) (hdone i hd) h).1
  · have hd : DoneSeen s.main i := by
      revert hg
      cases s.main <;> simp [GoodSeen, DoneSeen]
    rw [(DaqTask.step_of_done (hsound i) (hdone i hd) h).2.1]
    exact hgood hok i hg

/-- Once `main` has read every flag, only its decision is left to account for. -/
theorem StartInv.decided (hs : s.StartInv)
    (hseen : ∀ i : Fin n, GoodCleared s.main i ∧ DoneSeen s.main i ∧ GoodSeen s.main i)
    (htasks : t.tasks = s.tasks) (hok : t.isGoodInit = s.isGoodInit)
    (hstarts : Starts t.main → s.isGoodInit = true) : t.StartInv := by
  constructor <;> simp only [htasks, hok]
  case honest => exact fun i _ => hs.honest i (hseen i).1
  case done => exact fun i _ => hs.done i (hseen i).2.1
  case good => exact fun hok i _ => hs.good hok i (hseen i).2.2
  case starts => exact hstarts

/-- One more task is cleared, and its failure, if it has one, is not the last word. -/
theorem StartInv.clearGood {k : ℕ} (hs : s.StartInv) (hmain : s.main = .clearGood k)
    (hc : ∀ h : k < n, ¬ (s.tasks ⟨k, h⟩).Stuck) (hk : k < n) :
    StartInv { s.setTask ⟨k, hk⟩ { s.tasks ⟨k, hk⟩ with mIsGood := true } with
      main := .clearGood (k + 1) } := by
  constructor
  case honest =>
    apply forall_setTask (P := fun j t => GoodCleared (.clearGood (k + 1)) j → t.Honest)
    · intro _ _ hlast
      by_contra hpending
      exact hc hk ⟨hlast, hpending⟩
    · intro j hj hcleared
      apply hs.honest j
      rw [hmain]
      have hne : (j : ℕ) ≠ k := fun heq => hj (Fin.ext heq)
      simp only [GoodCleared] at hcleared ⊢
      omega
  all_goals simp [DoneSeen, GoodSeen, Starts]

/-- One more task is seen done. -/
theorem StartInv.seeDone {k : ℕ} (hs : s.StartInv) (hmain : s.main = .waitDone k) (hk : k < n)
    (hdone : (s.tasks ⟨k, hk⟩).mIsDone = true) :
    StartInv { s with main := .waitDone (k + 1) } := by
  constructor
  case honest => exact fun i _ => hs.honest i (by simp [hmain, GoodCleared])
  case done =>
    intro i hi
    by_cases heq : (i : ℕ) = k
    · exact (Fin.ext heq : i = ⟨k, hk⟩) ▸ hdone
    · apply hs.done i
      rw [hmain]
      simp only [DoneSeen] at hi ⊢
      omega
  all_goals simp [GoodSeen, Starts]

/-- One more task is seen good. -/
theorem StartInv.seeGood {k : ℕ} (hs : s.StartInv) (hmain : s.main = .testGood k) (hk : k < n)
    (hgood : (s.tasks ⟨k, hk⟩).mIsGood = true) :
    StartInv { s with main := .testGood (k + 1) } := by
  constructor
  case honest => exact fun i _ => hs.honest i (by simp [hmain, GoodCleared])
  case done => exact fun i _ => hs.done i (by simp [hmain, DoneSeen])
  case good =>
    intro hok i hi
    by_cases heq : (i : ℕ) = k
    · exact (Fin.ext heq : i = ⟨k, hk⟩) ▸ hgood
    · apply hs.good hok i
      rw [hmain]
      simp only [GoodSeen] at hi ⊢
      omega
  case starts => simp [Starts]

theorem StartInv.mainStep (hs : s.StartInv) (hc : s.ClearsPending .main)
    (h : s.mainStep = some t) : t.StartInv := by
  unfold Startup.mainStep at h
  match hmain : s.main, h with
  | .run k, h | .clearDone k, h =>
    simp only at h
    split at h <;> cases h <;> constructor <;> simp [GoodCleared, DoneSeen, GoodSeen, Starts]
  | .clearGood k, h =>
    simp only at h
    split at h <;> cases h
    · next hk =>
      rw [ClearsPending, hmain] at hc
      exact hs.clearGood hmain hc hk
    · next hk =>
      refine ⟨fun i _ => hs.honest i ?_, ?_, ?_, ?_⟩
      · rw [hmain]
        exact i.isLt.trans_le (Nat.le_of_not_lt hk)
      all_goals simp [DoneSeen, GoodSeen, Starts]
  | .setInit, h =>
    cases h
    refine ⟨fun i _ => hs.honest i (by simp [hmain, GoodCleared]), ?_, ?_, ?_⟩
    all_goals simp [DoneSeen, GoodSeen, Starts]
  | .waitDone k, h =>
    simp only at h
    split at h
    · next hk =>
      split at h <;> cases h
      · next hdone => exact hs.seeDone hmain hk hdone
      · exact hs
    · next hk =>
      cases h
      refine ⟨fun i _ => hs.honest i (by simp [hmain, GoodCleared]),
        fun i _ => hs.done i ?_, ?_, ?_⟩
      · rw [hmain]
        exact i.isLt.trans_le (Nat.le_of_not_lt hk)
      all_goals simp [GoodSeen, Starts]
  | .testGood k, h =>
    have hhonest (i : Fin n) : (s.tasks i).Honest := hs.honest i (by simp [hmain, GoodCleared])
    have hdone (i : Fin n) : (s.tasks i).mIsDone = true := hs.done i (by simp [hmain, DoneSeen])
    simp only at h
    split at h
    · next hk =>
      split at h <;> cases h
      · next hgood => exact hs.seeGood hmain hk hgood
      · exact ⟨fun i _ => hhonest i, fun i _ => hdone i, by simp, by simp [Starts]⟩
    · next hk =>
      cases h
      refine ⟨fun i _ => hhonest i, fun i _ => hdone i, fun hok i _ => hs.good hok i ?_, ?_⟩
      · rw [hmain]
        exact i.isLt.trans_le (Nat.le_of_not_lt hk)
      · simp [Starts]
  | .decide, h =>
    have hseen (i : Fin n) : GoodCleared s.main i ∧ DoneSeen s.main i ∧ GoodSeen s.main i := by
      simp [hmain, GoodCleared, DoneSeen, GoodSeen]
    simp only at h
    split at h <;> cases h
    · next hok => exact hs.decided hseen rfl rfl fun _ => hok
    · exact hs.decided hseen rfl rfl (by simp [Starts])
  | .setIdle, h | .setRunning, h | .setExit, h =>
    have hseen (i : Fin n) : GoodCleared s.main i ∧ DoneSeen s.main i ∧ GoodSeen s.main i := by
      simp [hmain, GoodCleared, DoneSeen, GoodSeen]
    cases h
    refine hs.decided hseen rfl rfl fun hu => hs.starts ?_
    simp [Starts, hmain] at hu ⊢

theorem StartInv.step (hs : s.StartInv) (hsound : ∀ i, (s.tasks i).Sound)
    {a : StartupAction n} (hc : s.ClearsPending a) (h : s.step a = some t) : t.StartInv := by
  cases a with
  | main => exact hs.mainStep hc h
  | task i connected =>
    obtain ⟨u, hu, rfl⟩ := Option.map_eq_some_iff.mp h
    exact hs.taskStep hsound hu

/-- `main` does not come back to a task whose `m_is_good` it has cleared. -/
theorem mainStep_of_cleared (h : s.mainStep = some t) {i : Fin n} (hi : GoodCleared s.main i) :
    GoodCleared t.main i ∧ t.tasks i = s.tasks i := by
  unfold mainStep at h
  match hmain : s.main, h with
  | .run k, _ | .clearDone k, _ => simp [hmain, GoodCleared] at hi
  | .clearGood k, h =>
    simp only [hmain, GoodCleared] at hi
    simp only at h
    split at h <;> cases h
    · next hk =>
      have hne : i ≠ ⟨k, hk⟩ := fun heq => by simp [heq] at hi
      exact ⟨Nat.lt_succ_of_lt hi, by simp [setTask, hne]⟩
    · exact ⟨trivial, rfl⟩
  | .setInit, h | .setIdle, h | .setRunning, h | .setExit, h =>
    cases h
    exact ⟨trivial, rfl⟩
  | .waitDone k, h | .testGood k, h =>
    simp only at h
    split at h
    · split at h <;> cases h
      · exact ⟨trivial, rfl⟩
      · exact ⟨by simp [hmain, GoodCleared], rfl⟩
    · cases h
      exact ⟨trivial, rfl⟩
  | .decide, h =>
    simp only at h
    split at h <;> cases h <;> exact ⟨trivial, rfl⟩

/-- A failure that was overwritten: `main` will not see it any more. -/
def Overwritten (s : Startup n) : Prop := ∃ i, GoodCleared s.main i ∧ (s.tasks i).Stuck

theorem Overwritten.step (hs : s.Overwritten) {a : StartupAction n} (h : s.step a = some t) :
    t.Overwritten := by
  obtain ⟨i, hcleared, hstuck⟩ := hs
  cases a with
  | task j connected =>
    obtain ⟨u, hu, rfl⟩ := Option.map_eq_some_iff.mp h
    refine ⟨i, hcleared, ?_⟩
    by_cases hij : i = j
    · subst hij
      simpa [setTask] using hstuck.step hu
    · simpa [setTask, hij] using hstuck
  | main =>
    obtain ⟨hcleared', htask⟩ := mainStep_of_cleared h hcleared
    exact ⟨i, hcleared', htask ▸ hstuck⟩

theorem exists_stuck_of_not_pending {a : StartupAction n} (hc : ¬ s.ClearsPending a) :
    a = .main ∧ ∃ k, ∃ hk : k < n, s.main = .clearGood k ∧ (s.tasks ⟨k, hk⟩).Stuck := by
  cases a with
  | task i connected => exact absurd trivial hc
  | main =>
    rw [ClearsPending] at hc
    split at hc
    · next k hmain =>
      simp only [not_forall, not_not] at hc
      obtain ⟨hk, hstuck⟩ := hc
      exact ⟨rfl, k, hk, hmain, hstuck⟩
    · exact absurd trivial hc

/-- Clearing `m_is_good` of a task that has failed for good overwrites the failure. -/
theorem overwritten_of_not_pending {a : StartupAction n} (hc : ¬ s.ClearsPending a)
    (h : s.step a = some t) : t.Overwritten := by
  obtain ⟨rfl, k, hk, hmain, hstuck⟩ := exists_stuck_of_not_pending hc
  change s.mainStep = some t at h
  simp only [mainStep, hmain, hk, dite_true] at h
  cases h
  refine ⟨⟨k, hk⟩, Nat.lt_succ_self k, ?_⟩
  simp only [setTask, Function.update_self]
  exact hstuck

end Step

/-- Whenever `main` has decided to start, the last `st_init` of every task that connects has
succeeded if and only if no failure was overwritten. -/
theorem starts_initialised_iff (connects mIsGood : Fin n → Bool)
    (actions : List (StartupAction n)) (s : Startup n)
    (hrun : Transition.run step (start connects mIsGood) actions = some s)
    (hstarts : Starts s.main) :
    (∀ i, (s.tasks i).connects = true → (s.tasks i).lastInit = some true) ↔
      Transition.Meets step ClearsPending (start connects mIsGood) actions := by
  have hinit : (∀ i, ((start connects mIsGood).tasks i).Sound) ∧
      (start connects mIsGood).StartInv :=
    ⟨fun i => ⟨by simp [start, DaqTask.InInit], by simp [start], by simp [start]⟩,
      startInv_start connects mIsGood⟩
  have hnext : ∀ (s : Startup n) (a : StartupAction n) (t : Startup n),
      (∀ i, (s.tasks i).Sound) ∧ s.StartInv → s.ClearsPending a → s.step a = some t →
        (∀ i, (t.tasks i).Sound) ∧ t.StartInv :=
    fun _ _ _ hs hc h => ⟨sound_step hs.1 h, hs.2.step hs.1 hc h⟩
  constructor
  · intro hall
    have hor := Transition.meets_or
      (B := fun s : Startup n => (∀ i, (s.tasks i).Sound) ∧ s.Overwritten) hinit hnext
      (fun _ _ _ hs hc h => ⟨sound_step hs.1 h, overwritten_of_not_pending hc h⟩)
      (fun _ _ _ hs h => ⟨sound_step hs.1 h, hs.2.step h⟩) hrun
    rcases hor with ⟨hmeets, -⟩ | ⟨hsound, i, -, hlast, -⟩
    · exact hmeets
    · have := hall i ((hsound i).fails (.inr hlast))
      rw [hlast] at this
      cases this
  · intro hmeets i _
    obtain ⟨hsound, hs⟩ := Transition.run_invariant_of_meets
      (I := fun s : Startup n => (∀ i, (s.tasks i).Sound) ∧ s.StartInv) hinit hnext hrun hmeets
    have hseen : GoodCleared s.main i ∧ DoneSeen s.main i ∧ GoodSeen s.main i := by
      rcases hstarts with hmain | hmain | hmain <;>
        simp [hmain, GoodCleared, DoneSeen, GoodSeen]
    exact (hsound i).lastInit_eq (hs.honest i hseen.1) (hs.done i hseen.2.1)
      (hs.good (hs.starts hstarts) i hseen.2.2)

/-- A front-end that cannot be reached and the event builder. The failure comes before
`m_is_good` is cleared, and `m_is_done` after `main` has cleared that. -/
theorem start_after_failure :
    ¬ ∀ (n : ℕ) (connects mIsGood : Fin n → Bool) (actions : List (StartupAction n))
      (s : Startup n), Transition.run step (start connects mIsGood) actions = some s →
        Starts s.main → ∀ i, (s.tasks i).connects = true → (s.tasks i).lastInit = some true := by
  intro h
  let avant : StartupAction 2 := .task 0 false
  let eb : StartupAction 2 := .task 1 false
  have := h 2 (fun i => i = 0) (fun _ => true)
    ([.main, .main, .main, avant, avant, avant, avant, .main, .main, .main, .main, avant,
      eb, eb, eb, eb] ++ List.replicate 10 .main) _ rfl (.inl rfl) 0 rfl
  revert this
  decide

/-- The flags are cleared before the threads get to their `st_init`, which succeeds. -/
def cleanStart : List (StartupAction 2) :=
  List.replicate 10 .main ++ [.task 0 true, .task 0 true, .task 0 true, .task 0 true,
    .task 1 true, .task 1 true, .task 1 true, .task 1 true] ++ List.replicate 7 .main

theorem clean_start_initialised :
    ∃ s, Transition.run step (start (fun i => i = 0) fun _ => true) cleanStart = some s ∧
      ∀ i, (s.tasks i).connects = true → (s.tasks i).lastInit = some true := by
  refine ⟨_, rfl, ?_⟩
  exact (starts_initialised_iff (fun i => i = 0) (fun _ => true) cleanStart _ rfl
    (.inl rfl)).mpr (by decide)

end Startup

end LebStudy
