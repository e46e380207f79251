import LebStudy.Leb.Startup

/-!
# The connections of the front-ends

`leb` with its commands: behind the start, `remote_command_loop` sets the state of the
tasks and has them initialised again. Each `st_init` of a real front-end makes a new
connection and forgets the one before it, and nothing closes a connection, so a task
that enters `st_init` again behind one that has succeeded gets a second one. It does
so at an `init`, and at the start already if its first `st_init` is over before
`main` clears its `m_is_done`.
-/

namespace LebStudy

/-- A line that `remote_command_loop` gets. -/
inductive Command
  | run
  | idle
  | stop
  | init
  | end
  | exit
  /-- `state`, `mon` and whatever is no command -/
  | other
  deriving DecidableEq, Repr

/-- Where `remote_command_loop` stands, or `init_sequence` within it; `k` is the index of the
task in the loop over `tasks`. -/
inductive CommandPc
  | receive
  | clearDone (k : ℕ)
  | clearGood (k : ℕ)
  | setInit
  /-- before `if (i->is_done() == true)`, for the `j`-th time -/
  | poll (k j : ℕ)
  | testGood (k : ℕ)
  deriving DecidableEq, Repr

/-- `leb`: `main` and the tasks, the command loop, and how many connections of each task are
open. `isGoodInit` of `startup` is the variable of `init_sequence` too. -/
structure Daq (n : ℕ) where
  startup : Startup n
  command : CommandPc
  connections : Fin n → ℕ

inductive DaqAction (n : ℕ)
  /-- `main`, outside of the command loop -/
  | main
  | command (c : Command)
  /-- `init_sequence` -/
  | sequence
  /-- `connected` says whether the connection is made, if the step makes one. -/
  | task (i : Fin n) (connected : Bool)

/-- The steps of the start. -/
def DaqAction.ofStartup {n : ℕ} : StartupAction n → DaqAction n
  | .main => .main
  | .task i connected => .task i connected

namespace Daq

variable {n : ℕ}

def start (connects mIsGood : Fin n → Bool) : Daq n :=
  ⟨Startup.start connects mIsGood, .receive, fun _ => 0⟩

/-- What the command loop does with a line. -/
def obey (s : Daq n) : Command → Daq n
  | .run => { s with startup := { s.startup with cState := .smRunning } }
  | .idle | .stop => { s with startup := { s.startup with cState := .smIdle } }
  | .init => { s with command := .clearDone 0 }
  | .end => { s with startup := { s.startup with cState := .smEnd } }
  | .exit => { s with startup := { s.startup with main := .setExit } }
  | .other => s

/-- One step of `init_sequence`. It takes a task that is done for one that has failed; what it
returns is not used. -/
def initSequence (s : Daq n) : Option (Daq n) :=
  match s.command with
  | .receive => none
  | .clearDone k =>
    if h : k < n then
      some { s with
        startup := s.startup.setTask ⟨k, h⟩ { s.startup.tasks ⟨k, h⟩ with mIsDone := false }
        command := .clearDone (k + 1) }
    else some { s with command := .clearGood 0 }
  | .clearGood k =>
    if h : k < n then
      some { s with
        startup := s.startup.setTask ⟨k, h⟩ { s.startup.tasks ⟨k, h⟩ with mIsGood := true }
        command := .clearGood (k + 1) }
    else some { s with command := .setInit }
  | .setInit =>
    some { s with
      startup := { s.startup with cState := .smInit, isGoodInit := true }
      command := .poll 0 0 }
  | .poll k j =>
    if h : k < n then
      if j < 10 then
        -- the loops are left at the first task that is done
        if (s.startup.tasks ⟨k, h⟩).mIsDone then
          some { s with
            startup := { s.startup with isGoodInit := false }
            command := .testGood 0 }
        else some { s with command := .poll k (j + 1) }
      else some { s with command := .poll (k + 1) 0 }
    else some { s with command := .testGood 0 }
  | .testGood k =>
    if h : k < n then
      if (s.startup.tasks ⟨k, h⟩).mIsGood then some { s with command := .testGood (k + 1) }
      else
        some { s with
          startup := { s.startup with isGoodInit := false }
          command := .testGood (k + 1) }
    else some { s with command := .receive }

/-- The connections after a step of a task: `tcp = new kol::TcpClient(m_host, m_port)` makes one,
unless it throws. -/
def connect (s : Daq n) (i : Fin n) (connected : Bool) : Fin n → ℕ :=
  if (s.startup.tasks i).pc = .connect ∧ (s.startup.tasks i).connects ∧ connected then
    Function.update s.connections i (s.connections i + 1)
  else s.connections

def step (s : Daq n) : DaqAction n → Option (Daq n)
  | .main => s.startup.mainStep.map fun startup => { s with startup := startup }
  | .command c =>
    if s.startup.main = .commands ∧ s.command = .receive then some (s.obey c) else none
  | .sequence => if s.startup.main = .commands then s.initSequence else none
  | .task i connected =>
    (s.startup.step (.task i connected)).map fun startup =>
      { s with startup := startup, connections := s.connect i connected }

/-- Every front-end has at most one connection, and one if its last `st_init` has succeeded. -/
def OneConnection (s : Daq n) : Prop :=
  ∀ i, (s.startup.tasks i).connects = true →
    s.connections i ≤ 1 ∧ ((s.startup.tasks i).lastInit = some true → s.connections i = 1)

/-- A front-end does not enter `st_init` again behind one that has succeeded. -/
def EntersOnce (s : Daq n) : DaqAction n → Prop
  | .task i _ =>
    (s.startup.tasks i).pc = .testDone → (s.startup.tasks i).mIsDone = false →
      (s.startup.tasks i).connects = true → (s.startup.tasks i).lastInit ≠ some true
  | _ => True

instance (s : Daq n) : (a : DaqAction n) → Decidable (s.EntersOnce a)
  | .task i _ =>
    inferInstanceAs (Decidable ((s.startup.tasks i).pc = .testDone → (s.startup.tasks i).mIsDone =
      false → (s.startup.tasks i).connects = true → (s.startup.tasks i).lastInit ≠ some true))
  | .main | .command _ | .sequence => .isTrue trivial

end Daq

/-! ### A task and its connections -/

namespace DaqTask

/-- How many connections a task has whose first `st_init` to succeed is its last. -/
structure Counted (t : DaqTask) (connections : ℕ) : Prop where
  fresh : t.connects = true → t.InInit → t.lastInit ≠ some true
  count : t.connects = true → connections = if t.lastInit = some true then 1 else 0

section Step

variable {t u : DaqTask} {cState : RunState} {connected : Bool} {connections : ℕ}

theorem step_connects (h : t.step cState connected = some u) : u.connects = t.connects := by
  cases step_kind h <;> rfl

/-- The step that makes the connection. -/
theorem step_of_connect (hpc : t.pc = .connect) (hconnects : t.connects = true)
    (h : t.step cState connected = some u) :
    u = if connected then { t with pc := .setDone, lastInit := some true }
      else { t with pc := .reportBad } := by
  have hfail : (t.connects && !connected) = !connected := by rw [hconnects, Bool.true_and]
  simp only [DaqTask.step, hpc, hfail] at h
  cases connected <;> cases h <;> rfl

/-- Any other step. -/
theorem Counted.step (ht : t.Counted connections)
    (henters : t.pc = .testDone → t.mIsDone = false → t.connects = true →
      t.lastInit ≠ some true)
    (hpc : t.pc ≠ .connect) (h : t.step cState connected = some u) :
    u.Counted connections := by
  obtain ⟨hfresh, hcount⟩ := ht
  cases step_kind h with
  | move pc hs hs' hpc' skip =>
    exact ⟨fun _ hinit => absurd hinit (not_or.mpr hpc'), hcount⟩
  | begins hs hdone => exact ⟨fun hconnects _ => henters hs hdone hconnects, hcount⟩
  | fails hs hconnects => exact absurd hs hpc
  | reports hs =>
    -- this `st_init` has failed, and none had succeeded when it began
    refine ⟨fun _ hinit => absurd hinit (by simp [InInit]), fun hconnects => ?_⟩
    rw [hcount hconnects, if_neg (hfresh hconnects (.inr hs)), if_neg (by simp)]
  | succeeds hs => exact absurd hs hpc
  | done hs => exact ⟨fun _ hinit => absurd hinit (by simp [InInit]), hcount⟩

/-- The connection is made by a task that has none. -/
theorem Counted.connect (ht : t.Counted connections) (hpc : t.pc = .connect)
    (h : t.step cState connected = some u) :
    u.Counted (if t.connects ∧ connected then connections + 1 else connections) := by
  obtain ⟨hfresh, hcount⟩ := ht
  have hsame := step_connects h
  by_cases hconnects : t.connects = true
  · -- in `st_init`, so none has succeeded before
    have hnone : connections = 0 := by
      rw [hcount hconnects, if_neg (hfresh hconnects (.inl hpc))]
    have hu := step_of_connect hpc hconnects h
    cases connected with
    | false =>
      rw [if_neg (by simp), hu]
      exact ⟨fun _ _ => hfresh hconnects (.inl hpc), hcount⟩
    | true =>
      rw [if_pos ⟨hconnects, rfl⟩, hu, hnone]
      exact ⟨fun _ hinit => absurd hinit (by simp [InInit]), fun _ => by simp⟩
  · have hother : u.connects ≠ true := by
      rw [hsame]
      exact hconnects
    exact ⟨fun hyes => absurd hyes hother, fun hyes => absurd hyes hother⟩

end Step

end DaqTask

namespace Daq

variable {n : ℕ} {s t : Daq n} {a : DaqAction n}

/-- What a step of `main` or of the commands can do to a task. -/
inductive FlagKind (t : DaqTask) : DaqTask → Prop
  | same : FlagKind t t
  | starts : FlagKind t { t with pc := .switch }
  | clearsDone : FlagKind t { t with mIsDone := false }
  | clearsGood : FlagKind t { t with mIsGood := true }

theorem mainStep_flagKind {s t : Startup n} (h : s.mainStep = some t) (i : Fin n) :
    FlagKind (s.tasks i) (t.tasks i) := by
  rcases Startup.mainStep_task h i with heq | heq | heq | heq <;> rw [heq]
  · exact .same
  · exact .starts
  · exact .clearsDone
  · exact .clearsGood

theorem setTask_flagKind {s : Startup n} {k : Fin n} {u : DaqTask}
    (h : FlagKind (s.tasks k) u) (i : Fin n) :
    FlagKind (s.tasks i) ((s.setTask k u).tasks i) := by
  by_cases hi : i = k
  · subst hi
    simpa [Startup.setTask] using h
  · simpa [Startup.setTask, hi] using FlagKind.same

theorem initSequence_flagKind (h : s.initSequence = some t) (i : Fin n) :
    FlagKind (s.startup.tasks i) (t.startup.tasks i) ∧ t.connections = s.connections := by
  rw [initSequence] at h
  cases hcommand : s.command with
  | receive =>
    rw [hcommand] at h
    cases h
  | clearDone k =>
    simp only [hcommand] at h
    by_cases hk : k < n
    · rw [dif_pos hk] at h
      cases h
      exact ⟨setTask_flagKind .clearsDone i, rfl⟩
    · rw [dif_neg hk] at h
      cases h
      exact ⟨.same, rfl⟩
  | clearGood k =>
    simp only [hcommand] at h
    by_cases hk : k < n
    · rw [dif_pos hk] at h
      cases h
      exact ⟨setTask_flagKind .clearsGood i, rfl⟩
    · rw [dif_neg hk] at h
      cases h
      exact ⟨.same, rfl⟩
  | setInit =>
    simp only [hcommand] at h
    cases h
    exact ⟨.same, rfl⟩
  | poll k j =>
    simp only [hcommand] at h
    split at h
    · split at h
      · split at h <;> cases h <;> exact ⟨.same, rfl⟩
      · cases h
        exact ⟨.same, rfl⟩
    · cases h
      exact ⟨.same, rfl⟩
  | testGood k =>
    simp only [hcommand] at h
    split at h
    · split at h <;> cases h <;> exact ⟨.same, rfl⟩
    · cases h
      exact ⟨.same, rfl⟩

theorem obey_flagKind (s : Daq n) (c : Command) (i : Fin n) :
    FlagKind (s.startup.tasks i) ((s.obey c).startup.tasks i) ∧
      (s.obey c).connections = s.connections := by
  cases c <;> exact ⟨.same, rfl⟩

/-- The connections change with a step of their own task only. -/
theorem step_cases (h : s.step a = some t) (i : Fin n) :
    (FlagKind (s.startup.tasks i) (t.startup.tasks i) ∧ t.connections i = s.connections i) ∨
      ∃ connected, a = .task i connected ∧
        (s.startup.tasks i).step s.startup.cState connected = some (t.startup.tasks i) ∧
        t.connections i = s.connect i connected i := by
  cases a with
  | main =>
    obtain ⟨startup, hstartup, rfl⟩ := Option.map_eq_some_iff.mp h
    exact .inl ⟨mainStep_flagKind hstartup i, rfl⟩
  | command c =>
    rw [step] at h
    split at h <;> cases h
    obtain ⟨hkind, hsame⟩ := s.obey_flagKind c i
    exact .inl ⟨hkind, congrFun hsame i⟩
  | sequence =>
    rw [step] at h
    split at h
    · obtain ⟨hkind, hsame⟩ := initSequence_flagKind h i
      exact .inl ⟨hkind, congrFun hsame i⟩
    · cases h
  | task j connected =>
    obtain ⟨startup, hstartup, rfl⟩ := Option.map_eq_some_iff.mp h
    obtain ⟨u, hu, rfl⟩ := Option.map_eq_some_iff.mp hstartup
    by_cases hi : i = j
    · subst hi
      refine .inr ⟨connected, rfl, ?_, rfl⟩
      simpa [Startup.setTask] using hu
    · refine .inl ⟨?_, ?_⟩
      · simpa [Startup.setTask, hi] using FlagKind.same
      · show s.connect j connected i = s.connections i
        rw [connect]
        split
        · exact Function.update_of_ne hi _ _
        · rfl

/-! ### At most one connection -/

theorem Counted.flagKind {t u : DaqTask} {connections : ℕ} (ht : t.Counted connections)
    (h : FlagKind t u) : u.Counted connections := by
  obtain ⟨hfresh, hcount⟩ := ht
  cases h with
  | same | clearsDone | clearsGood => exact ⟨hfresh, hcount⟩
  | starts => exact ⟨fun _ hinit => absurd hinit (by simp [DaqTask.InInit]), hcount⟩

theorem counted_step (hs : ∀ i, (s.startup.tasks i).Counted (s.connections i))
    (henters : s.EntersOnce a) (h : s.step a = some t) (i : Fin n) :
    (t.startup.tasks i).Counted (t.connections i) := by
  cases step_cases h i with
  | inl hflags =>
    rw [hflags.2]
    exact Counted.flagKind (hs i) hflags.1
  | inr htask =>
    obtain ⟨connected, rfl, hstep, hconnect⟩ := htask
    rw [hconnect, connect]
    by_cases hpc : (s.startup.tasks i).pc = .connect
    · have hmade := (hs i).connect hpc hstep
      by_cases hyes : (s.startup.tasks i).connects ∧ connected
      · rw [if_pos ⟨hpc, hyes⟩, Function.update_self]
        rwa [if_pos hyes] at hmade
      · rw [if_neg fun hall => hyes hall.2]
        rwa [if_neg hyes] at hmade
    · rw [if_neg fun hall => hpc hall.1]
      exact (hs i).step henters hpc hstep

/-- For every interleaving of `main`, the commands and the tasks: as long as no front-end enters
`st_init` behind one that has succeeded, each of them has at most one connection. -/
theorem one_connection (connects mIsGood : Fin n → Bool) (actions : List (DaqAction n))
    (s : Daq n) (hrun : Transition.run step (start connects mIsGood) actions = some s)
    (hmeets : Transition.Meets step EntersOnce (start connects mIsGood) actions) :
    s.OneConnection := by
  have hcounted : ∀ i, (s.startup.tasks i).Counted (s.connections i) := by
    refine Transition.run_invariant_of_meets
      (I := fun s : Daq n => ∀ i, (s.startup.tasks i).Counted (s.connections i)) ?_
      (fun _ _ _ hs hc h => counted_step hs hc h) hrun hmeets
    intro i
    exact ⟨fun _ hinit => absurd hinit (by simp [start, Startup.start, DaqTask.InInit]),
      fun _ => rfl⟩
  intro i hconnects
  have hcount := (hcounted i).count hconnects
  by_cases hlast : (s.startup.tasks i).lastInit = some true
  · rw [if_pos hlast] at hcount
    exact ⟨hcount.le, fun _ => hcount⟩
  · rw [if_neg hlast] at hcount
    exact ⟨by omega, fun hyes => absurd hyes hlast⟩

/-- A front-end and the event builder. The first connection is made before `main` clears
`m_is_done` of the front-end, which makes another one behind that. -/
theorem second_connection :
    ¬ ∀ (n : ℕ) (connects mIsGood : Fin n → Bool) (actions : List (DaqAction n)) (s : Daq n),
      Transition.run step (start connects mIsGood) actions = some s → s.OneConnection := by
  intro h
  have hone := (h 2 (fun i => i = 0) (fun _ => true)
    ([.main, .main, .main] ++ List.replicate 4 (.task 0 true) ++ [.main] ++
      List.replicate 4 (.task 0 true)) _ rfl 0 rfl).1
  revert hone
  decide

/-- A clean start; then it runs, stops, and is told to initialise. Only the event builder does so
before the state changes again. -/
def oneRun : List (DaqAction 2) :=
  Startup.cleanStart.map .ofStartup ++
    [.main, .main, .command .run, .command .stop, .command .init] ++
    List.replicate 7 .sequence ++ List.replicate 8 (.task (Fin.last 1) true) ++
    List.replicate 15 .sequence ++ [.command .run]

theorem one_run_one_connection :
    ∃ s, Transition.run step (start (fun i => i = 0) fun _ => true) oneRun = some s ∧
      s.command = .receive ∧ s.connections 0 = 1 ∧ s.OneConnection := by
  refine ⟨_, rfl, rfl, rfl, ?_⟩
  exact one_connection (fun i => i = 0) (fun _ => true) oneRun _ rfl (by decide +kernel)

end Daq

end LebStudy
