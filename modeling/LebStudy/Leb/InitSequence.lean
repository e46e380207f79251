import LebStudy.Leb.Connections

/-!
# What `init_sequence` returns

`init_sequence` clears the flags of the tasks, sets `SM_INIT` and polls `m_is_done` of each
task ten times. It takes the flag for a failure: a task that is found done ends the polling
with `is_good_init = false`, and one that is not done after ten polls passes. So it says
`false` where all tasks have finished well before the first is polled, and it says `true` of
tasks that are still at work.
-/

namespace LebStudy

namespace DaqTask

/-- How the last `st_init` since the flags were cleared has ended, behind a step from `t` to
`u`. -/
def outcome (t u : DaqTask) (completed : Option Bool) : Option Bool :=
  if t.InInit ∧ u.pc = .setDone then u.lastInit else completed

/-- A task that has completed an `st_init` since its flags were cleared begins no other, and one
that is not good has failed since. -/
structure Settled (t : DaqTask) (completed : Option Bool) : Prop where
  finished : completed ≠ none → ¬ t.InInit ∧ (t.mIsDone = true ∨ t.pc = .setDone)
  bad : t.mIsGood = false → completed = some false

section Step

variable {t u : DaqTask} {cState : RunState} {connected : Bool} {completed : Option Bool}

theorem outcome_of_not_inInit (h : ¬ t.InInit) (u : DaqTask) (completed : Option Bool) :
    t.outcome u completed = completed :=
  if_neg fun hinit => h hinit.1

theorem Settled.outcome_eq (ht : t.Settled completed) (h : completed ≠ none) (u : DaqTask) :
    t.outcome u completed = completed :=
  outcome_of_not_inInit (ht.finished h).1 u completed

theorem Settled.step (ht : t.Settled completed) (h : t.step cState connected = some u) :
    u.Settled (t.outcome u completed) := by
  obtain ⟨hover, hbad⟩ := ht
  cases step_kind h with
  | move pc hs hs' hpc skip =>
    rw [outcome_of_not_inInit hs]
    refine ⟨fun hc => ⟨not_or.mpr hpc, .inl ?_⟩, hbad⟩
    exact (hover hc).2.resolve_right hs'
  | begins hs hdone =>
    have hinit : ¬ t.InInit := by simp [InInit, hs]
    rw [outcome_of_not_inInit hinit]
    refine ⟨fun hc => ?_, hbad⟩
    -- the task is not done, so it has completed nothing
    rcases (hover hc).2 with hdone' | hset
    · rw [hdone] at hdone'
      cases hdone'
    · rw [hs] at hset
      cases hset
  | fails hs hconnects =>
    have hsame : t.outcome { t with pc := .reportBad } completed = completed :=
      if_neg fun hset => by cases hset.2
    rw [hsame]
    exact ⟨fun hc => absurd (.inl hs) (hover hc).1, hbad⟩
  | reports hs =>
    have hnew : t.outcome { t with pc := .setDone, mIsGood := false, lastInit := some false }
        completed = some false := if_pos ⟨.inr hs, rfl⟩
    rw [hnew]
    exact ⟨fun _ => ⟨by simp [InInit], .inr rfl⟩, fun _ => rfl⟩
  | succeeds hs =>
    have hnew : t.outcome { t with pc := .setDone, lastInit := some true } completed =
        some true := if_pos ⟨.inl hs, rfl⟩
    rw [hnew]
    refine ⟨fun _ => ⟨by simp [InInit], .inr rfl⟩, fun hgood => ?_⟩
    -- one that is not good has completed its `st_init` and is not in it
    exact absurd (.inl hs) (hover (by simp [hbad hgood])).1
  | done hs =>
    have hinit : ¬ t.InInit := by simp [InInit, hs]
    rw [outcome_of_not_inInit hinit]
    exact ⟨fun _ => ⟨by simp [InInit], .inl rfl⟩, hbad⟩

/-- A task that has completed its `st_init` keeps its `m_is_good`. -/
theorem Settled.mIsGood_eq (ht : t.Settled completed) (hc : completed ≠ none)
    (h : t.step cState connected = some u) : u.mIsGood = t.mIsGood := by
  obtain ⟨hinit, -⟩ := ht.finished hc
  cases step_kind h with
  | move | begins | done => rfl
  | fails hs | succeeds hs => exact absurd (.inl hs) hinit
  | reports hs => exact absurd (.inr hs) hinit

end Step

end DaqTask

/-- A call of `init_sequence` while the threads of the tasks run. The last two fields are
history: how the `st_init` that each task has completed since its flags were cleared has
ended, and which tasks had not finished within their polling. -/
structure InitCall (n : ℕ) where
  daq : Daq n
  completed : Fin n → Option Bool
  late : Fin n → Bool

inductive InitAction (n : ℕ)
  | sequence
  /-- `connected` says whether the connection is made, if the step makes one. -/
  | task (i : Fin n) (connected : Bool)

namespace InitCall

variable {n : ℕ}

def task (s : InitCall n) (i : Fin n) : DaqTask := s.daq.startup.tasks i

/-- What `init_sequence` returns, once it has. -/
def isGoodInit (s : InitCall n) : Bool := s.daq.startup.isGoodInit

/-- The command loop calls `init_sequence`, wherever the threads are. -/
def call (s : Daq n) : InitCall n := ⟨s.obey .init, fun _ => none, fun _ => false⟩

/-- The task has completed an `st_init` since its flags were cleared, and has said so. -/
def Finished (s : InitCall n) (i : Fin n) : Prop :=
  s.completed i ≠ none ∧ (s.task i).mIsDone = true

instance (s : InitCall n) (i : Fin n) : Decidable (s.Finished i) :=
  inferInstanceAs (Decidable (_ ∧ _))

/-- The tasks that have not finished within their polling: those that the tenth poll does not
find done and, where the polling ends before it has come to them, those that have not finished
by then. -/
def lateAfter (s : InitCall n) : Fin n → Bool :=
  match s.daq.command with
  | .poll k j =>
    if h : k < n then
      if j < 10 then
        if (s.task ⟨k, h⟩).mIsDone then fun i => s.late i || !decide (s.Finished i)
        else if j = 9 then Function.update s.late ⟨k, h⟩ true else s.late
      else s.late
    else s.late
  | _ => s.late

/-- `clear_is_good` is the last of the flags to be cleared. -/
def completedAfter (s : InitCall n) : Fin n → Option Bool :=
  match s.daq.command with
  | .clearGood k => if h : k < n then Function.update s.completed ⟨k, h⟩ none else s.completed
  | _ => s.completed

def step (s : InitCall n) : InitAction n → Option (InitCall n)
  | .sequence => (s.daq.step .sequence).map fun daq => ⟨daq, s.completedAfter, s.lateAfter⟩
  | .task i connected =>
    (s.daq.step (.task i connected)).map fun daq =>
      { s with
        daq := daq
        completed := Function.update s.completed i
          ((s.task i).outcome (daq.startup.tasks i) (s.completed i)) }

/-- It returns `true` only if every task has completed its `st_init` and is good. -/
def TrueRight (s : InitCall n) : Prop :=
  s.isGoodInit = true → ∀ i, s.completed i ≠ none ∧ (s.task i).mIsGood = true

/-- It returns `false` only if a task has failed or had not finished within its polling. -/
def FalseRight (s : InitCall n) : Prop :=
  s.isGoodInit = false → ∃ i, s.completed i = some false ∨ s.late i = true

instance (s : InitCall n) : Decidable s.TrueRight := inferInstanceAs (Decidable (_ → _))

instance (s : InitCall n) : Decidable s.FalseRight := inferInstanceAs (Decidable (_ → _))

/-- A poll finds its task done only where some task has failed, was late or has not finished. -/
def FoundWithReason (s : InitCall n) : InitAction n → Prop
  | .task _ _ => True
  | .sequence =>
    match s.daq.command with
    | .poll k j =>
      ∀ h : k < n, j < 10 → (s.task ⟨k, h⟩).mIsDone = true →
        ∃ i, s.late i = true ∨ s.completed i = some false ∨ ¬ s.Finished i
    | _ => True

/-- Where all tasks were late, the test of `m_is_good` finds a task good only if it has completed
its `st_init` by then. -/
def GoodWhenCompleted (s : InitCall n) : InitAction n → Prop
  | .task _ _ => True
  | .sequence =>
    match s.daq.command with
    | .testGood k =>
      ∀ h : k < n, (∀ i, s.late i = true) → (s.task ⟨k, h⟩).mIsGood = true →
        s.completed ⟨k, h⟩ ≠ none
    | _ => True

instance (s : InitCall n) : (a : InitAction n) → Decidable (s.FoundWithReason a)
  | .task _ _ => .isTrue trivial
  | .sequence =>
    match hcommand : s.daq.command with
    | .poll k j =>
      decidable_of_iff (∀ h : k < n, j < 10 → (s.task ⟨k, h⟩).mIsDone = true →
        ∃ i, s.late i = true ∨ s.completed i = some false ∨ ¬ s.Finished i)
        (by simp [FoundWithReason, hcommand])
    | .receive | .clearDone _ | .clearGood _ | .setInit | .testGood _ =>
      .isTrue (by simp [FoundWithReason, hcommand])

instance (s : InitCall n) : (a : InitAction n) → Decidable (s.GoodWhenCompleted a)
  | .task _ _ => .isTrue trivial
  | .sequence =>
    match hcommand : s.daq.command with
    | .testGood k =>
      decidable_of_iff (∀ h : k < n, (∀ i, s.late i = true) →
        (s.task ⟨k, h⟩).mIsGood = true → s.completed ⟨k, h⟩ ≠ none)
        (by simp [GoodWhenCompleted, hcommand])
    | .receive | .clearDone _ | .clearGood _ | .setInit | .poll _ _ =>
      .isTrue (by simp [GoodWhenCompleted, hcommand])

/-! ### What a step can do -/

/-- `init_sequence` goes on without touching a flag. -/
def goto (s : InitCall n) (command : CommandPc) : InitCall n :=
  { s with daq := { s.daq with command := command } }

/-- The same with `is_good_init = false`. -/
def fault (s : InitCall n) (command : CommandPc) : InitCall n :=
  { s with daq :=
    { s.daq with startup := { s.daq.startup with isGoodInit := false }, command := command } }

/-- All that a step of `init_sequence` can do. -/
inductive SequenceKind (s : InitCall n) : InitCall n → Prop
  | clearDone (k : Fin n) (hs : s.daq.command = .clearDone k) :
      SequenceKind s { s with daq := { s.daq with
        startup := s.daq.startup.setTask k { s.task k with mIsDone := false }
        command := .clearDone (k + 1) } }
  | clearedDone (k : ℕ) (hs : s.daq.command = .clearDone k) : SequenceKind s (s.goto (.clearGood 0))
  | clearGood (k : Fin n) (hs : s.daq.command = .clearGood k) :
      SequenceKind s { s with
        daq := { s.daq with
          startup := s.daq.startup.setTask k { s.task k with mIsGood := true }
          command := .clearGood (k + 1) }
        completed := Function.update s.completed k none }
  | clearedGood (k : ℕ) (hs : s.daq.command = .clearGood k) (hk : n ≤ k) :
      SequenceKind s (s.goto .setInit)
  | setInit (hs : s.daq.command = .setInit) :
      SequenceKind s { s with daq := { s.daq with
        startup := { s.daq.startup with cState := .smInit, isGoodInit := true }
        command := .poll 0 0 } }
  | found (k : Fin n) (j : ℕ) (hs : s.daq.command = .poll k j) (hj : j < 10)
      (hdone : (s.task k).mIsDone = true) :
      SequenceKind s { s.fault (.testGood 0) with
        late := fun i => s.late i || !decide (s.Finished i) }
  | missed (k : Fin n) (j : ℕ) (hs : s.daq.command = .poll k j) (hj : j < 10)
      (hdone : (s.task k).mIsDone = false) :
      SequenceKind s { s.goto (.poll k (j + 1)) with
        late := if j = 9 then Function.update s.late k true else s.late }
  | next (k : Fin n) (j : ℕ) (hs : s.daq.command = .poll k j) (hj : 10 ≤ j) :
      SequenceKind s (s.goto (.poll (k + 1) 0))
  | polled (k j : ℕ) (hs : s.daq.command = .poll k j) (hk : n ≤ k) :
      SequenceKind s (s.goto (.testGood 0))
  | good (k : Fin n) (hs : s.daq.command = .testGood k) (hgood : (s.task k).mIsGood = true) :
      SequenceKind s (s.goto (.testGood (k + 1)))
  | bad (k : Fin n) (hs : s.daq.command = .testGood k) (hgood : (s.task k).mIsGood = false) :
      SequenceKind s (s.fault (.testGood (k + 1)))
  | returns (k : ℕ) (hs : s.daq.command = .testGood k) (hk : n ≤ k) :
      SequenceKind s (s.goto .receive)

theorem sequence_kind {s t : InitCall n} (h : s.step .sequence = some t) : SequenceKind s t := by
  obtain ⟨daq, hdaq, rfl⟩ := Option.map_eq_some_iff.mp h
  simp only [Daq.step] at hdaq
  split at hdaq
  · rw [Daq.initSequence] at hdaq
    cases hcommand : s.daq.command with
    | receive =>
      rw [hcommand] at hdaq
      cases hdaq
    | clearDone k =>
      simp only [hcommand] at hdaq
      split at hdaq <;> cases hdaq <;> simp only [completedAfter, lateAfter, hcommand]
      · next hk => exact .clearDone ⟨k, hk⟩ hcommand
      · exact .clearedDone k hcommand
    | clearGood k =>
      simp only [hcommand] at hdaq
      split at hdaq <;> cases hdaq <;> simp only [completedAfter, lateAfter, hcommand]
      · next hk =>
        rw [dif_pos hk]
        exact .clearGood ⟨k, hk⟩ hcommand
      · next hk =>
        rw [dif_neg hk]
        exact .clearedGood k hcommand (Nat.le_of_not_lt hk)
    | setInit =>
      simp only [hcommand] at hdaq
      cases hdaq
      simp only [completedAfter, lateAfter, hcommand]
      exact .setInit hcommand
    | poll k j =>
      simp only [hcommand] at hdaq
      simp only [completedAfter, lateAfter, hcommand]
      by_cases hk : k < n
      · rw [dif_pos hk] at hdaq ⊢
        by_cases hj : j < 10
        · rw [if_pos hj] at hdaq ⊢
          by_cases hdone : (s.task ⟨k, hk⟩).mIsDone = true
          · rw [if_pos hdone]
            rw [task] at hdone
            rw [if_pos hdone] at hdaq
            cases hdaq
            exact .found ⟨k, hk⟩ j hcommand hj hdone
          · rw [if_neg hdone]
            rw [task] at hdone
            rw [if_neg hdone] at hdaq
            cases hdaq
            exact .missed ⟨k, hk⟩ j hcommand hj (Bool.eq_false_iff.mpr hdone)
        · rw [if_neg hj] at hdaq ⊢
          cases hdaq
          exact .next ⟨k, hk⟩ j hcommand (Nat.le_of_not_lt hj)
      · rw [dif_neg hk] at hdaq ⊢
        cases hdaq
        exact .polled k j hcommand (Nat.le_of_not_lt hk)
    | testGood k =>
      simp only [hcommand] at hdaq
      simp only [completedAfter, lateAfter, hcommand]
      split at hdaq
      · next hk =>
        split at hdaq <;> cases hdaq
        · next hgood => exact .good ⟨k, hk⟩ hcommand hgood
        · next hgood => exact .bad ⟨k, hk⟩ hcommand (Bool.eq_false_iff.mpr hgood)
      · next hk =>
        cases hdaq
        exact .returns k hcommand (Nat.le_of_not_lt hk)
  · cases hdaq

/-- A step of a task. -/
theorem step_task {s t : InitCall n} {i : Fin n} {connected : Bool}
    (h : s.step (.task i connected) = some t) :
    ∃ u, (s.task i).step s.daq.startup.cState connected = some u ∧
      t.task = Function.update s.task i u ∧
      t.completed = Function.update s.completed i ((s.task i).outcome u (s.completed i)) ∧
      t.late = s.late ∧ t.isGoodInit = s.isGoodInit ∧ t.daq.command = s.daq.command := by
  obtain ⟨daq, hdaq, rfl⟩ := Option.map_eq_some_iff.mp h
  obtain ⟨startup, hstartup, rfl⟩ := Option.map_eq_some_iff.mp hdaq
  obtain ⟨u, hu, rfl⟩ := Option.map_eq_some_iff.mp hstartup
  refine ⟨u, hu, rfl, ?_, rfl, rfl, rfl⟩
  simp [Startup.setTask]

/-! ### What is known on the way -/

/-- The flags of task `i` have been cleared. -/
def Cleared (command : CommandPc) (i : Fin n) : Prop :=
  match command with
  | .clearDone _ => False
  | .clearGood k => i < k
  | .setInit | .poll _ _ | .testGood _ | .receive => True

/-- The polling of task `i` is over. -/
def Polled (command : CommandPc) (i : Fin n) : Prop :=
  match command with
  | .clearDone _ | .clearGood _ | .setInit => False
  | .poll k j => (i : ℕ) < k ∨ (i : ℕ) = k ∧ 10 ≤ j
  | .testGood _ | .receive => True

/-- `m_is_good` of task `i` has been tested. -/
def Tested (command : CommandPc) (i : Fin n) : Prop :=
  match command with
  | .clearDone _ | .clearGood _ | .setInit | .poll _ _ => False
  | .testGood k => i < k
  | .receive => True

/-- `is_good_init` has been set. -/
def Judging : CommandPc → Prop
  | .clearDone _ | .clearGood _ | .setInit => False
  | .poll _ _ | .testGood _ | .receive => True

/-- The polling is over. -/
def Judged : CommandPc → Prop
  | .clearDone _ | .clearGood _ | .setInit | .poll _ _ => False
  | .testGood _ | .receive => True

/-- The tasks whose flags are cleared are settled, and as long as no fault is found, those
polled were late. -/
structure CallInv (s : InitCall n) : Prop where
  settled : ∀ i, Cleared s.daq.command i → (s.task i).Settled (s.completed i)
  late : s.isGoodInit = true → ∀ i, Polled s.daq.command i → s.late i = true

/-- A fault that is found has a reason. -/
def FaultRight (s : InitCall n) : Prop :=
  Judging s.daq.command → s.isGoodInit = false →
    ∃ i, s.completed i = some false ∨ s.late i = true

/-- As long as no fault is found, the tasks tested have completed their `st_init` and are
good. -/
def TestedRight (s : InitCall n) : Prop :=
  s.isGoodInit = true → ∀ i, Tested s.daq.command i →
    s.completed i ≠ none ∧ (s.task i).mIsGood = true

/-- A fault has been found where every task had finished well. -/
structure Misjudged (s : InitCall n) : Prop where
  judged : Judged s.daq.command
  fault : s.isGoodInit = false
  well : ∀ i, s.late i = false ∧ s.completed i = some true

theorem callInv_call (s : Daq n) : (call s).CallInv :=
  ⟨fun _ hcleared => hcleared.elim, fun _ _ hpolled => hpolled.elim⟩

section Step

variable {s t : InitCall n}

theorem task_setTask (s : InitCall n) (k : Fin n) (u : DaqTask) (i : Fin n) :
    (s.daq.startup.setTask k u).tasks i = if i = k then u else s.task i := by
  rw [Startup.setTask]
  exact Function.update_apply _ _ _ _

theorem settled_clear {u : DaqTask} : DaqTask.Settled { u with mIsGood := true } none :=
  ⟨fun h => absurd rfl h, fun h => by cases h⟩

/-- Whatever happens to task `i`, it stays settled, and a late task stays late. -/
theorem CallInv.task (hs : s.CallInv) {i : Fin n} {connected : Bool}
    (h : s.step (.task i connected) = some t) : t.CallInv := by
  obtain ⟨hsettled, hlate⟩ := hs
  obtain ⟨u, hu, htask, hcompleted, hsame, hgood, hcommand⟩ := step_task h
  refine ⟨fun j hcleared => ?_, fun hok j hpolled => ?_⟩
  · rw [hcommand] at hcleared
    have hj := hsettled j hcleared
    rw [htask, hcompleted]
    by_cases hji : j = i
    · subst hji
      simpa using hj.step hu
    · simpa [hji] using hj
  · rw [hgood] at hok
    rw [hcommand] at hpolled
    rw [hsame]
    exact hlate hok j hpolled

theorem CallInv.sequence (hs : s.CallInv) (h : s.step .sequence = some t) : t.CallInv := by
  obtain ⟨hsettled, hlate⟩ := hs
  cases sequence_kind h with
  | clearDone k hcommand => exact ⟨fun _ hcleared => hcleared.elim, fun _ _ hpolled => hpolled.elim⟩
  | clearedDone k hcommand =>
    refine ⟨fun i hcleared => ?_, fun _ _ hpolled => hpolled.elim⟩
    exact absurd hcleared (Nat.not_lt_zero _)
  | clearGood k hcommand =>
    refine ⟨fun i hcleared => ?_, fun _ _ hpolled => hpolled.elim⟩
    show DaqTask.Settled ((s.daq.startup.setTask k _).tasks i) (Function.update s.completed k none i)
    rw [task_setTask]
    by_cases hik : i = k
    · rw [if_pos hik, hik, Function.update_self]
      exact settled_clear
    · rw [if_neg hik, Function.update_of_ne hik]
      apply hsettled i
      rw [hcommand]
      have hne : (i : ℕ) ≠ k := fun heq => hik (Fin.ext heq)
      have hlt : (i : ℕ) < k + 1 := hcleared
      show (i : ℕ) < k
      omega
  | clearedGood k hcommand hk =>
    refine ⟨fun i _ => hsettled i ?_, fun _ _ hpolled => hpolled.elim⟩
    rw [hcommand]
    exact i.isLt.trans_le hk
  | setInit hcommand =>
    refine ⟨fun i _ => hsettled i (by rw [hcommand]; trivial), fun _ i hpolled => ?_⟩
    rcases hpolled with hlt | ⟨-, hten⟩ <;> omega
  | found k j hcommand hj hdone =>
    exact ⟨fun i _ => hsettled i (by rw [hcommand]; trivial), fun hok => by cases hok⟩
  | missed k j hcommand hj =>
    refine ⟨fun i _ => hsettled i (by rw [hcommand]; trivial), fun hok i hpolled => ?_⟩
    have hbefore : (i : ℕ) < k → s.late i = true := fun hlt =>
      hlate hok i (by rw [hcommand]; exact .inl hlt)
    show (if j = 9 then Function.update s.late k true else s.late) i = true
    rcases hpolled with hlt | ⟨heq, hten⟩
    · split
      · rw [Function.update_of_ne (Fin.ne_of_val_ne (by omega))]
        exact hbefore hlt
      · exact hbefore hlt
    · rw [if_pos (by omega), Fin.ext heq, Function.update_self]
  | next k j hcommand hj =>
    refine ⟨fun i _ => hsettled i (by rw [hcommand]; trivial), fun hok i hpolled => ?_⟩
    apply hlate hok i
    rw [hcommand]
    rcases hpolled with hlt | ⟨-, hten⟩
    · show (i : ℕ) < k ∨ (i : ℕ) = k ∧ 10 ≤ j
      omega
    · omega
  | polled k j hcommand hk =>
    refine ⟨fun i _ => hsettled i (by rw [hcommand]; trivial), fun hok i _ => ?_⟩
    apply hlate hok i
    rw [hcommand]
    exact .inl (i.isLt.trans_le hk)
  | good k hcommand hgood | returns k hcommand hk =>
    refine ⟨fun i _ => hsettled i (by rw [hcommand]; trivial), fun hok i _ => hlate hok i ?_⟩
    rw [hcommand]
    trivial
  | bad k hcommand hgood =>
    exact ⟨fun i _ => hsettled i (by rw [hcommand]; trivial), fun hok => by cases hok⟩

theorem CallInv.step {a : InitAction n} (hs : s.CallInv) (h : s.step a = some t) : t.CallInv := by
  cases a with
  | sequence => exact hs.sequence h
  | task i connected => exact hs.task h

/-- What a task has completed since its flags were cleared stays so. -/
theorem completed_task (hs : s.CallInv) {i : Fin n} {connected : Bool}
    (h : s.step (.task i connected) = some t) {j : Fin n} (hcleared : Cleared s.daq.command j)
    (hc : s.completed j ≠ none) :
    t.completed j = s.completed j ∧ (t.task j).mIsGood = (s.task j).mIsGood := by
  obtain ⟨u, hu, htask, hcompleted, -⟩ := step_task h
  rw [htask, hcompleted]
  by_cases hji : j = i
  · subst hji
    have hsettled := hs.settled j hcleared
    rw [Function.update_self, Function.update_self]
    exact ⟨hsettled.outcome_eq hc u, hsettled.mIsGood_eq hc hu⟩
  · rw [Function.update_of_ne hji, Function.update_of_ne hji]
    exact ⟨rfl, rfl⟩

theorem cleared_of_judging {command : CommandPc} (h : Judging command) (i : Fin n) :
    Cleared command i := by
  cases command with
  | clearDone | clearGood | setInit => exact h.elim
  | poll | testGood | receive => trivial

theorem judging_of_judged {command : CommandPc} (h : Judged command) : Judging command := by
  cases command with
  | clearDone | clearGood | setInit | poll => exact h.elim
  | testGood | receive => trivial

/-! ### `false` -/

theorem FaultRight.step {a : InitAction n} (hs : s.FaultRight) (hinv : s.CallInv)
    (hreason : s.FoundWithReason a) (h : s.step a = some t) : t.FaultRight := by
  cases a with
  | task i connected =>
    obtain ⟨u, -, -, -, hlate, hgood, hcommand⟩ := step_task h
    intro hjudging hfault
    rw [hcommand] at hjudging
    rw [hgood] at hfault
    obtain ⟨j, hj⟩ := hs hjudging hfault
    refine ⟨j, ?_⟩
    rcases hj with hfailed | hlate'
    · left
      rw [(completed_task hinv h (cleared_of_judging hjudging j) (by simp [hfailed])).1]
      exact hfailed
    · right
      rw [hlate]
      exact hlate'
  | sequence =>
    have hbefore : ∀ {command}, s.daq.command = command → Judging command →
        s.isGoodInit = false → ∃ i, s.completed i = some false ∨ s.late i = true :=
      fun hcommand hjudging hfault => hs (by rw [hcommand]; exact hjudging) hfault
    cases sequence_kind h with
    | clearDone | clearedDone | clearGood | clearedGood => exact fun hjudging => hjudging.elim
    | setInit => exact fun _ hfault => by cases hfault
    | found k j hcommand hj hdone =>
      intro _ _
      simp only [FoundWithReason, hcommand] at hreason
      obtain ⟨i, hi⟩ := hreason k.isLt hj hdone
      refine ⟨i, ?_⟩
      show s.completed i = some false ∨ (s.late i || !decide (s.Finished i)) = true
      rcases hi with hlate | hfailed | hfinished
      · exact .inr (by simp [hlate])
      · exact .inl hfailed
      · exact .inr (by simp [hfinished])
    | missed k j hcommand hj =>
      intro _ hfault
      obtain ⟨i, hi⟩ := hbefore hcommand trivial hfault
      refine ⟨i, hi.imp_right fun hlate => ?_⟩
      show (if j = 9 then Function.update s.late k true else s.late) i = true
      split
      · by_cases hik : i = k
        · rw [hik, Function.update_self]
        · rw [Function.update_of_ne hik]
          exact hlate
      · exact hlate
    | next k j hcommand | polled k j hcommand | good k hcommand | returns k hcommand =>
      exact fun _ hfault => hbefore hcommand trivial hfault
    | bad k hcommand hgood =>
      -- a task is not good only if it has failed since
      intro _ _
      refine ⟨k, .inl ?_⟩
      exact (hinv.settled k (by rw [hcommand]; trivial)).bad hgood

theorem Misjudged.step {a : InitAction n} (hs : s.Misjudged) (hinv : s.CallInv)
    (h : s.step a = some t) : t.Misjudged := by
  obtain ⟨hjudged, hfault, hwell⟩ := hs
  cases a with
  | task i connected =>
    obtain ⟨u, -, -, -, hlate, hgood, hcommand⟩ := step_task h
    refine ⟨by rwa [hcommand], by rwa [hgood], fun j => ?_⟩
    have hcleared : Cleared s.daq.command j := cleared_of_judging (judging_of_judged hjudged) j
    rw [hlate, (completed_task hinv h hcleared (by simp [(hwell j).2])).1]
    exact hwell j
  | sequence =>
    cases sequence_kind h with
    | clearDone k hcommand | clearedDone k hcommand | clearGood k hcommand
    | clearedGood k hcommand | setInit hcommand | found k j hcommand | missed k j hcommand
    | next k j hcommand | polled k j hcommand =>
      rw [hcommand] at hjudged
      exact hjudged.elim
    | good k hcommand | returns k hcommand => exact ⟨trivial, hfault, hwell⟩
    | bad k hcommand => exact ⟨trivial, rfl, hwell⟩

/-- The poll that finds its task done without a reason. -/
theorem misjudged_of_not_foundWithReason {a : InitAction n}
    (hnot : ¬ s.FoundWithReason a) (h : s.step a = some t) : t.Misjudged := by
  cases a with
  | task i connected => exact absurd trivial hnot
  | sequence =>
    cases sequence_kind h with
    | clearDone k hcommand | clearedDone k hcommand | clearGood k hcommand
    | clearedGood k hcommand | setInit hcommand | good k hcommand | bad k hcommand
    | returns k hcommand =>
      exact absurd (by simp [FoundWithReason, hcommand]) hnot
    | next k j hcommand hj =>
      exact absurd (by simp only [FoundWithReason, hcommand]; intro _ hlt; omega) hnot
    | polled k j hcommand hk =>
      exact absurd (by simp only [FoundWithReason, hcommand]; intro hlt; omega) hnot
    | missed k j hcommand hj hdone =>
      refine absurd ?_ hnot
      simp only [FoundWithReason, hcommand]
      intro _ _ hdone'
      rw [hdone] at hdone'
      cases hdone'
    | found k j hcommand hj hdone =>
      simp only [FoundWithReason, hcommand] at hnot
      push Not at hnot
      obtain ⟨-, -, -, hwell⟩ := hnot
      refine ⟨trivial, rfl, fun i => ?_⟩
      obtain ⟨hlate, hfailed, hcompleted, hdone'⟩ := hwell i
      show (s.late i || !decide (s.Finished i)) = false ∧ s.completed i = some true
      constructor
      · have hfinished : s.Finished i := ⟨hcompleted, hdone'⟩
        simp [hlate, hfinished]
      · match hresult : s.completed i with
        | some true => rfl
        | some false => exact absurd hresult hfailed
        | none => exact absurd hresult hcompleted

/-! ### `true` -/

theorem TestedRight.step {a : InitAction n} (hs : s.TestedRight) (hinv : s.CallInv)
    (hgood : s.GoodWhenCompleted a) (h : s.step a = some t) : t.TestedRight := by
  cases a with
  | task i connected =>
    obtain ⟨u, -, -, -, -, hsame, hcommand⟩ := step_task h
    intro hok j htested
    rw [hsame] at hok
    rw [hcommand] at htested
    obtain ⟨hcompleted, hjgood⟩ := hs hok j htested
    have hcleared : Cleared s.daq.command j := by
      cases hc : s.daq.command with
      | clearDone | clearGood | setInit | poll =>
        rw [hc] at htested
        exact htested.elim
      | testGood | receive => trivial
    obtain ⟨hkept, hkept'⟩ := completed_task hinv h hcleared hcompleted
    rw [hkept, hkept']
    exact ⟨hcompleted, hjgood⟩
  | sequence =>
    cases sequence_kind h with
    | clearDone | clearedDone | clearGood | clearedGood | setInit | missed | next =>
      exact fun _ _ htested => htested.elim
    | found => exact fun hok => by cases hok
    | bad => exact fun hok => by cases hok
    | polled => exact fun _ _ htested => absurd htested (Nat.not_lt_zero _)
    | good k hcommand hkgood =>
      intro hok i htested
      have hpolled : ∀ j, s.late j = true := fun j =>
        hinv.late hok j (by rw [hcommand]; trivial)
      simp only [GoodWhenCompleted, hcommand] at hgood
      by_cases hik : i = k
      · rw [hik]
        exact ⟨hgood k.isLt hpolled hkgood, hkgood⟩
      · apply hs hok i
        rw [hcommand]
        have hne : (i : ℕ) ≠ k := fun heq => hik (Fin.ext heq)
        have hlt : (i : ℕ) < k + 1 := htested
        show (i : ℕ) < k
        omega
    | returns k hcommand hk =>
      intro hok i _
      apply hs hok i
      rw [hcommand]
      exact i.isLt.trans_le hk

end Step

/-! ### What is returned -/

/-- For any number of tasks, wherever their threads are at the call, and for every interleaving:
`init_sequence` returns `false` rightly exactly if no poll has found its task done where all
had finished well, and `true` rightly if no task passes for good that is still at work. -/
theorem returns_truth_iff (s : Daq n) (as : List (InitAction n)) (t : InitCall n)
    (hrun : Transition.run step (call s) as = some t) (hreturned : t.daq.command = .receive) :
    (t.FalseRight ↔ Transition.Meets step FoundWithReason (call s) as) ∧
      (Transition.Meets step GoodWhenCompleted (call s) as → t.TrueRight) := by
  have hstart : (call s).FaultRight := fun hjudging => hjudging.elim
  constructor
  · constructor
    · intro hright
      have hcases := Transition.meets_or (I := fun u => u.CallInv ∧ u.FaultRight)
        (B := fun u => u.CallInv ∧ u.Misjudged) ⟨callInv_call s, hstart⟩
        (fun _ _ _ hu ha h => ⟨hu.1.step h, hu.2.step hu.1 ha h⟩)
        (fun _ _ _ hu ha h => ⟨hu.1.step h, misjudged_of_not_foundWithReason ha h⟩)
        (fun _ _ _ hu h => ⟨hu.1.step h, hu.2.step hu.1 h⟩) hrun
      rcases hcases with ⟨hmeets, -⟩ | ⟨-, -, hfault, hwell⟩
      · exact hmeets
      · obtain ⟨i, hi⟩ := hright hfault
        obtain ⟨hlate, hcompleted⟩ := hwell i
        rw [hlate, hcompleted] at hi
        simp at hi
    · intro hmeets
      have hinv := Transition.run_invariant_of_meets (I := fun u => u.CallInv ∧ u.FaultRight)
        ⟨callInv_call s, hstart⟩
        (fun _ _ _ hu ha h => ⟨hu.1.step h, hu.2.step hu.1 ha h⟩) hrun hmeets
      exact hinv.2 (by rw [hreturned]; trivial)
  · intro hmeets hok i
    have hinv := Transition.run_invariant_of_meets (I := fun u => u.CallInv ∧ u.TestedRight)
      ⟨callInv_call s, fun _ _ htested => htested.elim⟩
      (fun _ _ _ hu ha h => ⟨hu.1.step h, hu.2.step hu.1 ha h⟩) hrun hmeets
    exact hinv.2 hok i (by rw [hreturned]; trivial)

/-- A front-end that waits in `st_idle`, and `main` in the command loop. -/
def idleFrontEnd : Daq 1 where
  startup := ⟨.smIdle, true, .commands, fun _ => ⟨true, true, true, .switch, some true⟩⟩
  command := .receive
  connections := fun _ => 1

/-- Up to the first poll. -/
def cleared : List (InitAction 1) := List.replicate 5 .sequence

/-- A whole turn of the thread, with a connection. -/
def connects : List (InitAction 1) := List.replicate 4 (.task ⟨0, Nat.one_pos⟩ true)

/-- The front-end connects before it is polled. -/
theorem false_of_good_task :
    ¬ ∀ (n : ℕ) (s : Daq n) (as : List (InitAction n)) (t : InitCall n),
      Transition.run step (call s) as = some t → t.daq.command = .receive →
        t.TrueRight ∧ t.FalseRight := by
  intro h
  have hright := (h 1 idleFrontEnd (cleared ++ connects ++ List.replicate 3 .sequence) _ rfl rfl).2
  revert hright
  decide

/-- The front-end connects behind its last poll. -/
theorem true_of_late_task :
    ∃ t, Transition.run step (call idleFrontEnd)
        (cleared ++ List.replicate 12 .sequence ++ connects ++ List.replicate 2 .sequence) = some t ∧
      t.isGoodInit = true ∧ t.TrueRight ∧ t.FalseRight := by
  refine ⟨_, rfl, rfl, ?_⟩
  have h := returns_truth_iff idleFrontEnd
    (cleared ++ List.replicate 12 .sequence ++ connects ++ List.replicate 2 .sequence) _ rfl rfl
  exact ⟨h.2 (by decide), h.1.mpr (by decide)⟩

end InitCall

end LebStudy
