import LebStudy.Leb.System
import Mathlib.Algebra.BigOperators.Fin

/-!
# The buffers in flight

`g_avant_depth` counts the buffers that have been allocated and not freed, wherever
they are: with a task, in the queue, with the event builder, or left behind by a
task whose read threw. From the count follows when it gets back to zero, and what
the event builder can conclude from a zero when it leaves its loop. It cannot conclude
that no task goes on sending to the receiver that it then closes.
-/

namespace LebStudy

open scoped List

namespace DTArecbe

/-- The buffers that the task has in hand. -/
def inHand (s : DTArecbe) : ℕ := if s.pc.HoldsBuffer then 1 else 0

theorem inHand_of_holds {s : DTArecbe} (h : s.pc.HoldsBuffer) : s.inHand = 1 := if_pos h

theorem inHand_of_not_holds {s : DTArecbe} (h : ¬ s.pc.HoldsBuffer) : s.inHand = 0 := if_neg h

/-- By how much a step changes `g_avant_depth`. -/
def Effect.depthChange : Effect → ℤ
  | .allocated => 1
  | .released => -1
  | .nothing | .sent _ | .leaked => 0

/-- How many buffers a step takes out of the task's hands that are not freed. -/
def Effect.handedOver : Effect → ℕ
  | .sent _ | .leaked => 1
  | .nothing | .allocated | .released => 0

/-- A buffer that is counted is in hand, and one that is handed over was in hand. -/
theorem inHand_step {s t : DTArecbe} {turn : Turn} {e : Effect} (h : s.step turn = some (t, e)) :
    (t.inHand + e.handedOver : ℤ) = s.inHand + e.depthChange := by
  have hholds {s : DTArecbe} {pc : Pc} (hpc : s.pc = pc) (h : pc.HoldsBuffer) : s.inHand = 1 :=
    inHand_of_holds (hpc ▸ h)
  have hfree {s : DTArecbe} {pc : Pc} (hpc : s.pc = pc) (h : ¬ pc.HoldsBuffer) : s.inHand = 0 :=
    inHand_of_not_holds (hpc ▸ h)
  cases step_kind h with
  | test hs ht => rw [inHand_of_not_holds hs, inHand_of_not_holds ht]; rfl
  | allocate hs ht =>
    obtain ⟨buf, ht⟩ := ht
    rw [hfree hs id, hholds ht trivial]
    rfl
  | read hs ht => rw [inHand_of_holds hs, inHand_of_holds ht.holdsBuffer]; rfl
  | throw hs ht => rw [inHand_of_holds hs, hfree ht id]; rfl
  | send message hs ht | sendFail message hs ht => rw [hholds hs trivial, hfree ht id]; rfl

end DTArecbe

/-- The buffers that the event builder has in hand. -/
def EbPc.inHand : EbPc → ℕ
  | .holding => 1
  | .stateMachine | .loopTest | .recv | .exitTest | .ended => 0

theorem EbPc.inHand_of_ne {pc : EbPc} (h : pc ≠ .holding) : pc.inHand = 0 := by
  cases pc with
  | holding => exact absurd rfl h
  | stateMachine | loopTest | recv | exitTest | ended => rfl

namespace Leb

variable {n : ℕ}

/-! ### The count -/

/-- The buffers allocated and not freed, by where they are. -/
def liveBuffers (s : Leb n) : ℕ :=
  (∑ i, (s.tasks i).inHand) + s.queue.length + s.ebPc.inHand + s.leaked

theorem sum_inHand_update (tasks : Fin n → DTArecbe) (i : Fin n) (task : DTArecbe) :
    (∑ j, (Function.update tasks i task j).inHand) + (tasks i).inHand =
      (∑ j, (tasks j).inHand) + task.inHand := by
  have hrest : ∑ j ∈ Finset.univ.erase i, (Function.update tasks i task j).inHand =
      ∑ j ∈ Finset.univ.erase i, (tasks j).inHand := by
    refine Finset.sum_congr rfl fun j hj => ?_
    rw [Function.update_of_ne (Finset.ne_of_mem_erase hj)]
  have hold := Finset.add_sum_erase Finset.univ (fun j => (tasks j).inHand) (Finset.mem_univ i)
  have hnew := Finset.add_sum_erase Finset.univ
    (fun j => (Function.update tasks i task j).inHand) (Finset.mem_univ i)
  simp only [Function.update_self, hrest] at hold hnew
  omega

/-- `g_avant_depth` is the number of buffers in flight. -/
def Counted (s : Leb n) : Prop := s.gAvantDepth = s.liveBuffers

theorem counted_start (frontEnds : Fin n → FrontEnd) (eb : DTeb) :
    (start frontEnds eb).Counted := by
  simp [Counted, liveBuffers, start, FrontEnd.task, DTArecbe.start, DTArecbe.inHand,
    DTArecbe.Pc.HoldsBuffer, EbPc.inHand]

theorem Counted.taskDone {s : Leb n} (hs : s.Counted) {i : Fin n} {turn : Turn}
    {task : DTArecbe} {e : DTArecbe.Effect} (h : s.taskStep i turn = some (task, e)) :
    (s.taskDone i task e).Counted := by
  have hsum := sum_inHand_update s.tasks i task
  have hstep := DTArecbe.inHand_step (step_of_taskStep h)
  rw [Counted, liveBuffers] at hs ⊢
  cases e <;>
    simp only [Leb.taskDone, DTArecbe.Effect.depthChange, DTArecbe.Effect.handedOver,
      List.length_append, List.length_singleton] at hstep ⊢ <;>
    omega

theorem Counted.ebStep {s t : Leb n} (hs : s.Counted) {found : Option (Fin n × ℕ)} {stale : ℕ → ℕ}
    (h : s.ebStep found stale = some t) : t.Counted := by
  rw [Counted, liveBuffers] at hs ⊢
  cases ebStep_kind h with
  | move pc hpc hpc' =>
    rw [EbPc.inHand_of_ne hpc] at hs
    simp only [EbPc.inHand_of_ne hpc']
    exact hs
  | leave hpc =>
    rw [hpc] at hs
    exact hs
  | receive fragment eb hpc hmem =>
    have hlen := (List.perm_cons_erase hmem).length_eq
    rw [hpc] at hs
    simp only [List.length_cons, EbPc.inHand] at hlen hs ⊢
    omega
  | free hpc =>
    rw [hpc] at hs
    simp only [EbPc.inHand] at hs ⊢
    omega

/-- Every step keeps the count, whoever takes it. -/
theorem Counted.step {s t : Leb n} (hs : s.Counted) {a : LebAction n}
    (h : s.step a = some t) : t.Counted := by
  cases a with
  | setState state =>
    cases h
    exact hs
  | task i turn =>
    obtain ⟨task, e, hstep, rfl⟩ := step_task.mp h
    exact hs.taskDone hstep
  | connect i late =>
    obtain ⟨receiver, -, rfl⟩ := step_connect h
    exact hs
  | eb found stale => exact hs.ebStep h
  | destroy fragment =>
    obtain ⟨hmem, -, rfl⟩ := step_destroy.mp h
    have hlen := (List.perm_cons_erase hmem).length_eq
    rw [Counted, liveBuffers] at hs ⊢
    simp only [List.length_cons] at hlen hs ⊢
    omega

theorem counted_of_run {frontEnds : Fin n → FrontEnd} {eb : DTeb} {actions : List (LebAction n)}
    {s : Leb n} (hrun : Transition.run step (start frontEnds eb) actions = some s) : s.Counted :=
  Transition.run_invariant (counted_start frontEnds eb) (fun _ _ _ hs hstep => hs.step hstep) hrun

/-! ### When the count gets back to zero -/

/-- The step is a read of a task that throws. -/
def Throws (s : Leb n) : LebAction n → Prop
  | .task i turn => (s.taskStep i turn).map (·.2) = some .leaked
  | .setState _ | .connect _ _ | .eb _ _ | .destroy _ => False

instance : ∀ (s : Leb n) (a : LebAction n), Decidable (s.Throws a)
  | s, .task i turn => inferInstanceAs (Decidable ((s.taskStep i turn).map (·.2) = some .leaked))
  | _, .setState _ | _, .connect _ _ | _, .eb _ _ | _, .destroy _ => .isFalse id

/-- No task has a buffer in hand, and every message sent has been received and destroyed. -/
structure Quiescent (s : Leb n) : Prop where
  tasks : ∀ i, ¬ (s.tasks i).pc.HoldsBuffer
  queue : s.queue = []
  eb : s.ebPc ≠ .holding

/-- A step leaves a buffer behind exactly if it is a read that throws. -/
theorem leaked_step {s t : Leb n} {a : LebAction n} (h : s.step a = some t) :
    t.leaked = s.leaked + if s.Throws a then 1 else 0 := by
  cases a with
  | setState state =>
    cases h
    rfl
  | task i turn =>
    obtain ⟨task, e, hstep, rfl⟩ := step_task.mp h
    cases e <;> simp [Leb.taskDone, Throws, hstep]
  | connect i late =>
    obtain ⟨receiver, -, rfl⟩ := step_connect h
    rfl
  | eb found stale => cases ebStep_kind h <;> rfl
  | destroy fragment =>
    obtain ⟨-, -, rfl⟩ := step_destroy.mp h
    rfl

/-- Only what was left behind is still counted. -/
theorem Quiescent.liveBuffers_eq {s : Leb n} (h : s.Quiescent) : s.liveBuffers = s.leaked := by
  have hsum : ∑ i, (s.tasks i).inHand = 0 :=
    Finset.sum_eq_zero fun i _ => DTArecbe.inHand_of_not_holds (h.tasks i)
  rw [liveBuffers, hsum, h.queue, EbPc.inHand_of_ne h.eb, List.length_nil]
  omega

theorem leaked_eq_zero_iff {frontEnds : Fin n → FrontEnd} {eb : DTeb}
    {actions : List (LebAction n)} {s : Leb n}
    (hrun : Transition.run step (start frontEnds eb) actions = some s) :
    s.leaked = 0 ↔
      Transition.Meets step (fun s a => ¬ s.Throws a) (start frontEnds eb) actions := by
  have hkept : ∀ (s : Leb n) (a : LebAction n) (t : Leb n), s.leaked = 0 → ¬ s.Throws a →
      s.step a = some t → t.leaked = 0 := by
    intro s a t hs hc hstep
    rw [leaked_step hstep, if_neg hc, hs]
  constructor
  · intro hzero
    have hor := Transition.meets_or
      (I := fun s : Leb n => s.leaked = 0) (B := fun s : Leb n => 0 < s.leaked) rfl hkept
      (fun s a t hs hc hstep => by
        rw [leaked_step hstep, if_pos (not_not.mp hc)]
        omega)
      (fun s a t hs hstep => by
        rw [leaked_step hstep]
        omega) hrun
    rcases hor with ⟨hmeets, -⟩ | hpos
    · exact hmeets
    · omega
  · intro hmeets
    exact Transition.run_invariant_of_meets (I := fun s : Leb n => s.leaked = 0) rfl hkept hrun
      hmeets

/-- In every state the counter is the number of buffers in flight. Where no task has one in
hand and every message is destroyed it is back at zero, and with it the event builder's exit
condition is met, exactly if no read of the run has thrown. -/
theorem depth_exact (frontEnds : Fin n → FrontEnd) (eb : DTeb) (actions : List (LebAction n))
    (s : Leb n) (hrun : Transition.run step (start frontEnds eb) actions = some s) :
    s.gAvantDepth = s.liveBuffers ∧
    (s.Quiescent → (s.gAvantDepth = 0 ↔
      Transition.Meets step (fun s a => ¬ s.Throws a) (start frontEnds eb) actions)) ∧
    (s.Quiescent → s.cState ≠ .smRunning → (s.ExitCondition ↔
      Transition.Meets step (fun s a => ¬ s.Throws a) (start frontEnds eb) actions)) := by
  have hcounted : s.gAvantDepth = s.liveBuffers := counted_of_run hrun
  rw [← leaked_eq_zero_iff hrun]
  refine ⟨hcounted, fun hq => ?_, fun hq hstate => ?_⟩
  · rw [hcounted, hq.liveBuffers_eq, Int.natCast_eq_zero]
  · rw [ExitCondition, and_iff_right hstate, hcounted, hq.liveBuffers_eq]
    omega

/-- One task whose first header read throws: its buffer is counted for ever. -/
theorem depth_of_thrown_read :
    ¬ ∀ (n : ℕ) (frontEnds : Fin n → FrontEnd) (eb : DTeb) (actions : List (LebAction n))
      (s : Leb n), Transition.run step (start frontEnds eb) actions = some s →
        s.Quiescent → s.gAvantDepth = 0 := by
  intro h
  let turn : Turn := ⟨.smInit, fun _ => 0, true, true, 0⟩
  have hquiet := h 1 (fun _ => ⟨1, false, 16, ⟨[.error], false⟩⟩) (.start 999 1024 [1])
    [.setState .smRunning, .task 0 turn, .connect 0 false, .task 0 turn, .task 0 turn,
      .task 0 turn] _ rfl
    ⟨by decide, rfl, by decide⟩
  revert hquiet
  decide

/-- A record is sent, received and freed. -/
def oneFragment : List (LebAction 1) :=
  let turn : LebAction 1 := .task 0 ⟨.smInit, fun _ => 0, true, true, 0⟩
  [.setState .smRunning, .eb none id, turn, .connect 0 false, turn, turn, turn, .eb none id,
    .eb none id, turn, turn, .setState .smIdle, turn, .eb none id, .eb (some (0, 1)) id, .eb none id]

def oneFrontEnd (_ : Fin 1) : FrontEnd :=
  ⟨1, false, 16, ⟨[.data 1 [7, 0, 0, 0, 0, 0, 0, 0, 0, 0, 5]], false⟩⟩

theorem depth_of_one_fragment :
    ∃ s, Transition.run step (start oneFrontEnd (.start 999 1024 [1])) oneFragment = some s ∧
      s.received.length = 1 ∧ s.gAvantDepth = 0 := by
  refine ⟨_, rfl, by decide, ?_⟩
  exact ((depth_exact oneFrontEnd (.start 999 1024 [1]) oneFragment _ rfl).2.1
    ⟨by decide, rfl, by decide⟩).mpr (by decide)

/-! ### What is in flight when the event builder leaves -/

/-- The task is in a turn of its loop: it has passed the test of `c_state`. -/
def InTurn (pc : DTArecbe.Pc) : Prop := pc = .allocate ∨ pc.HoldsBuffer

/-- Every task in a turn has begun it after the event builder left its loop for the last
time, and will send to its present receiver, or the next one. No fragment sent in an earlier
turn, or to a receiver that is closed, is under way, and all fragments sent are, or are about
to be, received before the event builder leaves again. -/
structure NoneLost (s : Leb n) : Prop where
  tasks : ∀ i, InTurn (s.tasks i).pc → s.began i = s.leaves ∧ (s.senders i).receiver = s.leaves
  queue : ∀ fragment ∈ s.queue, fragment.began = s.leaves ∧ fragment.sender.receiver = s.leaves
  received : ∀ p ∈ s.received, p.1.began = p.2
  account : s.sent ~ s.received.map (·.1) ++ s.queue

/-- When the event builder leaves its loop, no task stands between its test of `c_state` and
`g_avant_depth++`; and no task passes this test with a sender whose receiver is closed. -/
def LeavesBetweenTurns (s : Leb n) : LebAction n → Prop
  | .eb _ _ => s.ebPc = .loopTest → s.ExitCondition → ∀ i, (s.tasks i).pc ≠ .allocate
  | .task i _ =>
    (s.tasks i).pc = .loopTest → s.cState = .smRunning → (s.senders i).receiver = s.leaves
  | .setState _ | .connect _ _ | .destroy _ => True

instance : ∀ (s : Leb n) (a : LebAction n), Decidable (s.LeavesBetweenTurns a)
  | s, .eb _ _ => inferInstanceAs (Decidable (s.ebPc = .loopTest → s.ExitCondition → _))
  | s, .task i _ => inferInstanceAs (Decidable ((s.tasks i).pc = .loopTest → _ → _))
  | _, .setState _ | _, .connect _ _ | _, .destroy _ => .isTrue trivial

/-- At a count of zero nothing is in flight. -/
theorem Counted.none_in_flight {s : Leb n} (hs : s.Counted) (hdepth : s.gAvantDepth ≤ 0) :
    (∀ i, ¬ (s.tasks i).pc.HoldsBuffer) ∧ s.queue = [] := by
  rw [Counted, liveBuffers] at hs
  constructor
  · intro i hholds
    have hsum := Finset.add_sum_erase Finset.univ (fun j => (s.tasks j).inHand) (Finset.mem_univ i)
    simp only [DTArecbe.inHand_of_holds hholds] at hsum
    omega
  · refine List.length_eq_zero_iff.mp ?_
    omega

/-- A task that is in a turn after its step was in it before, or has just begun it. -/
theorem inTurn_of_taskStep {s : Leb n} {i : Fin n} {turn : Turn} {task : DTArecbe}
    {e : DTArecbe.Effect} (h : s.taskStep i turn = some (task, e)) (hturn : InTurn task.pc)
    (hne : task.pc ≠ .allocate) : InTurn (s.tasks i).pc := by
  cases DTArecbe.step_kind (step_of_taskStep h) with
  | test hpc hpc' => exact absurd (hturn.resolve_left hne) hpc'
  | allocate hpc => exact .inl hpc
  | read hpc => exact .inr hpc
  | throw hpc => exact .inr hpc
  | send message hpc | sendFail message hpc =>
    rw [hpc]
    exact .inr trivial

theorem taskDone_leaves (s : Leb n) (i : Fin n) (task : DTArecbe) (e : DTArecbe.Effect) :
    (s.taskDone i task e).leaves = s.leaves := by
  cases e <;> rfl

theorem taskDone_began (s : Leb n) (i : Fin n) (task : DTArecbe) (e : DTArecbe.Effect) :
    (s.taskDone i task e).began =
      if task.pc = .allocate then Function.update s.began i s.leaves else s.began := by
  cases e <;> rfl

theorem taskDone_tasks (s : Leb n) (i : Fin n) (task : DTArecbe) (e : DTArecbe.Effect) :
    (s.taskDone i task e).tasks = Function.update s.tasks i task := by
  cases e <;> rfl

theorem taskDone_senders (s : Leb n) (i : Fin n) (task : DTArecbe) (e : DTArecbe.Effect) :
    (s.taskDone i task e).senders = s.senders := by
  cases e <;> rfl

/-- A task that begins a turn notes how often the event builder has left by now. -/
theorem NoneLost.tasks_taskDone {s : Leb n} (hs : s.NoneLost) {i : Fin n} {turn : Turn}
    {task : DTArecbe} {e : DTArecbe.Effect} (hpasses : s.LeavesBetweenTurns (.task i turn))
    (h : s.taskStep i turn = some (task, e)) (j : Fin n)
    (hturn : InTurn ((s.taskDone i task e).tasks j).pc) :
    (s.taskDone i task e).began j = s.leaves ∧ (s.senders j).receiver = s.leaves := by
  rw [taskDone_tasks] at hturn
  rw [taskDone_began]
  by_cases hj : j = i
  · subst hj
    rw [Function.update_self] at hturn
    by_cases hpc : task.pc = .allocate
    · rw [if_pos hpc, Function.update_self]
      refine ⟨rfl, ?_⟩
      cases DTArecbe.step_kind (step_of_taskStep h) with
      | test _ _ _ begins => exact hpasses (begins hpc).1 (begins hpc).2
      | allocate _ ht =>
        obtain ⟨buf, ht⟩ := ht
        rw [hpc] at ht
        cases ht
      | read _ ht =>
        rw [hpc] at ht
        exact absurd ht id
      | throw _ ht | send _ _ ht | sendFail _ _ ht =>
        rw [hpc] at ht
        cases ht
    · rw [if_neg hpc]
      exact hs.tasks j (inTurn_of_taskStep h hturn hpc)
  · rw [Function.update_of_ne hj] at hturn
    obtain ⟨hbegan, hreceiver⟩ := hs.tasks j hturn
    refine ⟨?_, hreceiver⟩
    split
    · rwa [Function.update_of_ne hj]
    · exact hbegan

theorem NoneLost.taskDone {s : Leb n} (hs : s.NoneLost) {i : Fin n} {turn : Turn}
    {task : DTArecbe} {e : DTArecbe.Effect} (hpasses : s.LeavesBetweenTurns (.task i turn))
    (h : s.taskStep i turn = some (task, e)) : (s.taskDone i task e).NoneLost := by
  have htasks : ∀ j, InTurn ((s.taskDone i task e).tasks j).pc →
      (s.taskDone i task e).began j = (s.taskDone i task e).leaves ∧
        ((s.taskDone i task e).senders j).receiver = (s.taskDone i task e).leaves := by
    intro j hturn
    rw [taskDone_leaves, taskDone_senders]
    exact hs.tasks_taskDone hpasses h j hturn
  cases DTArecbe.step_kind (step_of_taskStep h) with
  | test | allocate | read | throw | sendFail =>
    exact ⟨htasks, hs.queue, hs.received, hs.account⟩
  | send message hpc hpc' =>
    obtain ⟨hbegan, hreceiver⟩ := hs.tasks i (by rw [hpc]; exact .inr trivial)
    refine ⟨htasks, ?_, hs.received, ?_⟩
    · intro fragment hmem
      rcases List.mem_append.mp hmem with hmem | hmem
      · exact hs.queue fragment hmem
      · rw [List.mem_singleton.mp hmem, taskDone_leaves]
        exact ⟨by simpa [hpc'] using hbegan, hreceiver⟩
    · simp only [Leb.taskDone, ← List.append_assoc]
      exact hs.account.append_right _

/-- A task that connects is not in a turn. -/
theorem NoneLost.connect {s t : Leb n} (hs : s.NoneLost) {i : Fin n} {late : Bool}
    (h : s.connect i late = some t) : t.NoneLost := by
  rw [Leb.connect] at h
  split at h
  · next hguard =>
    cases h
    refine ⟨fun j hturn => ?_, hs.queue, hs.received, hs.account⟩
    by_cases hj : j = i
    · rw [hj] at hturn
      simp only [hguard.1] at hturn
      simp [InTurn, DTArecbe.Pc.HoldsBuffer] at hturn
    · show _ ∧ (Function.update s.senders i _ j).receiver = s.leaves
      rw [Function.update_of_ne hj]
      exact hs.tasks j hturn
  · cases h

theorem NoneLost.step {s t : Leb n} (hs : s.NoneLost) (hcounted : s.Counted) {a : LebAction n}
    (hleaves : s.LeavesBetweenTurns a) (h : s.step a = some t) : t.NoneLost := by
  cases a with
  | setState state =>
    cases h
    exact ⟨hs.tasks, hs.queue, hs.received, hs.account⟩
  | task i turn =>
    obtain ⟨task, e, hstep, rfl⟩ := step_task.mp h
    exact hs.taskDone hleaves hstep
  | connect i late => exact hs.connect h
  | eb found stale =>
    obtain ⟨htasks, hqueue, hreceived, haccount⟩ := hs
    cases ebStep_kind h with
    | move pc => exact ⟨htasks, hqueue, hreceived, haccount⟩
    | leave hpc hexit =>
      -- nothing is in flight, and no task is about to take a buffer
      obtain ⟨hnone, hempty⟩ := hcounted.none_in_flight hexit.2
      refine ⟨?_, ?_, hreceived, haccount⟩
      · intro i hturn
        exact absurd hturn (not_or.mpr ⟨hleaves hpc hexit i, hnone i⟩)
      · intro fragment hmem
        rw [hempty] at hmem
        cases hmem
    | receive fragment eb hpc hmem =>
      refine ⟨htasks, fun f hf => hqueue f (List.mem_of_mem_erase hf), ?_, ?_⟩
      · intro p hp
        rcases List.mem_append.mp hp with hp | hp
        · exact hreceived p hp
        · rw [List.mem_singleton.mp hp]
          exact (hqueue fragment hmem).1
      · rw [List.map_append, List.map_singleton, List.append_assoc, List.singleton_append]
        exact haccount.trans ((List.perm_cons_erase hmem).append_left _)
    | free => exact ⟨htasks, hqueue, hreceived, haccount⟩
  | destroy fragment =>
    -- every fragment under way is on its way to the present receiver
    obtain ⟨hmem, hlt, -⟩ := step_destroy.mp h
    have := (hs.queue fragment hmem).2
    omega

/-- In every run in which the event builder leaves its loop between the turns of the tasks
only, and no task goes on with a sender whose receiver is closed, whoever else moves when: no
fragment is lost in any state reached. -/
theorem none_lost (frontEnds : Fin n → FrontEnd) (eb : DTeb) (actions : List (LebAction n))
    (s : Leb n) (hrun : Transition.run step (start frontEnds eb) actions = some s)
    (hleaves : Transition.Meets step LeavesBetweenTurns (start frontEnds eb) actions) :
    s.NoneLost := by
  refine (Transition.run_invariant_of_meets (I := fun s : Leb n => s.NoneLost ∧ s.Counted)
    ⟨?_, counted_start frontEnds eb⟩
    (fun s a t hs hc hstep => ⟨hs.1.step hs.2 hc hstep, hs.2.step hstep⟩) hrun hleaves).1
  constructor <;> simp [start]

/-- The task has seen `SM_RUNNING` but not counted its buffer when the run is stopped and the
event builder finds nothing in flight: the fragment is sent after it has left. -/
theorem fragment_after_leave :
    ¬ ∀ (n : ℕ) (frontEnds : Fin n → FrontEnd) (eb : DTeb) (actions : List (LebAction n))
      (s : Leb n), Transition.run step (start frontEnds eb) actions = some s → s.NoneLost := by
  intro h
  let turn : LebAction 1 := .task 0 ⟨.smInit, fun _ => 0, true, true, 0⟩
  have hlate := (h 1 oneFrontEnd (.start 999 1024 [1])
    [.setState .smRunning, .eb none id, turn, .connect 0 false, turn, .setState .smIdle,
      .eb none id, turn, turn, turn, turn] _ rfl).queue
  revert hlate
  decide

/-- The task has sent one record when the run is stopped and started again, and has not tested
`c_state` in between: its next fragment goes to the receiver that is closed. -/
example :
    let turn : LebAction 1 := .task 0 ⟨.smInit, fun _ => 0, true, true, 0⟩
    let idle : LebAction 1 := .eb none id
    let frontEnd : FrontEnd := ⟨1, false, 16, ⟨[.data 1 [7, 0, 0, 0, 0, 0, 0, 0, 0, 0, 5],
      .data 1 [7, 0, 0, 0, 0, 0, 0, 0, 0, 0, 6]], false⟩⟩
    (Transition.run step (start (fun _ => frontEnd) (.start 999 1024 [1]))
      [.setState .smRunning, idle, turn, .connect 0 false, turn, turn, turn, turn, turn, idle,
        .eb (some (0, 1)) id, idle, .setState .smIdle, idle, idle, .setState .smRunning, idle,
        turn, turn, turn, turn, turn]).map (fun s => s.queue.map fun fragment =>
          (fragment.began, fragment.sender.receiver, s.leaves)) = some [(1, 0, 1)] := by
  decide

theorem none_lost_one_fragment :
    ∃ s, Transition.run step (start oneFrontEnd (.start 999 1024 [1]))
      (oneFragment ++ [.eb none id]) = some s ∧ s.leaves = 1 ∧ s.NoneLost := by
  refine ⟨_, rfl, rfl, ?_⟩
  exact none_lost oneFrontEnd (.start 999 1024 [1]) (oneFragment ++ [.eb none id]) _ rfl
    (by decide)

end Leb

end LebStudy
