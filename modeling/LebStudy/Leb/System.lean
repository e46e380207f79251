import LebStudy.EventBuilder.Buffer
import LebStudy.FrontEnd.DTArecbe
import Mathlib.Logic.Function.Basic

/-!
# The tasks of `leb` together

Any number of front-end tasks, the event builder and the thread that sets `c_state`
share `c_state`, `g_avant_depth` and the zmq pipes between the tasks. Their steps
interleave in any order. A step of the event builder is a test of its exit
condition, a receive, or the end of a turn of its loop, at which the message is
destroyed and `buf_free` takes its buffer out of the count.

Each activation of `DTArecbe::st_running` connects a sender of its own, and each of
`DTeb::st_running` binds a receiver of its own. A pipe outlives its sender, and what is in
it keeps its order; between the pipes of a receiver there is no order. What is on its way to
a receiver that has been closed is destroyed, and no later receiver gets it.
-/

namespace LebStudy

/-- A front-end as the node list gives it, and the connection that its task gets. -/
structure FrontEnd where
  id : ℕ
  isDummy : Bool
  bufsize : ℕ
  socket : Socket
  deriving DecidableEq, Repr

def FrontEnd.task (f : FrontEnd) : DTArecbe := .start f.id f.isDummy f.bufsize f.socket

/-- Where the thread of the event builder stands. -/
inductive EbPc
  /-- before the `switch (c_state)` of `state_machine` -/
  | stateMachine
  /-- before `if ((c_state != SM_RUNNING) && (g_avant_depth <= 0)) break` -/
  | loopTest
  | recv
  /-- with the message in hand, whose buffer is freed at the end of the turn -/
  | holding
  /-- before `if (c_state == SM_EXIT) break` of `state_machine` -/
  | exitTest
  | ended
  deriving DecidableEq, Repr

/-- The event builder is in its loop. -/
def EbPc.InLoop : EbPc → Prop
  | .loopTest | .recv | .holding => True
  | .stateMachine | .exitTest | .ended => False

instance (pc : EbPc) : Decidable pc.InLoop := by
  unfold EbPc.InLoop
  split <;> infer_instance

/-- The `sender` of an activation of `st_running`, in `DTArecbe` or in `DTavant`. The receiver that
it is connected to is known by how often the task that binds it had left its loop before. -/
structure Sender where
  activation : ℕ
  receiver : ℕ
  deriving DecidableEq, Repr

/-- A message that a task has sent. `began` is history: how often the event builder had left
its loop when the task began the turn that sent it. -/
structure Fragment (n : ℕ) where
  task : Fin n
  began : ℕ
  sender : Sender
  message : Message
  deriving DecidableEq, Repr

/-- The program. `senders` are those of the activations that the tasks are in, or were in last,
and `queue` is what is in all pipes, in the order in which it was sent. `leaves` is how often
the event builder has left its loop. The other fields from `began` on are history: `began` as in
`Fragment`, of the turn that each task is in, how many buffers were left behind, and the
fragments sent and received, these with `leaves` at the time. -/
structure Leb (n : ℕ) where
  cState : RunState
  gAvantDepth : ℤ
  tasks : Fin n → DTArecbe
  senders : Fin n → Sender
  connected : Fin n → Bool
  queue : List (Fragment n)
  ebPc : EbPc
  eb : DTeb
  leaves : ℕ
  began : Fin n → ℕ
  leaked : ℕ
  sent : List (Fragment n)
  received : List (Fragment n × ℕ)

/-- Who takes a step. The value of `c_state` in the turn of a task is that of the program. -/
inductive LebAction (n : ℕ)
  | setState (state : RunState)
  | task (i : Fin n) (turn : Turn)
  /-- `sender.connect` at the start of `st_running`; `late` if it still gets at the receiver that
  the event builder has closed last. -/
  | connect (i : Fin n) (late : Bool)
  /-- `found` is the pipe that `recv` finds a message in, if it finds one: the task and the
  activation that has connected it. -/
  | eb (found : Option (Fin n × ℕ)) (stale : ℕ → ℕ)
  /-- A message to a receiver that is closed is destroyed. -/
  | destroy (fragment : Fragment n)

namespace Leb

variable {n : ℕ}

/-- The tasks are initialised and wait at their first test of `c_state`. -/
def start (frontEnds : Fin n → FrontEnd) (eb : DTeb) : Leb n where
  cState := .smInit
  gAvantDepth := 0
  tasks i := (frontEnds i).task
  senders _ := ⟨0, 0⟩
  connected _ := false
  queue := []
  ebPc := .stateMachine
  eb := eb
  leaves := 0
  began _ := 0
  leaked := 0
  sent := []
  received := []

/-- The step of task `i` as the program sees it. In its loop the task has connected its sender. -/
def taskStep (s : Leb n) (i : Fin n) (turn : Turn) : Option (DTArecbe × DTArecbe.Effect) :=
  if (s.tasks i).pc = .loopTest ∧ s.connected i = false then none
  else (s.tasks i).step { turn with cState := s.cState }

/-- What a step of task `i` does to what the tasks share. -/
def taskDone (s : Leb n) (i : Fin n) (task : DTArecbe) (e : DTArecbe.Effect) : Leb n :=
  let s := { s with
    tasks := Function.update s.tasks i task
    -- `sender` is local to `st_running`
    connected := if task.pc = .exitTest then Function.update s.connected i false else s.connected
    began := if task.pc = .allocate then Function.update s.began i s.leaves else s.began }
  match e with
  | .nothing => s
  | .allocated => { s with gAvantDepth := s.gAvantDepth + 1 }
  | .sent message =>
    let fragment := ⟨i, s.began i, s.senders i, message⟩
    { s with queue := s.queue ++ [fragment], sent := s.sent ++ [fragment] }
  | .released => { s with gAvantDepth := s.gAvantDepth - 1 }
  | .leaked => { s with leaked := s.leaked + 1 }

/-- The sender of task `i` is made and connected. Where no receiver is bound, zmq keeps what is
sent for the next one. -/
def connect (s : Leb n) (i : Fin n) (late : Bool) : Option (Leb n) :=
  if (s.tasks i).pc = .loopTest ∧ s.connected i = false ∧
      (late = true → ¬ s.ebPc.InLoop ∧ 0 < s.leaves) then
    let sender : Sender :=
      ⟨(s.senders i).activation + 1, if late then s.leaves - 1 else s.leaves⟩
    some { s with
      senders := Function.update s.senders i sender
      connected := Function.update s.connected i true }
  else none

/-- The event builder's exit condition. -/
def ExitCondition (s : Leb n) : Prop := s.cState ≠ .smRunning ∧ s.gAvantDepth ≤ 0

instance (s : Leb n) : Decidable s.ExitCondition := inferInstanceAs (Decidable (_ ∧ _))

/-- The message that `recv` finds: the first in a pipe to the present receiver. -/
def finds (s : Leb n) (found : Option (Fin n × ℕ)) : Option (Fragment n) :=
  found.bind fun pipe => s.queue.find? fun fragment =>
    fragment.task = pipe.1 ∧ fragment.sender = ⟨pipe.2, s.leaves⟩

/-- `receiver.recv(&message, ZMQ_NOBLOCK)` and, with a message, the work on it. -/
def receive (s : Leb n) (found : Option (Fin n × ℕ)) (stale : ℕ → ℕ) : Leb n :=
  match s.finds found with
  | some fragment =>
    { s with
      ebPc := .holding
      queue := s.queue.erase fragment
      eb := s.eb.step ⟨fragment.message, stale⟩
      received := s.received ++ [(fragment, s.leaves)] }
  | none => { s with ebPc := .loopTest }

/-- One step of the event builder; none where its thread has ended. -/
def ebStep (s : Leb n) (found : Option (Fin n × ℕ)) (stale : ℕ → ℕ) : Option (Leb n) :=
  match s.ebPc with
  | .stateMachine =>
    if s.cState = .smRunning then some { s with ebPc := .loopTest }
    else some { s with ebPc := .exitTest }
  | .loopTest =>
    if s.ExitCondition then some { s with ebPc := .exitTest, leaves := s.leaves + 1 }
    else some { s with ebPc := .recv }
  | .recv => some (s.receive found stale)
  | .holding => some { s with ebPc := .loopTest, gAvantDepth := s.gAvantDepth - 1 }
  | .exitTest =>
    if s.cState = .smExit then some { s with ebPc := .ended }
    else some { s with ebPc := .stateMachine }
  | .ended => none

def step (s : Leb n) : LebAction n → Option (Leb n)
  | .setState state => some { s with cState := state }
  | .task i turn => (s.taskStep i turn).map fun (task, e) => s.taskDone i task e
  | .connect i late => s.connect i late
  | .eb found stale => s.ebStep found stale
  | .destroy fragment =>
    if fragment ∈ s.queue ∧ fragment.sender.receiver < s.leaves then
      some { s with queue := s.queue.erase fragment, gAvantDepth := s.gAvantDepth - 1 }
    else none

/-! ### What a step can do -/

/-- A step of a task in the program is a step of the task. -/
theorem step_of_taskStep {s : Leb n} {i : Fin n} {turn : Turn} {task : DTArecbe}
    {e : DTArecbe.Effect} (h : s.taskStep i turn = some (task, e)) :
    (s.tasks i).step { turn with cState := s.cState } = some (task, e) := by
  rw [taskStep] at h
  split at h
  · cases h
  · exact h

/-- What is found is in a pipe to the present receiver, and the first there. -/
theorem finds_eq_some {s : Leb n} {found : Option (Fin n × ℕ)} {fragment : Fragment n}
    (h : s.finds found = some fragment) :
    fragment ∈ s.queue ∧ fragment.sender.receiver = s.leaves ∧
      s.queue.find? (fun f => f.task = fragment.task ∧ f.sender = fragment.sender) =
        some fragment := by
  obtain ⟨⟨i, activation⟩, -, hfind⟩ := Option.bind_eq_some_iff.mp h
  have hpipe : fragment.task = i ∧ fragment.sender = ⟨activation, s.leaves⟩ := by
    simpa using List.find?_some hfind
  refine ⟨List.mem_of_find?_eq_some hfind, by rw [hpipe.2], ?_⟩
  rw [hpipe.1, hpipe.2]
  exact hfind

/-- What a step of the event builder does. -/
inductive EbStepKind (s : Leb n) : Leb n → Prop
  /-- a test that stays in the loop or outside of it, or a receive that finds nothing -/
  | move (pc : EbPc) (hs : s.ebPc ≠ .holding) (ht : pc ≠ .holding) :
      EbStepKind s { s with ebPc := pc }
  | leave (hs : s.ebPc = .loopTest) (exit : s.ExitCondition) :
      EbStepKind s { s with ebPc := .exitTest, leaves := s.leaves + 1 }
  | receive (fragment : Fragment n) (eb : DTeb) (hs : s.ebPc = .recv)
      (hmem : fragment ∈ s.queue) (present : fragment.sender.receiver = s.leaves) :
      EbStepKind s { s with
        ebPc := .holding
        queue := s.queue.erase fragment
        eb := eb
        received := s.received ++ [(fragment, s.leaves)] }
  | free (hs : s.ebPc = .holding) :
      EbStepKind s { s with ebPc := .loopTest, gAvantDepth := s.gAvantDepth - 1 }

theorem ebStep_kind {s t : Leb n} {found : Option (Fin n × ℕ)} {stale : ℕ → ℕ}
    (h : s.ebStep found stale = some t) : EbStepKind s t := by
  rw [ebStep] at h
  match hpc : s.ebPc, h with
  | .stateMachine, h | .exitTest, h =>
    simp only at h
    split at h <;> cases h <;> exact .move _ (by simp [hpc]) (by simp)
  | .loopTest, h =>
    simp only at h
    split at h
    · next hexit =>
      cases h
      exact .leave hpc hexit
    · cases h
      exact .move _ (by simp [hpc]) (by simp)
  | .recv, h =>
    cases h
    unfold receive
    split
    · next fragment hfound =>
      obtain ⟨hmem, hpresent, -⟩ := finds_eq_some hfound
      exact .receive fragment _ hpc hmem hpresent
    · exact .move _ (by simp [hpc]) (by simp)
  | .holding, h =>
    cases h
    exact .free hpc

/-- The step relation, action by action. -/
theorem step_task {s t : Leb n} {i : Fin n} {turn : Turn} :
    s.step (.task i turn) = some t ↔
      ∃ task e, s.taskStep i turn = some (task, e) ∧ t = s.taskDone i task e := by
  simp only [step, Option.map_eq_some_iff, Prod.exists]
  exact exists₂_congr fun _ _ => and_congr_right fun _ => eq_comm

/-- What connecting changes, and to which receiver. -/
theorem step_connect {s t : Leb n} {i : Fin n} {late : Bool}
    (h : s.step (.connect i late) = some t) :
    ∃ receiver ≤ s.leaves, t = { s with
      senders := Function.update s.senders i ⟨(s.senders i).activation + 1, receiver⟩
      connected := Function.update s.connected i true } := by
  rw [step, connect] at h
  split at h
  · cases h
    refine ⟨_, ?_, rfl⟩
    split <;> omega
  · cases h

theorem step_destroy {s t : Leb n} {fragment : Fragment n} :
    s.step (.destroy fragment) = some t ↔
      fragment ∈ s.queue ∧ fragment.sender.receiver < s.leaves ∧
      t = { s with queue := s.queue.erase fragment, gAvantDepth := s.gAvantDepth - 1 } := by
  rw [step]
  split
  · next h => simp [h, eq_comm]
  · next h => simp_all

/-- No pipe leads further than to the receiver that is bound, or will be bound next. -/
structure Wired (s : Leb n) : Prop where
  senders : ∀ i, (s.senders i).receiver ≤ s.leaves
  queue : ∀ fragment ∈ s.queue, fragment.sender.receiver ≤ s.leaves

theorem wired_start (frontEnds : Fin n → FrontEnd) (eb : DTeb) : (start frontEnds eb).Wired := by
  constructor <;> simp [start]

theorem Wired.taskDone {s : Leb n} (hs : s.Wired) (i : Fin n) (task : DTArecbe)
    (e : DTArecbe.Effect) : (s.taskDone i task e).Wired := by
  cases e with
  | nothing | allocated | released | leaked => exact ⟨hs.senders, hs.queue⟩
  | sent message =>
    refine ⟨hs.senders, List.forall_mem_append.mpr ⟨hs.queue, fun f hf => ?_⟩⟩
    rw [List.mem_singleton.mp hf]
    exact hs.senders i

theorem Wired.step {s t : Leb n} (hs : s.Wired) {a : LebAction n} (h : s.step a = some t) :
    t.Wired := by
  cases a with
  | setState state =>
    cases h
    exact ⟨hs.senders, hs.queue⟩
  | task i turn =>
    obtain ⟨task, e, -, rfl⟩ := step_task.mp h
    exact hs.taskDone i task e
  | connect i late =>
    obtain ⟨receiver, hle, rfl⟩ := step_connect h
    refine ⟨fun j => ?_, hs.queue⟩
    show (Function.update s.senders i _ j).receiver ≤ s.leaves
    by_cases hj : j = i
    · rw [hj, Function.update_self]
      exact hle
    · rw [Function.update_of_ne hj]
      exact hs.senders j
  | eb found stale =>
    cases ebStep_kind h with
    | move | free => exact ⟨hs.senders, hs.queue⟩
    | leave =>
      exact ⟨fun i => (hs.senders i).trans (Nat.le_succ _),
        fun f hf => (hs.queue f hf).trans (Nat.le_succ _)⟩
    | receive => exact ⟨hs.senders, fun f hf => hs.queue f (List.mem_of_mem_erase hf)⟩
  | destroy fragment =>
    obtain ⟨-, -, rfl⟩ := step_destroy.mp h
    exact ⟨hs.senders, fun f hf => hs.queue f (List.mem_of_mem_erase hf)⟩

end Leb

end LebStudy
