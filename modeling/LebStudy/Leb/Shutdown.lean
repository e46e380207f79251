import LebStudy.Leb.Deliveries
import LebStudy.Leb.InFlight
import LebStudy.Kol.Input
import LebStudy.Lib.Settling

/-!
# How `leb` ends

Behind its command loop `main` sets `SM_EXIT`, for good, and joins the threads. From then on each
task has a few steps left, and the event builder what is under way. When all of this is done, a
thread that has not ended is in a read or a send that does not return, or it is the event builder,
which waits in its loop for a count that does not get back to zero: a task is blocked with a
buffer in hand, or some read has thrown. Once that has happened to a running event builder, no
command gets it out of its loop, and `main` does not end.

A send blocks while the pipe is full or leads nowhere: that of the event builder without an
`ebreceiver`, that of a task when the receiver is closed. Which sends do so for good is a
parameter.
-/

namespace LebStudy

open Transition

namespace DTArecbe

/-- How many steps a task has left under `SM_EXIT`, if it has or has not `connected` its sender;
a message it sends makes two for the event builder. -/
def Pc.work (connected : Bool) : Pc → ℕ
  | .ended | .overrun => 0
  | .exitTest => 1
  | .stateMachine => 2
  | .loopTest => if connected then 2 else 3
  | .send _ => 6
  | .readBody _ _ _ => 7
  | .readHeader _ => 8
  | .allocate => 9

/-- The task is about to send, or sending. -/
def Pc.Sends : Pc → Prop
  | .send _ => True
  | .stateMachine | .loopTest | .allocate | .readHeader _ | .readBody _ _ _ | .exitTest | .ended
  | .overrun => False

instance : ∀ pc : Pc, Decidable pc.Sends
  | .send _ => .isTrue trivial
  | .stateMachine | .loopTest | .allocate | .readHeader _ | .readBody _ _ _ | .exitTest | .ended
  | .overrun => .isFalse id

/-- The task has a buffer in hand and takes no step any more: a read blocks, or it has written
past the end of its buffer. -/
def Stuck (s : DTArecbe) : Prop := s.pc.HoldsBuffer ∧ ∀ turn, s.step turn = none

/-- The messages that a step hands over. -/
def Effect.messages : Effect → ℕ
  | .sent _ => 1
  | .nothing | .allocated | .released | .leaked => 0

/-- Behind the body the message is sent, or the turn is over. -/
theorem readBodyStep_pc {s t : DTArecbe} {header : RecbeHeader} {buf : List UInt8} {nread : ℕ}
    {e : Effect} (h : s.readBodyStep header buf nread = some (t, e)) (connected : Bool) :
    t.pc.work connected ≤ 6 := by
  simp only [readBodyStep] at h
  split at h
  · split at h <;> cases h <;> simp [Pc.work, bodyDone]
  · split at h
    · cases h
    · split at h
      · cases h
        simp [Pc.work]
      · split at h <;> cases h <;> simp [Pc.work, bodyDone]

theorem Pc.MidRecord.work_le {pc : Pc} (h : pc.MidRecord) (connected : Bool) :
    pc.work connected ≤ 7 := by
  cases pc with
  | readBody | send | overrun => simp [Pc.work]
  | stateMachine | loopTest | allocate | readHeader | exitTest | ended => exact absurd h id

/-- A step under `SM_EXIT` lowers the work left. -/
theorem work_step {s t : DTArecbe} {turn : Turn} {e : Effect} (hexit : turn.cState = .smExit)
    (h : s.step turn = some (t, e)) (before after : Bool) :
    1 + t.pc.work after + 2 * e.messages ≤ s.pc.work before := by
  rw [step] at h
  cases hpc : s.pc with
  | ended | overrun =>
    rw [hpc] at h
    cases h
  | stateMachine | loopTest | exitTest =>
    rw [hpc, hexit] at h
    cases h
    cases before <;> simp [Pc.work, Effect.messages]
  | allocate | send message =>
    simp only [hpc] at h
    split at h <;> cases h <;> cases after <;> simp [Pc.work, Effect.messages]
  | readHeader buf =>
    rw [hpc] at h
    obtain ⟨-, -, ⟨ht, rfl⟩ | ⟨ht, rfl⟩, -⟩ := readHeaderStep_kind h
    · have hle := ht.work_le after
      show 1 + t.pc.work after + 2 * 0 ≤ 8
      omega
    · simp [ht, Pc.work, Effect.messages]
  | readBody header buf nread =>
    rw [hpc] at h
    have hle := readBodyStep_pc h after
    obtain ⟨-, -, ⟨-, rfl⟩ | ⟨-, rfl⟩, -⟩ := readBodyStep_kind h <;>
      · show 1 + t.pc.work after + 2 * 0 ≤ 7
        omega

/-- A task that takes no step has ended or is stuck. -/
theorem ended_or_stuck {s : DTArecbe} (h : ∀ turn, turn.cState = .smExit → s.step turn = none) :
    s.pc = .ended ∨ s.Stuck := by
  cases hpc : s.pc with
  | ended => exact .inl rfl
  | overrun => exact .inr ⟨by rw [hpc]; trivial, fun turn => by rw [step, hpc]⟩
  | readHeader | readBody =>
    refine .inr ⟨by rw [hpc]; trivial, fun turn => ?_⟩
    have hnone := h { turn with cState := .smExit } rfl
    rw [step, hpc] at hnone ⊢
    exact hnone
  | stateMachine | loopTest | exitTest | allocate | send =>
    have hnone := h ⟨.smExit, fun _ => 0, true, true, 0⟩ rfl
    rw [step, hpc] at hnone
    simp at hnone

/-! ### On a connection that is closed behind the stream -/

/-- A step leaves the connection alone, or makes one read. -/
theorem step_tcp {s t : DTArecbe} {turn : Turn} {e : Effect} (h : s.step turn = some (t, e)) :
    t.tcp = s.tcp ∨ ∃ k r, s.tcp.read k = some r ∧ t.tcp = r.tcp := by
  rw [step] at h
  cases hpc : s.pc with
  | ended | overrun =>
    rw [hpc] at h
    cases h
  | stateMachine | loopTest | exitTest | allocate | send _ =>
    simp only [hpc] at h
    split at h <;> cases h <;> exact .inl rfl
  | readHeader buf =>
    simp only [hpc, readHeaderStep] at h
    split at h
    · split at h <;> cases h <;> exact .inl rfl
    · split at h
      · cases h
      · next r hread =>
        right
        refine ⟨_, r, hread, ?_⟩
        split at h
        · cases h
          rfl
        · split at h <;> cases h <;> rfl
  | readBody header buf nread =>
    simp only [hpc, readBodyStep] at h
    split at h
    · split at h <;> cases h <;> exact .inl rfl
    · split at h
      · cases h
      · next r hread =>
        right
        refine ⟨_, r, hread, ?_⟩
        split at h
        · cases h
          rfl
        · split at h <;> cases h <;> rfl

/-- No call of `recv` fails, and the peer has closed the connection. -/
structure HungUp (s : DTArecbe) : Prop where
  plain : s.tcp.Plain
  closed : s.tcp.socket.closed = true

theorem HungUp.step {s t : DTArecbe} {turn : Turn} {e : Effect} (hs : s.HungUp)
    (h : s.step turn = some (t, e)) : t.HungUp ∧ e ≠ .leaked := by
  obtain ⟨hplain, hthrow⟩ := (step_frame h).2 hs.plain
  refine ⟨⟨hplain, ?_⟩, hthrow⟩
  obtain htcp | ⟨k, r, hread, htcp⟩ := step_tcp h
  · rw [htcp]
    exact hs.closed
  · obtain ⟨-, -, -, -, hclosed, -⟩ := TcpBuffer.read_spec hs.plain hread
    rw [htcp, hclosed]
    exact hs.closed

theorem HungUp.read_isSome {s : DTArecbe} (hs : s.HungUp) (len : ℕ) :
    (s.tcp.read len).isSome := by
  have hrbuf : s.tcp.rbuf.length = 0 := by rw [hs.plain.rbuf, List.length_nil]
  rw [TcpBuffer.read]
  simp only [hrbuf, if_true]
  split
  · rfl
  · rw [Option.isSome_map]
    apply TcpBuffer.recvLoop_isSome
    · exact hs.plain.clean
    · exact hs.closed

/-- No read blocks. -/
theorem HungUp.overrun_of_stuck {s : DTArecbe} (hs : s.HungUp) (h : s.Stuck) :
    s.pc = .overrun := by
  obtain ⟨hholds, hnone⟩ := h
  have hnone := hnone ⟨.smExit, fun _ => 0, true, true, 0⟩
  rw [DTArecbe.step] at hnone
  cases hpc : s.pc with
  | overrun => rfl
  | stateMachine | loopTest | allocate | exitTest | ended =>
    rw [hpc] at hholds
    exact absurd hholds id
  | send message =>
    rw [hpc] at hnone
    simp at hnone
  | readHeader buf =>
    rw [hpc] at hnone
    obtain ⟨r, hread⟩ := Option.isSome_iff_exists.mp (hs.read_isSome RecbeHeader.size)
    simp only [readHeaderStep, hread] at hnone
    split at hnone
    · split at hnone <;> cases hnone
    · split at hnone
      · cases hnone
      · split at hnone <;> cases hnone
  | readBody header buf nread =>
    rw [hpc] at hnone
    obtain ⟨r, hread⟩ := Option.isSome_iff_exists.mp (hs.read_isSome header.len.toNat)
    simp only [readBodyStep, hread] at hnone
    split at hnone
    · split at hnone <;> cases hnone
    · split at hnone
      · cases hnone
      · split at hnone <;> cases hnone

end DTArecbe

/-- How many steps the event builder has left, apart from what is under way to it. -/
def EbPc.work : EbPc → ℕ
  | .ended => 0
  | .exitTest => 1
  | .stateMachine => 2
  | .loopTest | .recv => 3
  | .holding => 4

/-- The threads whose sends do not return any more. -/
structure Blocks (n : ℕ) where
  eb : Bool
  task : Fin n → Bool

/-- Every send returns. -/
def Blocks.none (n : ℕ) : Blocks n := ⟨false, fun _ => false⟩

namespace Leb

variable {n : ℕ}

/-- The steps of the threads. A task whose send does not return stays where it sends; the event
builder sends in its turn, which it does not get to the end of. -/
def threadStep (blocks : Blocks n) (s : Leb n) : LebAction n → Option (Leb n)
  | .setState _ => none
  | .task i turn =>
    if blocks.task i = true ∧ (s.tasks i).pc.Sends then none else s.step (.task i turn)
  | .connect i late => s.step (.connect i late)
  | .eb found stale =>
    if blocks.eb = true ∧ s.ebPc = .holding then none else s.step (.eb found stale)
  | .destroy fragment => s.step (.destroy fragment)

theorem threadStep_eq_some {blocks : Blocks n} {s t : Leb n} {a : LebAction n}
    (h : s.threadStep blocks a = some t) : s.step a = some t ∧ ∀ state, a ≠ .setState state := by
  cases a with
  | setState state => cases h
  | task i turn | eb found stale =>
    simp only [threadStep] at h
    split at h
    · cases h
    · exact ⟨h, fun state hstate => by cases hstate⟩
  | connect i late | destroy fragment => exact ⟨h, fun state hstate => by cases hstate⟩

/-- All steps but those with which the event builder waits: a test that stays in its loop, and a
receive that finds nothing. -/
def Busy (s : Leb n) : LebAction n → Prop
  | .setState _ | .task _ _ | .connect _ _ | .destroy _ => True
  | .eb found _ =>
    ¬ (s.ebPc = .loopTest ∧ ¬ s.ExitCondition) ∧ ¬ (s.ebPc = .recv ∧ s.receives found = none)

instance : ∀ (s : Leb n) (a : LebAction n), Decidable (s.Busy a)
  | _, .setState _ | _, .task _ _ | _, .connect _ _ | _, .destroy _ => .isTrue trivial
  | s, .eb found _ => inferInstanceAs (Decidable (¬ (s.ebPc = .loopTest ∧ ¬ s.ExitCondition) ∧
      ¬ (s.ebPc = .recv ∧ s.receives found = none)))

/-- The work that is left under `SM_EXIT`. -/
def work (s : Leb n) : ℕ :=
  (∑ i, (s.tasks i).pc.work (s.connected i)) + 2 * s.queue.length + s.ebPc.work

/-- Of the work of the tasks, a step changes that of the one that takes it. -/
theorem sum_work (tasks tasks' : Fin n → DTArecbe) (connected connected' : Fin n → Bool)
    (i : Fin n) (htasks : ∀ j, j ≠ i → tasks' j = tasks j)
    (hconnected : ∀ j, j ≠ i → connected' j = connected j) :
    (∑ j, (tasks' j).pc.work (connected' j)) + (tasks i).pc.work (connected i) =
      (∑ j, (tasks j).pc.work (connected j)) + (tasks' i).pc.work (connected' i) := by
  have hparties : (fun j => (tasks' j, connected' j)) =
      Function.update (fun j => (tasks j, connected j)) i (tasks' i, connected' i) := by
    funext j
    by_cases hj : j = i
    · rw [hj, Function.update_self]
    · rw [Function.update_of_ne hj, htasks j hj, hconnected j hj]
  have hsum := sum_update (fun party : DTArecbe × Bool => party.1.pc.work party.2)
    (fun j => (tasks j, connected j)) i (tasks' i, connected' i)
  rw [← hparties] at hsum
  exact hsum

theorem taskDone_connected (s : Leb n) (i : Fin n) (task : DTArecbe) (e : DTArecbe.Effect)
    {j : Fin n} (hj : j ≠ i) : (s.taskDone i task e).connected j = s.connected j := by
  have hupdate : (s.taskDone i task e).connected =
      if task.pc = .exitTest then Function.update s.connected i false else s.connected := by
    cases e <;> rfl
  rw [hupdate]
  split
  · rw [Function.update_of_ne hj]
  · rfl

/-- A step of a task under `SM_EXIT`. -/
theorem work_taskDone {s : Leb n} {i : Fin n} {turn : Turn} {task : DTArecbe}
    {e : DTArecbe.Effect} (hexit : s.cState = .smExit)
    (h : s.taskStep i turn = some (task, e)) :
    (s.taskDone i task e).cState = .smExit ∧ 1 + (s.taskDone i task e).work ≤ s.work := by
  have hsum := sum_work s.tasks (s.taskDone i task e).tasks s.connected
    (s.taskDone i task e).connected i
    (fun j hj => by rw [taskDone_tasks, Function.update_of_ne hj])
    (fun j hj => taskDone_connected s i task e hj)
  have hself : (s.taskDone i task e).tasks i = task := by
    rw [taskDone_tasks, Function.update_self]
  have hwork := DTArecbe.work_step hexit (step_of_taskStep h) (s.connected i)
    ((s.taskDone i task e).connected i)
  rw [hself] at hsum
  rw [work, work]
  cases e <;>
    simp only [Leb.taskDone, DTArecbe.Effect.messages, List.length_append,
      List.length_singleton] at hwork hsum ⊢ <;>
    exact ⟨hexit, by omega⟩

/-- A task that connects has only its test of `c_state` left. -/
theorem work_connect {s t : Leb n} {i : Fin n} {late : Bool} (h : s.connect i late = some t) :
    t.cState = s.cState ∧ 1 + t.work ≤ s.work := by
  rw [connect] at h
  split at h
  · next hguard =>
    cases h
    have hsum := sum_work s.tasks s.tasks s.connected (Function.update s.connected i true) i
      (fun _ _ => rfl)
      (fun j hj => Function.update_of_ne hj _ _)
    have hbefore : (s.tasks i).pc.work (s.connected i) = 3 := by
      rw [hguard.1, hguard.2.1]
      rfl
    have hafter : (s.tasks i).pc.work true = 2 := by
      rw [hguard.1]
      rfl
    rw [Function.update_self, hbefore, hafter] at hsum
    simp only [work]
    exact ⟨trivial, by omega⟩
  · cases h

/-- A step of the event builder under `SM_EXIT`. -/
theorem work_ebStep {s t : Leb n} {found : Option (Fin n × ℕ)} {stale : ℕ → ℕ}
    (hexit : s.cState = .smExit) (h : s.ebStep found stale = some t) :
    t.cState = .smExit ∧ (if s.Busy (.eb found stale) then 1 else 0) + t.work ≤ s.work := by
  have hone : (if s.Busy (.eb found stale) then 1 else 0) ≤ 1 := by split <;> omega
  rw [ebStep] at h
  cases hpc : s.ebPc with
  | stateMachine | holding | exitTest =>
    simp only [hpc, hexit, reduceCtorEq, if_true, if_false] at h
    cases h
    simp only [work, hpc, EbPc.work]
    exact ⟨trivial, by omega⟩
  | loopTest =>
    simp only [hpc] at h
    split at h
    · cases h
      simp only [work, hpc, EbPc.work]
      exact ⟨hexit, by omega⟩
    · next hstays =>
      have hidle : ¬ s.Busy (.eb found stale) := fun hbusy => hbusy.1 ⟨hpc, hstays⟩
      cases h
      rw [if_neg hidle]
      simp only [work, hpc, EbPc.work]
      exact ⟨hexit, by omega⟩
  | recv =>
    simp only [hpc] at h
    cases h
    rw [receive]
    split
    · next fragment hfinds =>
      have hlen := (List.perm_cons_erase (finds_eq_some hfinds).1).length_eq
      simp only [List.length_cons] at hlen
      simp only [work, hpc, EbPc.work]
      exact ⟨hexit, by omega⟩
    · next hnone =>
      have hidle : ¬ s.Busy (.eb found stale) := by
        intro hbusy
        apply hbusy.2
        rw [receives, if_pos hpc]
        exact ⟨hpc, hnone⟩
      rw [if_neg hidle]
      simp only [work, hpc, EbPc.work]
      exact ⟨hexit, by omega⟩
  | ended =>
    simp only [hpc] at h
    cases h

/-- `SM_EXIT` stays, and busy steps lower the work that is left. -/
theorem work_threadStep {blocks : Blocks n} {s t : Leb n} {a : LebAction n}
    (hexit : s.cState = .smExit) (h : s.threadStep blocks a = some t) :
    t.cState = .smExit ∧ (if s.Busy a then 1 else 0) + t.work ≤ s.work := by
  obtain ⟨h, hthread⟩ := threadStep_eq_some h
  cases a with
  | setState state => exact absurd rfl (hthread state)
  | task i turn =>
    obtain ⟨task, e, hstep, rfl⟩ := step_task.mp h
    exact work_taskDone hexit hstep
  | connect i late =>
    obtain ⟨hstate, hwork⟩ := work_connect h
    exact ⟨hstate.trans hexit, hwork⟩
  | destroy fragment =>
    obtain ⟨hmem, -, rfl⟩ := step_destroy.mp h
    have hbusy : s.Busy (.destroy fragment) := trivial
    have hlen := (List.perm_cons_erase hmem).length_eq
    rw [if_pos hbusy, work, work]
    simp only [List.length_cons] at hlen ⊢
    exact ⟨hexit, by omega⟩
  | eb found stale => exact work_ebStep hexit h

/-! ### When all is done -/

/-- No thread does anything any more but wait, in its loop or in a send. -/
def AtRest (blocks : Blocks n) (s : Leb n) : Prop := Settled (threadStep blocks) Busy s

/-- Threads that have ended are at rest. -/
theorem atRest_of_ended {blocks : Blocks n} {s : Leb n} (heb : s.ebPc = .ended)
    (htasks : ∀ i, (s.tasks i).pc = .ended) (hqueue : s.queue = []) : s.AtRest blocks := by
  have hnone : ∀ a, s.step a = none ∨ ∃ state, a = .setState state := by
    intro a
    cases a with
    | setState state => exact .inr ⟨state, rfl⟩
    | task i turn => exact .inl (by simp [step, taskStep, DTArecbe.step, htasks])
    | connect i late => exact .inl (by simp [step, connect, htasks])
    | eb found stale => exact .inl (by simp [step, ebStep, heb])
    | destroy fragment => exact .inl (by simp [step, hqueue])
  have hthread : ∀ a t, s.threadStep blocks a ≠ some t := by
    intro a t h
    obtain ⟨hstep, hstate⟩ := threadStep_eq_some h
    rcases hnone a with hnone | ⟨state, rfl⟩
    · rw [hnone] at hstep
      cases hstep
    · exact hstate state rfl
  intro as t hrun a u hstep
  cases as with
  | nil =>
    cases hrun
    exact absurd hstep (hthread a u)
  | cons b bs =>
    rw [run_cons] at hrun
    obtain ⟨v, hv, -⟩ := Option.bind_eq_some_iff.mp hrun
    exact absurd hv (hthread b v)

section Rest

variable {blocks : Blocks n} {s : Leb n}

/-- At rest nothing is on its way to a receiver that is closed. -/
theorem present_of_atRest (hs : s.AtRest blocks) (hwired : s.Wired) {fragment : Fragment n}
    (hmem : fragment ∈ s.queue) : fragment.sender.receiver = s.leaves := by
  by_contra hne
  have hlt : fragment.sender.receiver < s.leaves := lt_of_le_of_ne (hwired.queue _ hmem) hne
  have hstep : s.threadStep blocks (.destroy fragment) = some _ :=
    step_destroy.mpr ⟨hmem, hlt, rfl⟩
  exact hs.not_busy hstep trivial

/-- At rest, with a message in a pipe, the event builder would find it. -/
theorem queue_of_atRest (hs : s.AtRest blocks) (hwired : s.Wired) (hpc : s.ebPc = .recv) :
    s.queue = [] := by
  cases hqueue : s.queue with
  | nil => rfl
  | cons fragment queue =>
    have hmem : fragment ∈ s.queue := by
      rw [hqueue]
      exact List.mem_cons_self
    have hpresent := present_of_atRest hs hwired hmem
    let found := some (fragment.task, fragment.sender.activation)
    have hfinds : s.receives found ≠ none := by
      intro hnone
      rw [receives, if_pos hpc, finds, Option.bind_some, List.find?_eq_none] at hnone
      apply hnone fragment hmem
      rw [← hpresent]
      simp
    have hstep : s.threadStep blocks (.eb found id) = some (s.receive found id) := by
      rw [threadStep, if_neg (by simp [hpc]), step, ebStep, hpc]
    refine absurd ⟨?_, ?_⟩ (hs.not_busy hstep)
    · rintro ⟨hloop, -⟩
      rw [hpc] at hloop
      cases hloop
    · rintro ⟨-, hnone⟩
      exact hfinds hnone

/-- In its loop the event builder waits at rest for a count that is not zero. -/
theorem waits_of_atRest (hs : s.AtRest blocks) (hwired : s.Wired) (hcounted : s.Counted)
    (hexit : s.cState = .smExit) (hpc : s.ebPc = .loopTest) :
    s.queue = [] ∧ (0 < s.leaked ∨ ∃ i, (s.tasks i).pc.HoldsBuffer) := by
  have hstays : ¬ s.ExitCondition := by
    intro hleaves
    have hstep : s.threadStep blocks (.eb none id) =
        some { s with ebPc := .exitTest, leaves := s.leaves + 1 } := by
      rw [threadStep, if_neg (by simp [hpc]), step, ebStep, hpc]
      exact if_pos hleaves
    exact hs.not_busy hstep ⟨fun hloop => hloop.2 hleaves, by simp [hpc]⟩
  have hqueue : s.queue = [] := by
    have hstep : s.threadStep blocks (.eb none id) = some { s with ebPc := .recv } := by
      rw [threadStep, if_neg (by simp [hpc]), step, ebStep, hpc]
      exact if_neg hstays
    have hrest : AtRest blocks { s with ebPc := .recv } := hs.of_step hstep
    have hempty := queue_of_atRest hrest ⟨hwired.senders, hwired.queue⟩ rfl
    exact hempty
  refine ⟨hqueue, ?_⟩
  by_contra hnone
  rw [not_or, not_exists] at hnone
  obtain ⟨hleaked, htasks⟩ := hnone
  have hsum : ∑ i, (s.tasks i).inHand = 0 :=
    Finset.sum_eq_zero fun i _ => DTArecbe.inHand_of_not_holds (htasks i)
  rw [Counted, liveBuffers, hsum, hqueue, hpc] at hcounted
  apply hstays
  refine ⟨by simp [hexit], ?_⟩
  simp only [List.length_nil, EbPc.inHand] at hcounted
  omega

/-- At rest a task has ended or is stuck, or its send does not return. -/
theorem tasks_of_atRest (hs : s.AtRest blocks) (hexit : s.cState = .smExit) (i : Fin n) :
    (s.tasks i).pc = .ended ∨ (s.tasks i).Stuck ∨
      blocks.task i = true ∧ (s.tasks i).pc.Sends := by
  by_cases hblocked : blocks.task i = true ∧ (s.tasks i).pc.Sends
  · exact .inr (.inr hblocked)
  by_cases hconnects : (s.tasks i).pc = .loopTest ∧ s.connected i = false
  · -- the task would connect
    have hstep : ∃ t, s.threadStep blocks (.connect i false) = some t := by
      simp [threadStep, step, connect, hconnects]
    obtain ⟨t, hstep⟩ := hstep
    exact absurd trivial (hs.not_busy hstep)
  refine (DTArecbe.ended_or_stuck fun turn hturn => ?_).imp_right .inl
  have hsame : ({ turn with cState := s.cState } : Turn) = turn := by
    rw [hexit, ← hturn]
  cases hstep : (s.tasks i).step turn with
  | none => rfl
  | some out =>
    have hthread : s.threadStep blocks (.task i turn) = some (s.taskDone i out.1 out.2) := by
      rw [threadStep, if_neg hblocked, step, taskStep, if_neg hconnects, hsame, hstep]
      rfl
    exact absurd trivial (hs.not_busy hthread)

/-- At rest the event builder has ended or waits in its loop, or a send of its does not return. -/
theorem eb_of_atRest (hs : s.AtRest blocks) (hwired : s.Wired) (hcounted : s.Counted)
    (hexit : s.cState = .smExit) :
    s.ebPc = .ended ∨ (blocks.eb = true ∧ s.ebPc = .holding) ∨
      s.ebPc.InLoop ∧ s.queue = [] ∧ (0 < s.leaked ∨ ∃ i, (s.tasks i).pc.HoldsBuffer) := by
  by_cases hblocked : blocks.eb = true ∧ s.ebPc = .holding
  · exact .inr (.inl hblocked)
  cases hpc : s.ebPc with
  | ended => exact .inl rfl
  | stateMachine | exitTest | holding =>
    have hbusy : s.Busy (.eb none id) := by
      constructor <;> simp [hpc]
    have hstep : ∃ t, s.threadStep blocks (.eb none id) = some t := by
      rw [threadStep, if_neg hblocked, step, ebStep, hpc]
      simp [hexit]
    obtain ⟨t, hstep⟩ := hstep
    exact absurd hbusy (hs.not_busy hstep)
  | loopTest => exact .inr (.inr ⟨trivial, waits_of_atRest hs hwired hcounted hexit hpc⟩)
  | recv =>
    have hstep : s.threadStep blocks (.eb none id) = some { s with ebPc := .loopTest } := by
      rw [threadStep, if_neg hblocked, step, ebStep, hpc]
      rfl
    have hrest : AtRest blocks { s with ebPc := .loopTest } := hs.of_step hstep
    have hkept : Counted { s with ebPc := .loopTest } := by
      rw [Counted, liveBuffers, hpc] at hcounted
      exact hcounted
    have hwaits := waits_of_atRest hrest ⟨hwired.senders, hwired.queue⟩ hkept hexit rfl
    exact .inr (.inr ⟨trivial, hwaits⟩)

end Rest

/-- All connections are closed by the peers, and no read has thrown. -/
structure HungUp (s : Leb n) : Prop where
  leaked : s.leaked = 0
  tasks : ∀ i, (s.tasks i).HungUp

theorem HungUp.step {s t : Leb n} {a : LebAction n} (hs : s.HungUp) (h : s.step a = some t) :
    t.HungUp := by
  have hleaked := leaked_step h
  rw [hs.leaked, Nat.zero_add] at hleaked
  cases a with
  | setState state =>
    cases h
    exact ⟨hs.leaked, hs.tasks⟩
  | task i turn =>
    obtain ⟨task, e, hstep, rfl⟩ := step_task.mp h
    obtain ⟨htask, hthrow⟩ := (hs.tasks i).step (step_of_taskStep hstep)
    refine ⟨hleaked.trans (if_neg ?_), fun j => ?_⟩
    · intro hthrows
      rw [Throws, hstep] at hthrows
      exact hthrow (Option.some.inj hthrows)
    · rw [taskDone_tasks]
      by_cases hj : j = i
      · rw [hj, Function.update_self]
        exact htask
      · rw [Function.update_of_ne hj]
        exact hs.tasks j
  | connect i late =>
    obtain ⟨receiver, -, rfl⟩ := step_connect h
    exact ⟨hs.leaked, hs.tasks⟩
  | destroy fragment =>
    obtain ⟨-, -, rfl⟩ := step_destroy.mp h
    exact ⟨hs.leaked, hs.tasks⟩
  | eb found stale =>
    cases ebStep_kind h <;> exact ⟨hs.leaked, hs.tasks⟩

/-! ### Over runs -/

section Main

variable (frontEnds : Fin n → FrontEnd) (eb : DTeb) (actions : List (LebAction n)) {s : Leb n}

theorem counted_and_wired (hrun : run step (start frontEnds eb) actions = some s)
    {blocks : Blocks n} {more : List (LebAction n)} {t : Leb n}
    (hmore : run (threadStep blocks) s more = some t) : t.Counted ∧ t.Wired := by
  have hs : s.Wired :=
    run_invariant (wired_start frontEnds eb) (fun _ _ _ hs h => hs.step h) hrun
  refine run_invariant (I := fun t : Leb n => t.Counted ∧ t.Wired) ⟨counted_of_run hrun, hs⟩
    (fun u a v hu h => ?_) hmore
  have hstep := (threadStep_eq_some h).1
  exact ⟨hu.1.step hstep, hu.2.step hstep⟩

theorem cState_of_run {blocks : Blocks n} (hexit : s.cState = .smExit)
    {more : List (LebAction n)} {t : Leb n} (hmore : run (threadStep blocks) s more = some t) :
    t.cState = .smExit :=
  run_invariant (I := fun t : Leb n => t.cState = .smExit) hexit
    (fun _ _ _ hu h => (work_threadStep hu h).1) hmore

/-- From any state that `leb` reaches, once `main` has set `SM_EXIT`: the threads take a bounded
number of steps that are more than waiting, whatever the order, and come to rest, whichever sends
do not return any more. At rest each task has ended, or a read or a send blocks it, or it has
overrun its buffer; and the event builder has ended, or a send blocks it, or it has emptied its
pipes and waits for buffers that a task holds which is blocked or stuck, or that a read which
threw has left behind. -/
theorem exit_settles (hrun : run step (start frontEnds eb) actions = some s)
    (hexit : s.cState = .smExit) :
    (∀ more t, run (threadStep (.none n)) s more = some t →
      busySteps (threadStep (.none n)) Busy s more ≤ s.work) ∧
    ∀ blocks, (∃ more t, run (threadStep blocks) s more = some t ∧ t.AtRest blocks) ∧
      ∀ more t, run (threadStep (.none n)) s more = some t → t.AtRest blocks →
        (∀ i, (t.tasks i).pc = .ended ∨ (t.tasks i).Stuck ∨
          blocks.task i = true ∧ (t.tasks i).pc.Sends) ∧
        (t.ebPc = .ended ∨ (blocks.eb = true ∧ t.ebPc = .holding) ∨
          t.ebPc.InLoop ∧ t.queue = [] ∧
            (0 < t.leaked ∨ ∃ i, (t.tasks i).Stuck ∨
              blocks.task i = true ∧ (t.tasks i).pc.Sends)) := by
  have hkeeps (blocks : Blocks n) : ∀ (s : Leb n) a t, s.cState = .smExit →
      s.threadStep blocks a = some t → t.cState = .smExit :=
    fun s a t hs h => (work_threadStep hs h).1
  have hlowers (blocks : Blocks n) : ∀ (s : Leb n) a t, s.cState = .smExit →
      s.threadStep blocks a = some t → (if s.Busy a then 1 else 0) + t.work ≤ s.work :=
    fun s a t hs h => (work_threadStep hs h).2
  refine ⟨fun more t hmore => ?_, fun blocks =>
    ⟨exists_settled (hkeeps blocks) (hlowers blocks) hexit, fun more t hmore hrest => ?_⟩⟩
  · have hle := busySteps_add_le (hkeeps _) (hlowers _) hexit hmore
    omega
  · have ht := cState_of_run hexit hmore
    obtain ⟨hcounted, hwired⟩ := counted_and_wired frontEnds eb actions hrun hmore
    have htasks := tasks_of_atRest hrest ht
    refine ⟨htasks, (eb_of_atRest hrest hwired hcounted ht).imp_right (.imp_right ?_)⟩
    rintro ⟨hloop, hqueue, hwaits⟩
    refine ⟨hloop, hqueue, hwaits.imp_right ?_⟩
    rintro ⟨i, hholds⟩
    refine ⟨i, (htasks i).resolve_left fun hended => ?_⟩
    rw [hended] at hholds
    exact hholds

/-- If no read has failed, the peers have closed their connections and every send returns, `leb`
ends: at rest all threads have, provided that no task has overrun its buffer. -/
theorem exit_ends (hclean : ∀ i, (frontEnds i).socket.Clean)
    (hclosed : ∀ i, (frontEnds i).socket.closed = true)
    (hrun : run step (start frontEnds eb) actions = some s) (hexit : s.cState = .smExit)
    (more : List (LebAction n)) (t : Leb n)
    (hmore : run (threadStep (.none n)) s more = some t) (hrest : t.AtRest (.none n))
    (hinside : ∀ i, (t.tasks i).pc ≠ .overrun) :
    t.ebPc = .ended ∧ ∀ i, (t.tasks i).pc = .ended := by
  have hs : s.HungUp := by
    refine run_invariant (I := HungUp) ⟨rfl, fun i => ⟨?_, hclosed i⟩⟩ (fun u a v hu h => hu.step h)
      hrun
    exact TcpBuffer.plain_start (hclean i)
  have ht : t.HungUp :=
    run_invariant (I := HungUp) hs (fun u a v hu h => hu.step (threadStep_eq_some h).1) hmore
  obtain ⟨hcounted, hwired⟩ := counted_and_wired frontEnds eb actions hrun hmore
  have hstate := cState_of_run hexit hmore
  have htasks : ∀ i, (t.tasks i).pc = .ended := by
    intro i
    rcases tasks_of_atRest hrest hstate i with hended | hstuck | ⟨hblocked, -⟩
    · exact hended
    · exact absurd ((ht.tasks i).overrun_of_stuck hstuck) (hinside i)
    · cases hblocked
  refine ⟨?_, htasks⟩
  rcases eb_of_atRest hrest hwired hcounted hstate with
    hended | ⟨hblocked, -⟩ | ⟨-, -, hleaked | ⟨i, hholds⟩⟩
  · exact hended
  · cases hblocked
  · rw [ht.leaked] at hleaked
    omega
  · rw [htasks i] at hholds
    exact absurd hholds id

/-- Once a read of a front-end has thrown while the event builder is in its loop, it stays
there, whatever commands come: its thread does not end, so `main` does not either. -/
theorem loop_kept_of_leak (hrun : run step (start frontEnds eb) actions = some s)
    (hleaked : 0 < s.leaked) (hloop : s.ebPc.InLoop) (more : List (LebAction n)) (t : Leb n)
    (hmore : run step s more = some t) : t.ebPc.InLoop ∧ t.ebPc ≠ .ended := by
  have hinv : t.Counted ∧ 0 < t.leaked ∧ t.ebPc.InLoop := by
    refine run_invariant (I := fun t : Leb n => t.Counted ∧ 0 < t.leaked ∧ t.ebPc.InLoop)
      ⟨counted_of_run hrun, hleaked, hloop⟩ ?_ hmore
    rintro u a v ⟨hcounted, hpos, hin⟩ h
    have hmore := leaked_step h
    refine ⟨hcounted.step h, by omega, ?_⟩
    cases a with
    | setState state =>
      cases h
      exact hin
    | task i turn =>
      obtain ⟨task, e, -, rfl⟩ := step_task.mp h
      cases e <;> exact hin
    | destroy fragment =>
      obtain ⟨-, -, rfl⟩ := step_destroy.mp h
      exact hin
    | connect i late =>
      obtain ⟨receiver, -, rfl⟩ := step_connect h
      exact hin
    | eb found stale =>
      have heb : u.ebStep found stale = some v := h
      rw [ebStep] at heb
      cases hpc : u.ebPc with
      | stateMachine | exitTest | ended =>
        rw [hpc] at hin
        exact absurd hin id
      | loopTest =>
        -- the way out needs a count of zero
        have hstays : ¬ u.ExitCondition := by
          intro hleaves
          have hzero := hleaves.2
          rw [Counted, liveBuffers] at hcounted
          omega
        simp only [hpc, if_neg hstays] at heb
        cases heb
        trivial
      | holding =>
        simp only [hpc] at heb
        cases heb
        trivial
      | recv =>
        simp only [hpc] at heb
        cases heb
        rw [receive]
        split <;> trivial
  refine ⟨hinv.2.2, fun hended => ?_⟩
  have hin := hinv.2.2
  rw [hended] at hin
  exact hin

end Main

theorem exit_settles_one_fragment :
    ∃ s, run step (start oneFrontEnd (.start 999 1024 [1])) (oneFragment ++ [.setState .smExit]) =
        some s ∧ s.work = 4 ∧ ∃ more t, run (threadStep ⟨true, fun _ => false⟩) s more = some t ∧
          t.AtRest ⟨true, fun _ => false⟩ := by
  refine ⟨_, rfl, rfl, ?_⟩
  exact ((exit_settles oneFrontEnd (.start 999 1024 [1]) (oneFragment ++ [.setState .smExit]) rfl
    rfl).2 ⟨true, fun _ => false⟩).1

/-- The front-end has sent one record and closed the connection. -/
def closedFrontEnd (_ : Fin 1) : FrontEnd :=
  ⟨1, false, 16, ⟨[.data 1 [7, 0, 0, 0, 0, 0, 0, 0, 0, 0, 5]], true⟩⟩

/-- Both threads go through their last tests. -/
def lastTests : List (LebAction 1) :=
  [.eb none id, .eb none id, .task (Fin.last 0) ⟨.smInit, fun _ => 0, true, true, 0⟩]

theorem exit_ends_closed :
    ∃ s t, run step (start closedFrontEnd (.start 999 1024 [1]))
        (oneFragment ++ [.setState .smExit]) = some s ∧
      run (threadStep (.none 1)) s lastTests = some t ∧ t.ebPc = .ended ∧
      ∀ i, (t.tasks i).pc = .ended := by
  refine ⟨_, _, rfl, rfl, ?_⟩
  exact exit_ends closedFrontEnd (.start 999 1024 [1]) (oneFragment ++ [.setState .smExit])
    (fun i => by simp [Socket.Clean, closedFrontEnd]) (by decide) rfl rfl lastTests _ rfl
    (atRest_of_ended rfl (by decide) rfl) (by decide)

/-- The first header read throws while the event builder is in its loop. -/
def throwingRead : List (LebAction 1) :=
  let turn : LebAction 1 := .task (Fin.last 0) ⟨.smInit, fun _ => 0, true, true, 0⟩
  [.setState .smRunning, .eb none id, turn, .connect (Fin.last 0) false, turn, turn, turn]

def brokenFrontEnd (_ : Fin 1) : FrontEnd := ⟨1, false, 16, ⟨[.error], false⟩⟩

theorem loop_kept_of_leak_throwing :
    ∃ s, run step (start brokenFrontEnd (.start 999 1024 [1])) throwingRead = some s ∧
      s.leaked = 1 ∧ ∀ more t, run step s more = some t → t.ebPc ≠ .ended := by
  refine ⟨_, rfl, rfl, fun more t hmore => ?_⟩
  exact (loop_kept_of_leak brokenFrontEnd (.start 999 1024 [1]) throwingRead rfl (by decide)
    trivial more t hmore).2

end Leb

end LebStudy
