import LebStudy.Leb.System
import LebStudy.FrontEnd.Framing
import LebStudy.EventBuilder.Composition

/-!
# What reaches the event builder

The front-ends write records into their connections, and the event builder receives
messages. In between there are the reads of the tasks, the pipe of each activation, the
tests of `c_state` and whatever is destroyed when the event builder closes its socket. What
is received of a front-end are records of its stream, each whole and none twice. They come in
the order of the stream, if no task starts anew while messages of its last activation wait for
the same receiver: zmq takes turns between the pipes.
-/

namespace LebStudy

open Interleaving
open scoped List

/-- What the front-ends deliver over connections that stay open: whole records that fit into
the buffers, each front-end with an id of its own and with trigger counts that increase. -/
structure Deliveries {n : ℕ} (frontEnds : Fin n → FrontEnd) where
  records : Fin n → List RecbeRecord
  real : ∀ i, (frontEnds i).isDummy = false
  clean : ∀ i, (frontEnds i).socket.Clean
  stays_open : ∀ i, (frontEnds i).socket.closed = false
  bytes : ∀ i, (frontEnds i).socket.bytes = (records i).flatMap RecbeRecord.bytes
  fits : ∀ i, ∀ r ∈ records i, RecbeHeader.size + r.header.len.toNat ≤ (frontEnds i).bufsize
  distinct : ∀ i j, (frontEnds i).id = (frontEnds j).id → i = j
  own : ∀ i, ∀ r ∈ records i, r.header.id.toNat = (frontEnds i).id
  numbered : ∀ i, ∀ r ∈ records i, r.header.trigCount.toNat < 2 ^ 28
  increasing : ∀ i, (records i).Pairwise (·.header.trigCount < ·.header.trigCount)

/-- `m_nodes` as `DTeb::init` fills it: the ids in the order of the node list. -/
def nodeIds {n : ℕ} (frontEnds : Fin n → FrontEnd) : List ℕ :=
  (List.finRange n).map fun i => (frontEnds i).id

namespace DTArecbe

/-- A step calls `send` at most once; what is sent is what it is called with. -/
theorem sendCalls_step {s t : DTArecbe} {turn : Turn} {e : Effect}
    (h : s.step turn = some (t, e)) :
    s.sendCalls.Sublist t.sendCalls ∧
      ∀ message, e = .sent message → t.sendCalls = s.sendCalls ++ [message] := by
  cases step_kind h with
  | test _ _ sent | allocate _ _ sent | read _ _ sent | throw _ _ sent =>
    rw [sent]
    exact ⟨List.Sublist.refl _, fun _ heq => by cases heq⟩
  | send message _ _ sent =>
    rw [sent]
    exact ⟨List.sublist_append_left _ _, fun _ heq => by cases heq; rfl⟩
  | sendFail message _ _ sent =>
    rw [sent]
    exact ⟨List.sublist_append_left _ _, fun _ heq => by cases heq⟩

end DTArecbe

namespace Leb

variable {n : ℕ}

/-- The messages of task `i` that the event builder has received, and those in the pipes. -/
def passedOn (s : Leb n) (i : Fin n) : List Message :=
  ((s.received.map (·.1) ++ s.queue).filter (·.task = i)).map (·.message)

/-- The message that this step receives. -/
def receives (s : Leb n) (found : Option (Fin n × ℕ)) : Option (Fragment n) :=
  if s.ebPc = .recv then s.finds found else none

/-- A record is evicted in this step. -/
def Evicts (s : Leb n) : LebAction n → Prop
  | .eb found stale => ∃ fragment ∈ s.receives found, s.eb.Evicts ⟨fragment.message, stale⟩
  | .setState _ | .task _ _ | .connect _ _ | .destroy _ => False

instance (s : Leb n) : (a : LebAction n) → Decidable (s.Evicts a)
  | .eb found stale =>
    inferInstanceAs (Decidable (∃ fragment ∈ s.receives found,
      s.eb.Evicts ⟨fragment.message, stale⟩))
  | .setState _ | .task _ _ | .connect _ _ | .destroy _ => .isFalse id

/-- A task that connects has no message under way to the present receiver. -/
def ConnectsDrained (s : Leb n) : LebAction n → Prop
  | .connect i _ =>
    ∀ fragment ∈ s.queue, fragment.task = i → fragment.sender.receiver ≠ s.leaves
  | .setState _ | .task _ _ | .eb _ _ | .destroy _ => True

instance (s : Leb n) (a : LebAction n) : Decidable (s.ConnectsDrained a) := by
  cases a <;> unfold ConnectsDrained <;> infer_instance

/-! ### What a step does to the messages -/

section Step

variable {s t : Leb n} {found : Option (Fin n × ℕ)} {stale : ℕ → ℕ}

/-- A step of the event builder takes a message out of its pipe and works on it, or touches
neither the pipes nor the buffer. -/
theorem ebStep_cases (h : s.ebStep found stale = some t) :
    t.tasks = s.tasks ∧ t.senders = s.senders ∧
      ((∃ fragment, s.receives found = some fragment ∧ s.finds found = some fragment ∧
        t.queue = s.queue.erase fragment ∧ t.received = s.received ++ [(fragment, s.leaves)] ∧
        t.leaves = s.leaves ∧ t.eb = s.eb.step ⟨fragment.message, stale⟩) ∨
      t.queue = s.queue ∧ t.received = s.received ∧ t.eb = s.eb ∧
        (t.leaves = s.leaves ∨ t.leaves = s.leaves + 1)) := by
  rw [ebStep] at h
  cases hpc : s.ebPc with
  | stateMachine | exitTest =>
    rw [hpc] at h
    simp only at h
    split at h <;> cases h <;> exact ⟨rfl, rfl, .inr ⟨rfl, rfl, rfl, .inl rfl⟩⟩
  | loopTest =>
    rw [hpc] at h
    simp only at h
    split at h <;> cases h
    · exact ⟨rfl, rfl, .inr ⟨rfl, rfl, rfl, .inr rfl⟩⟩
    · exact ⟨rfl, rfl, .inr ⟨rfl, rfl, rfl, .inl rfl⟩⟩
  | holding =>
    rw [hpc] at h
    cases h
    exact ⟨rfl, rfl, .inr ⟨rfl, rfl, rfl, .inl rfl⟩⟩
  | recv =>
    rw [hpc] at h
    cases h
    unfold receive
    split
    · next fragment hfound =>
      refine ⟨rfl, rfl, .inl ⟨fragment, ?_, hfound, rfl, rfl, rfl, rfl⟩⟩
      rw [receives, if_pos hpc, hfound]
    · exact ⟨rfl, rfl, .inr ⟨rfl, rfl, rfl, .inl rfl⟩⟩
  | ended =>
    rw [hpc] at h
    cases h

/-- Receiving a message passes nothing else on. -/
theorem passedOn_of_received {fragment : Fragment n} (hmem : fragment ∈ s.queue)
    (hqueue : t.queue = s.queue.erase fragment)
    (hreceived : t.received = s.received ++ [(fragment, s.leaves)]) (i : Fin n) :
    t.passedOn i ~ s.passedOn i := by
  rw [passedOn, passedOn, hqueue, hreceived, List.map_append, List.map_singleton,
    List.append_assoc, List.singleton_append]
  exact (((List.perm_cons_erase hmem).symm.append_left _).filter _).map _

/-- What a step of a task puts behind what is passed on of it. -/
theorem passedOn_taskDone (s : Leb n) (i : Fin n) (task : DTArecbe) (e : DTArecbe.Effect)
    (j : Fin n) :
    (∃ message, e = .sent message ∧ i = j ∧
      (s.taskDone i task e).passedOn j = s.passedOn j ++ [message]) ∨
    (s.taskDone i task e).passedOn j = s.passedOn j := by
  cases e with
  | nothing | allocated | released | leaked => exact .inr rfl
  | sent message =>
    by_cases hij : i = j
    · refine .inl ⟨message, rfl, hij, ?_⟩
      simp [passedOn, taskDone, hij, List.filter_append]
    · exact .inr (by simp [passedOn, taskDone, hij, List.filter_append])

theorem passedOn_destroy {fragment : Fragment n} (hqueue : t.queue = s.queue.erase fragment)
    (hreceived : t.received = s.received) (i : Fin n) :
    (t.passedOn i).Sublist (s.passedOn i) := by
  rw [passedOn, passedOn, hqueue, hreceived, List.filter_append, List.filter_append]
  exact (((List.erase_sublist).filter _).append_left _).map _

end Step

/-! ### The streams of a run -/

variable {frontEnds : Fin n → FrontEnd}

/-- The tasks keep to the records, and what is passed on of a task is something that it has
sent, each message as often at most as it has sent it. -/
structure Streams (d : Deliveries frontEnds) (s : Leb n) : Prop where
  framed : ∀ i, (s.tasks i).Framed false (d.records i) []
  bufsize : ∀ i, (s.tasks i).mBufsize = (frontEnds i).bufsize
  passedOn : ∀ i, s.passedOn i <+~ (s.tasks i).sendCalls

theorem streams_start (d : Deliveries frontEnds) (eb : DTeb) :
    Streams d (start frontEnds eb) := by
  refine ⟨fun i => ?_, fun _ => rfl, fun i => List.nil_subperm⟩
  have hbytes : (frontEnds i).socket.bytes = (d.records i).flatMap RecbeRecord.bytes ++ [] := by
    rw [d.bytes i, List.append_nil]
  have hframed : (DTArecbe.start (frontEnds i).id false (frontEnds i).bufsize
      (frontEnds i).socket).Framed (frontEnds i).socket.closed (d.records i) [] :=
    DTArecbe.framed_start (d.clean i) hbytes
  rw [d.stays_open i] at hframed
  show ((frontEnds i).task).Framed false (d.records i) []
  rw [FrontEnd.task, d.real i]
  exact hframed

theorem Streams.taskDone {d : Deliveries frontEnds} {s : Leb n} (hs : Streams d s) {i : Fin n}
    {turn : Turn} {task : DTArecbe} {e : DTArecbe.Effect}
    (h : s.taskStep i turn = some (task, e)) : Streams d (s.taskDone i task e) := by
  have h := step_of_taskStep h
  have htasks : (s.taskDone i task e).tasks = Function.update s.tasks i task := by
    cases e <;> rfl
  have htask : task.Framed false (d.records i) [] :=
    (hs.framed i).step RecbeRecord.not_complete_nil
      (fun hheader => (hs.framed i).ahead_of_open hheader h) h
  have hcalls := DTArecbe.sendCalls_step h
  refine ⟨fun j => ?_, fun j => ?_, fun j => ?_⟩
  · rw [htasks]
    by_cases hj : j = i
    · rw [hj, Function.update_self]
      exact htask
    · rw [Function.update_of_ne hj]
      exact hs.framed j
  · rw [htasks]
    by_cases hj : j = i
    · rw [hj, Function.update_self]
      exact (DTArecbe.step_frame h).1.trans (hs.bufsize i)
    · rw [Function.update_of_ne hj]
      exact hs.bufsize j
  · rw [htasks]
    rcases passedOn_taskDone s i task e j with ⟨message, he, rfl, hpassed⟩ | hpassed
    · rw [hpassed, Function.update_self, hcalls.2 message he]
      exact (hs.passedOn i).append (List.Subperm.refl _)
    · rw [hpassed]
      by_cases hj : j = i
      · rw [hj, Function.update_self]
        exact (hs.passedOn i).trans hcalls.1.subperm
      · rw [Function.update_of_ne hj]
        exact hs.passedOn j

theorem Streams.step {d : Deliveries frontEnds} {s t : Leb n} {a : LebAction n}
    (hs : Streams d s) (h : s.step a = some t) : Streams d t := by
  cases a with
  | setState state =>
    cases h
    exact ⟨hs.framed, hs.bufsize, hs.passedOn⟩
  | task i turn =>
    obtain ⟨task, e, hstep, rfl⟩ := step_task.mp h
    exact hs.taskDone hstep
  | connect i late =>
    obtain ⟨receiver, -, rfl⟩ := step_connect h
    exact ⟨hs.framed, hs.bufsize, hs.passedOn⟩
  | eb found stale =>
    obtain ⟨htasks, -, ⟨fragment, -, hfinds, hqueue, hreceived, -⟩ | ⟨hqueue, hreceived, -⟩⟩ :=
      ebStep_cases h
    · refine ⟨htasks ▸ hs.framed, htasks ▸ hs.bufsize, fun i => ?_⟩
      have hperm := passedOn_of_received (finds_eq_some hfinds).1 hqueue hreceived i
      rw [htasks]
      exact hperm.subperm.trans (hs.passedOn i)
    · refine ⟨htasks ▸ hs.framed, htasks ▸ hs.bufsize, fun i => ?_⟩
      rw [Leb.passedOn, hqueue, hreceived, htasks]
      exact hs.passedOn i
  | destroy fragment =>
    obtain ⟨-, -, ht⟩ := step_destroy.mp h
    have htasks : t.tasks = s.tasks := by rw [ht]
    refine ⟨htasks ▸ hs.framed, htasks ▸ hs.bufsize, fun i => ?_⟩
    rw [htasks]
    exact (passedOn_destroy (by rw [ht]) (by rw [ht]) i).subperm.trans (hs.passedOn i)

/-- The event builder has made one pass for each message received, and has evicted where the
run has. -/
def Built (eb : DTeb) (actions : List (LebAction n)) (t : Leb n) (s : Leb n) : Prop :=
  ∃ as, as.map (·.message) = t.received.map (·.1.message) ∧ eb.stRunning as = some t.eb ∧
    (Transition.Meets step (fun s a => ¬ s.Evicts a) s actions →
      Transition.Meets DTeb.next (fun s a => ¬ s.Evicts a) eb as)

theorem built_of_run (frontEnds : Fin n → FrontEnd) (eb : DTeb) {actions : List (LebAction n)}
    {t : Leb n} (hrun : Transition.run step (start frontEnds eb) actions = some t) :
    Built eb actions t (start frontEnds eb) := by
  have htrue : Transition.Meets step (fun _ _ => True) (start frontEnds eb) actions :=
    Transition.meets_of_forall fun _ _ _ => trivial
  refine Transition.run_induction
    (P := fun actions t => Built eb actions t (start frontEnds eb)) ?_ ?_ hrun htrue
  · exact ⟨[], rfl, rfl, fun _ => trivial⟩
  · rintro pre s a u hs ⟨as, hmessages, hbuilt, hevicts⟩ - hstep
    have hsame (hreceived : u.received = s.received) (heb : u.eb = s.eb) :
        Built eb (pre ++ [a]) u (start frontEnds eb) := by
      refine ⟨as, by rw [hreceived, hmessages], by rw [heb, hbuilt], fun hmeets => ?_⟩
      exact hevicts (Transition.meets_concat.mp hmeets).1
    cases a with
    | setState state =>
      cases hstep
      exact hsame rfl rfl
    | task i turn =>
      obtain ⟨task, e, -, rfl⟩ := step_task.mp hstep
      exact hsame (by cases e <;> rfl) (by cases e <;> rfl)
    | connect i late =>
      obtain ⟨receiver, -, rfl⟩ := step_connect hstep
      exact hsame rfl rfl
    | destroy fragment =>
      obtain ⟨-, -, rfl⟩ := step_destroy.mp hstep
      exact hsame rfl rfl
    | eb found stale =>
      obtain ⟨-, -, ⟨fragment, hfound, -, -, hreceived, -, heb⟩ | ⟨-, hreceived, heb, -⟩⟩ :=
        ebStep_cases hstep
      · refine ⟨as ++ [⟨fragment.message, stale⟩], ?_, ?_, fun hmeets => ?_⟩
        · rw [hreceived, List.map_append, List.map_append, hmessages]
          rfl
        · exact Transition.run_concat_eq_some.mpr ⟨s.eb, hbuilt, congrArg some heb.symm⟩
        · obtain ⟨hpre, hlast⟩ := Transition.meets_concat.mp hmeets
          refine Transition.meets_concat.mpr ⟨hevicts hpre, fun v hv hevict => ?_⟩
          obtain rfl := Option.some.inj (hbuilt.symm.trans hv)
          exact hlast s hs ⟨fragment, hfound, hevict⟩
      · exact hsame hreceived heb

/-! ### The order of arrival -/

/-- The fragments of task `i` that the present receiver can still get. -/
def waiting (s : Leb n) (i : Fin n) : List (Fragment n) :=
  s.queue.filter fun fragment => fragment.task = i ∧ fragment.sender.receiver = s.leaves

/-- What the present receiver can still get of a task is in one pipe, and the messages of each
task come in the order in which it has sent them. -/
structure InOrder (s : Leb n) : Prop where
  pipe : ∀ i, ∀ fragment ∈ s.waiting i, fragment.sender = s.senders i
  order : ∀ i, (((s.received.map (·.1)).filter (·.task = i) ++ s.waiting i).map
    (·.message)).Sublist (s.tasks i).sendCalls

theorem inOrder_start (frontEnds : Fin n → FrontEnd) (eb : DTeb) :
    (start frontEnds eb).InOrder := by
  constructor <;> simp [start, waiting]

section Order

variable {s t : Leb n}

theorem mem_waiting {i : Fin n} {fragment : Fragment n} :
    fragment ∈ s.waiting i ↔
      fragment ∈ s.queue ∧ fragment.task = i ∧ fragment.sender.receiver = s.leaves := by
  simp [waiting]

/-- What is found is the first that waits of its task. -/
theorem InOrder.waiting_of_finds (hs : s.InOrder) {found : Option (Fin n × ℕ)}
    {fragment : Fragment n} (hfinds : s.finds found = some fragment) :
    s.waiting fragment.task = fragment :: (s.queue.erase fragment).filter
      fun f => f.task = fragment.task ∧ f.sender.receiver = s.leaves := by
  obtain ⟨hmem, hpresent, hfirst⟩ := finds_eq_some hfinds
  have hsender := hs.pipe _ fragment (mem_waiting.mpr ⟨hmem, rfl, hpresent⟩)
  have hpipe : s.queue.find? (fun f => (f.task, f.sender) = (fragment.task, fragment.sender)) =
      some fragment := by
    simpa only [Prod.mk.injEq] using hfirst
  -- in the queue, those of the pipe are those that wait
  refine filter_eq_cons_of_key hpipe fun f hf => ?_
  rw [Prod.mk.injEq]
  refine and_congr_right fun htask => ⟨fun h => h ▸ hpresent, fun h => ?_⟩
  rw [hs.pipe _ f (mem_waiting.mpr ⟨hf, htask, h⟩), hsender]

theorem InOrder.receive (hs : s.InOrder) {found : Option (Fin n × ℕ)} {fragment : Fragment n}
    (hfinds : s.finds found = some fragment) (htasks : t.tasks = s.tasks)
    (hsenders : t.senders = s.senders) (hqueue : t.queue = s.queue.erase fragment)
    (hreceived : t.received = s.received ++ [(fragment, s.leaves)])
    (hleaves : t.leaves = s.leaves) : t.InOrder := by
  have hrest : ∀ i, t.waiting i = (s.queue.erase fragment).filter
      fun f => f.task = i ∧ f.sender.receiver = s.leaves := by
    intro i
    rw [waiting, hqueue, hleaves]
  refine ⟨fun i f hf => ?_, fun i => ?_⟩
  · rw [mem_waiting, hqueue, hleaves] at hf
    rw [hsenders]
    exact hs.pipe i f (mem_waiting.mpr ⟨List.mem_of_mem_erase hf.1, hf.2⟩)
  · have hreceived : t.received.map (·.1) = s.received.map (·.1) ++ [fragment] := by
      rw [hreceived, List.map_append, List.map_singleton]
    have horder := hs.order i
    rw [htasks, hreceived, hrest, List.filter_append]
    by_cases htask : fragment.task = i
    · rw [List.filter_cons_of_pos (by simpa using htask), List.filter_nil, List.append_assoc,
        List.singleton_append, ← htask, ← hs.waiting_of_finds hfinds]
      exact htask ▸ horder
    · rw [List.filter_cons_of_neg (by simpa using htask), List.filter_nil, List.append_nil]
      refine (List.Sublist.map _ (List.Sublist.append_left ?_ _)).trans horder
      exact List.erase_sublist.filter _

/-- A task that sends puts its message behind those that wait, or into a pipe that the present
receiver gets nothing from. -/
theorem InOrder.taskDone (hs : s.InOrder) {i : Fin n} {turn : Turn} {task : DTArecbe}
    {e : DTArecbe.Effect} (h : s.taskStep i turn = some (task, e)) :
    (s.taskDone i task e).InOrder := by
  have hcalls := DTArecbe.sendCalls_step (step_of_taskStep h)
  have hsilent (j : Fin n) : (((s.received.map (·.1)).filter (·.task = j) ++ s.waiting j).map
      (·.message)).Sublist (Function.update s.tasks i task j).sendCalls := by
    by_cases hj : j = i
    · rw [hj, Function.update_self]
      exact (hs.order i).trans hcalls.1
    · rw [Function.update_of_ne hj]
      exact hs.order j
  cases e with
  | nothing | allocated | released | leaked => exact ⟨hs.pipe, hsilent⟩
  | sent message =>
    have hwaiting (j : Fin n) : (s.taskDone i task (.sent message)).waiting j = s.waiting j ++
        if i = j ∧ (s.senders i).receiver = s.leaves then
          [⟨i, (s.taskDone i task (.sent message)).began i, s.senders i, message⟩] else [] := by
      rw [waiting, waiting]
      show List.filter _ (s.queue ++ [_]) = _
      rw [List.filter_append, List.filter_cons, List.filter_nil]
      simp only [decide_eq_true_eq]
      rfl
    refine ⟨fun j f hf => ?_, fun j => ?_⟩
    · rw [hwaiting, List.mem_append] at hf
      rcases hf with hf | hf
      · exact hs.pipe j f hf
      · split at hf
        · next hi =>
          rw [List.mem_singleton.mp hf, ← hi.1]
          rfl
        · cases hf
    · rw [hwaiting]
      split
      · next hi =>
        show List.Sublist _ (Function.update s.tasks i task j).sendCalls
        rw [← hi.1, Function.update_self, hcalls.2 message rfl, ← List.append_assoc,
          List.map_append]
        exact (hs.order i).append (List.Sublist.refl _)
      · rw [List.append_nil]
        exact hsilent j

theorem InOrder.step (hs : s.InOrder) (hwired : s.Wired) {a : LebAction n}
    (hdrained : s.ConnectsDrained a) (h : s.step a = some t) : t.InOrder := by
  cases a with
  | setState state =>
    cases h
    exact ⟨hs.pipe, hs.order⟩
  | task i turn =>
    obtain ⟨task, e, hstep, rfl⟩ := step_task.mp h
    exact hs.taskDone hstep
  | connect i late =>
    obtain ⟨receiver, -, rfl⟩ := step_connect h
    refine ⟨fun j f hf => ?_, hs.order⟩
    obtain ⟨hmem, htask, hpresent⟩ := mem_waiting.mp hf
    show f.sender = Function.update s.senders i _ j
    by_cases hj : j = i
    · exact absurd hpresent (hdrained f hmem (htask.trans hj))
    · rw [Function.update_of_ne hj]
      exact hs.pipe j f hf
  | eb found stale =>
    obtain ⟨htasks, hsenders, ⟨fragment, -, hfinds, hqueue, hreceived, hleaves, -⟩ |
      ⟨hqueue, hreceived, -, hleaves | hleaves⟩⟩ := ebStep_cases h
    · exact hs.receive hfinds htasks hsenders hqueue hreceived hleaves
    · have hwaiting : ∀ i, t.waiting i = s.waiting i := fun i => by
        rw [waiting, waiting, hqueue, hleaves]
      refine ⟨fun i => ?_, fun i => ?_⟩
      · rw [hwaiting, hsenders]
        exact hs.pipe i
      · rw [hwaiting, hreceived, htasks]
        exact hs.order i
    · -- the receiver is closed, and nothing waits for the next one
      have hwaiting : ∀ i, t.waiting i = [] := by
        intro i
        rw [List.eq_nil_iff_forall_not_mem]
        intro f hf
        rw [mem_waiting, hqueue, hleaves] at hf
        have hle := hwired.queue f hf.1
        omega
      refine ⟨fun i f hf => ?_, fun i => ?_⟩
      · rw [hwaiting] at hf
        cases hf
      · rw [hwaiting, List.append_nil, hreceived, htasks]
        exact ((List.sublist_append_left _ _).map _).trans (hs.order i)
  | destroy fragment =>
    obtain ⟨-, -, rfl⟩ := step_destroy.mp h
    refine ⟨fun i f hf => ?_, fun i => ?_⟩
    · exact hs.pipe i f ((List.erase_sublist.filter _).subset hf)
    · exact (((List.erase_sublist.filter _).append_left _).map _).trans (hs.order i)

end Order

end Leb

/-- In a list along which `f` increases an element is found by its value. -/
theorem find?_of_increasing {α : Type*} {f : α → ℕ} {l : List α} (h : l.Pairwise (f · < f ·))
    {a : α} (ha : a ∈ l) : l.find? (fun b => f b = f a) = some a := by
  induction l with
  | nil => cases ha
  | cons b l ih =>
    obtain ⟨hb, hl⟩ := List.pairwise_cons.mp h
    rcases List.mem_cons.mp ha with rfl | ha
    · rw [List.find?_cons_of_pos (by simp)]
    · have hlt := hb a ha
      rw [List.find?_cons_of_neg (by simp only [decide_eq_true_eq]; omega)]
      exact ih hl ha

namespace Deliveries

variable {n : ℕ} {frontEnds : Fin n → FrontEnd} (d : Deliveries frontEnds)

/-- The record that front-end `i` delivers for trigger `k`, if it delivers one. -/
def record? (k : ℕ) (i : Fin n) : Option RecbeRecord :=
  (d.records i).find? (·.header.trigCount.toNat = k)

/-- The bytes of this record. -/
def fragment (k : ℕ) (i : Fin n) : List UInt8 := ((d.record? k i).map RecbeRecord.bytes).getD []

theorem record?_of_mem {i : Fin n} {r : RecbeRecord} (hr : r ∈ d.records i) :
    d.record? r.header.trigCount.toNat i = some r :=
  find?_of_increasing (f := fun r : RecbeRecord => r.header.trigCount.toNat) (d.increasing i) hr

theorem mem_of_record? {k : ℕ} {i : Fin n} {r : RecbeRecord} (h : d.record? k i = some r) :
    r ∈ d.records i ∧ r.header.trigCount.toNat = k := by
  have hk := List.find?_some h
  exact ⟨List.mem_of_find?_eq_some h, of_decide_eq_true hk⟩

/-! ### The messages received -/

theorem message_id {i : Fin n} {r : RecbeRecord} (hr : r ∈ d.records i) :
    r.message.id = (frontEnds i).id := by
  rw [RecbeRecord.message, Message.ofHeader_id, d.own i r hr]

/-- The count fits in the bits that the event builder looks at. -/
theorem message_trig {i : Fin n} {r : RecbeRecord} (hr : r ∈ d.records i) :
    r.message.trig = r.header.trigCount.toNat := by
  rw [RecbeRecord.message, Message.ofHeader_trig]
  exact Nat.mod_eq_of_lt (d.numbered i r hr)

theorem nodup_nodeIds (d : Deliveries frontEnds) : (nodeIds frontEnds).Nodup :=
  (List.nodup_finRange n).map fun i j h => d.distinct i j h

section Run

variable {d} {eb : DTeb} {actions : List (LebAction n)} {t : Leb n}

theorem streams_of_run (d : Deliveries frontEnds)
    (hrun : Transition.run Leb.step (Leb.start frontEnds eb) actions = some t) :
    Leb.Streams d t :=
  Transition.run_invariant (Leb.streams_start d eb) (fun _ _ _ hs h => hs.step h) hrun

/-- No task writes past the end of its buffer. -/
theorem not_overrun (h : Leb.Streams d t) (i : Fin n) : (t.tasks i).pc ≠ .overrun := by
  obtain ⟨-, -, -, done, ahead, hrs, -, hpos⟩ := h.framed i
  intro hpc
  rw [DTArecbe.Position, hpc] at hpos
  obtain ⟨r, rest, rfl, hlong⟩ := hpos
  have hfit := d.fits i r (by simp [hrs])
  rw [h.bufsize i] at hlong
  omega

/-- What has been received of a front-end are records of its stream, in some order. -/
theorem received_of_task (h : Leb.Streams d t) (i : Fin n) :
    ∃ rs : List RecbeRecord, rs.Sublist (d.records i) ∧ rs.map RecbeRecord.message ~
      ((t.received.map (·.1)).filter (·.task = i)).map (·.message) := by
  obtain ⟨-, -, -, done, ahead, hrs, hsent, -⟩ := h.framed i
  have hpassed := h.passedOn i
  rw [Leb.passedOn, List.filter_append, List.map_append, hsent] at hpassed
  obtain ⟨ms, hperm, hms⟩ := (List.sublist_append_left _ _).subperm.trans hpassed
  obtain ⟨rs, hsub, rfl⟩ := List.sublist_map_iff.mp hms
  refine ⟨rs, hsub.trans ?_, hperm⟩
  rw [hrs]
  exact List.sublist_append_left done ahead

/-- Of an ordered run, they come in the order of the stream. -/
theorem received_in_order (h : Leb.Streams d t) (hord : t.InOrder) (i : Fin n) :
    ∃ rs : List RecbeRecord, rs.Sublist (d.records i) ∧
      ((t.received.map (·.1)).filter (·.task = i)).map (·.message) = rs.map RecbeRecord.message := by
  obtain ⟨-, -, -, done, ahead, hrs, hsent, -⟩ := h.framed i
  have horder := hord.order i
  rw [hsent, List.map_append] at horder
  obtain ⟨rs, hsub, heq⟩ := List.sublist_map_iff.mp ((List.sublist_append_left _ _).trans horder)
  refine ⟨rs, hsub.trans ?_, heq⟩
  rw [hrs]
  exact List.sublist_append_left done ahead

theorem mem_received (h : Leb.Streams d t) {f : Fragment n} (hf : f ∈ t.received.map (·.1)) :
    ∃ r ∈ d.records f.task, f.message = r.message := by
  obtain ⟨rs, hsub, hperm⟩ := received_of_task h f.task
  have hmem : f.message ∈ rs.map RecbeRecord.message :=
    hperm.mem_iff.mpr (List.mem_map_of_mem (List.mem_filter.mpr ⟨hf, by simp⟩))
  obtain ⟨r, hr, hmessage⟩ := List.mem_map.mp hmem
  exact ⟨r, hsub.subset hr, hmessage.symm⟩

/-- The messages received, in the order of the event builder. -/
def messages (t : Leb n) : List Message := t.received.map (·.1.message)

theorem mem_messages (h : Leb.Streams d t) {m : Message} (hm : m ∈ messages t) :
    ∃ i, ∃ r ∈ d.records i, m = r.message := by
  obtain ⟨p, hp, rfl⟩ := List.mem_map.mp hm
  obtain ⟨r, hr, hmessage⟩ := mem_received h (List.mem_map_of_mem hp)
  exact ⟨p.1.task, r, hr, hmessage⟩

theorem id_mem_nodeIds (h : Leb.Streams d t) : ∀ m ∈ messages t, m.id ∈ nodeIds frontEnds := by
  intro m hm
  obtain ⟨i, r, hr, rfl⟩ := mem_messages h hm
  rw [d.message_id hr]
  exact List.mem_map_of_mem (List.mem_finRange i)

theorem messages_eq (t : Leb n) : messages t = (t.received.map (·.1)).map (·.message) := by
  rw [messages, List.map_map]
  rfl

/-- What holds between the messages of each task, as they come in, holds between those of each
node. -/
theorem ordered_messages (h : Leb.Streams d t) {R : Message → Message → Prop}
    (hR : ∀ i, (((t.received.map (·.1)).filter (·.task = i)).map (·.message)).Pairwise R) :
    Ordered Message.id R (messages t) := by
  have hordered : Ordered Fragment.task (fun f g => R f.message g.message)
      (t.received.map (·.1)) := by
    refine ordered_of_forall_filter fun i => ?_
    have hi := hR i
    rw [List.pairwise_map] at hi
    exact hi
  rw [Ordered, messages_eq, List.pairwise_map]
  refine hordered.imp_of_mem fun {f g} hf hg hlt hid => hlt ?_
  obtain ⟨r, hr, hmessage⟩ := mem_received h hf
  obtain ⟨r', hr', hmessage'⟩ := mem_received h hg
  rw [hmessage, hmessage', d.message_id hr, d.message_id hr'] at hid
  exact d.distinct _ _ hid

theorem pairwise_trig {i : Fin n} {rs : List RecbeRecord} (hsub : rs.Sublist (d.records i)) :
    (rs.map RecbeRecord.message).Pairwise (·.trig < ·.trig) := by
  rw [List.pairwise_map]
  refine ((d.increasing i).sublist hsub).imp_of_mem fun ha hb hlt => ?_
  rw [d.message_trig (hsub.subset ha), d.message_trig (hsub.subset hb)]
  exact hlt

/-- No trigger number of a front-end is received twice. -/
theorem trigsOnce (h : Leb.Streams d t) : TrigsOnce (messages t) := by
  refine ordered_messages h fun i => ?_
  obtain ⟨rs, hsub, hperm⟩ := received_of_task h i
  refine (hperm.pairwise_iff fun hne => hne.symm).mp ?_
  exact (pairwise_trig hsub).imp fun hlt => hlt.ne

/-- The trigger numbers of each front-end increase along what is received in an ordered run. -/
theorem trigOrdered (h : Leb.Streams d t) (hord : t.InOrder) : TrigOrdered (messages t) := by
  refine ordered_messages h fun i => ?_
  obtain ⟨rs, hsub, heq⟩ := received_in_order h hord i
  rw [heq]
  exact pairwise_trig hsub

theorem inOrder_of_run
    (hrun : Transition.run Leb.step (Leb.start frontEnds eb) actions = some t)
    (hdrained : Transition.Meets Leb.step Leb.ConnectsDrained (Leb.start frontEnds eb) actions) :
    t.InOrder :=
  (Transition.run_invariant_of_meets (I := fun s : Leb n => s.InOrder ∧ s.Wired)
    ⟨Leb.inOrder_start frontEnds eb, Leb.wired_start frontEnds eb⟩
    (fun _ _ _ hs hc h => ⟨hs.1.step hs.2 hc h, hs.2.step h⟩) hrun hdrained).1

end Run

end Deliveries

end LebStudy
