import LebStudy.Leb.Connections

/-!
# Commands from `comtoleb`

Any number of `comtoleb` programs, each with the words that are typed into it, and `leb` at the
other end of their connections. `zmq` keeps the messages of a connection in order, and
`remote_command_loop` takes the next one from whichever connection it comes to.
-/

namespace LebStudy

/-! ### The words -/

/-- The line that `remote_command_loop` compares: the message up to a zero byte. -/
def oneline (message : List Char) : List Char := message.takeWhile (· ≠ Char.ofNat 0)

namespace Command

/-- `if (oneline == "run")` and what follows it. -/
def ofMessage (message : List Char) : Command :=
  let oneline := oneline message
  if oneline = "run".toList then .run
  else if oneline = "idle".toList then .idle
  else if oneline = "stop".toList then .stop
  else if oneline = "init".toList then .init
  else if oneline = "end".toList then .end
  else if oneline = "exit".toList ∨ oneline = "quit".toList ∨ oneline = "q".toList then .exit
  else .other

/-- The state that a command leaves, if it sets one. -/
def state : Command → Option RunState
  | .run => some .smRunning
  | .idle | .stop => some .smIdle
  | .init => some .smInit
  | .end => some .smEnd
  | .exit | .other => none

/-- The state behind these commands; the command loop begins in `SM_RUNNING`. -/
def stateAfter (cs : List Command) : RunState := (cs.filterMap state).getLast?.getD .smRunning

theorem stateAfter_concat (cs : List Command) (c : Command) :
    stateAfter (cs ++ [c]) = c.state.getD (stateAfter cs) := by
  rw [stateAfter, List.filterMap_append]
  cases hc : c.state with
  | none => simp [hc, stateAfter]
  | some state => simp [hc]

end Command

/-! ### The programs -/

/-- Where a `comtoleb` stands: in `command_loop`, in `send_one_command`, or at its end. -/
inductive ComtolebPc
  | loop
  | one (command : List Char)
  | ended
  deriving DecidableEq, Repr

/-- `cin` are the words that are still to be read. -/
structure Comtoleb where
  pc : ComtolebPc
  cin : List (List Char)
  deriving DecidableEq, Repr

namespace Comtoleb

def start (command : List Char) (cin : List (List Char)) : Comtoleb :=
  ⟨if command = [] then .loop else .one command, cin⟩

/-- `std::cin >> oneline`, which leaves an empty line at the end of the words. -/
def read (s : Comtoleb) : List Char × Comtoleb :=
  match s.cin with
  | [] => ([], s)
  | word :: cin => (word, { s with cin := cin })

/-- One turn, and the message that it sends; `sends` says whether `socket.send` does not throw. -/
def step (s : Comtoleb) (sends : Bool) : Option (Comtoleb × Option (List Char)) :=
  match s.pc with
  | .loop =>
    let (oneline, s) := s.read
    if oneline = "q".toList then some ({ s with pc := .ended }, none)
    else if sends then some (s, some oneline)
    else some ({ s with pc := .ended }, none)
  | .one command =>
    some ({ s with pc := .ended }, if sends then some command else none)
  | .ended => none

/-- What a `comtoleb` can have sent: its command, or a beginning of the words typed, with empty
lines behind their end, and no `q`. -/
def Sends (command : List Char) (cin sent : List (List Char)) : Prop :=
  if command = [] then
    (∃ k, sent <+: cin ++ List.replicate k []) ∧ "q".toList ∉ sent
  else sent <+: [command]

/-- The same where it stands. -/
def Sent (command : List Char) (cin sent : List (List Char)) (s : Comtoleb) : Prop :=
  match s.pc with
  | .loop => command = [] ∧ "q".toList ∉ sent ∧
      ∃ k, sent ++ s.cin = cin ++ List.replicate k [] ∧ (0 < k → s.cin = [])
  | .one c => command ≠ [] ∧ c = command ∧ sent = []
  | .ended => Sends command cin sent

variable {command : List Char} {cin sent : List (List Char)} {s t : Comtoleb}

theorem Sent.sends (h : s.Sent command cin sent) : Sends command cin sent := by
  unfold Sent at h
  split at h
  · obtain ⟨hcommand, hq, k, hsent, -⟩ := h
    rw [Sends, if_pos hcommand]
    exact ⟨⟨k, hsent ▸ List.prefix_append _ _⟩, hq⟩
  · obtain ⟨hcommand, -, rfl⟩ := h
    rw [Sends, if_neg hcommand]
    exact List.nil_prefix
  · exact h

theorem sent_start (command : List Char) (cin : List (List Char)) :
    (start command cin).Sent command cin [] := by
  by_cases hcommand : command = []
  · rw [start, if_pos hcommand]
    exact ⟨hcommand, List.not_mem_nil, 0, (List.append_nil cin).symm, fun h => absurd h (by decide)⟩
  · rw [start, if_neg hcommand]
    exact ⟨hcommand, rfl, rfl⟩

/-- A line read goes over from what is typed to what can be sent. -/
theorem read_sent {k : ℕ} (h : sent ++ s.cin = cin ++ List.replicate k [])
    (hk : 0 < k → s.cin = []) :
    ∃ k', (sent ++ [s.read.1]) ++ s.read.2.cin = cin ++ List.replicate k' [] ∧
      (0 < k' → s.read.2.cin = []) ∧ s.read.2.pc = s.pc := by
  unfold read
  split
  · next hcin =>
    refine ⟨k + 1, ?_, fun _ => hcin, rfl⟩
    rw [hcin, List.append_nil] at h
    rw [hcin, List.append_nil, h, List.replicate_succ', List.append_assoc]
  · next word rest hcin =>
    refine ⟨k, ?_, fun hpos => ?_, rfl⟩
    · rw [← h, hcin, List.append_assoc]
      rfl
    · rw [hcin] at hk
      cases hk hpos

theorem Sent.step {sends : Bool} {message : Option (List Char)} (h : s.Sent command cin sent)
    (hstep : s.step sends = some (t, message)) :
    t.Sent command cin (sent ++ message.toList) := by
  have hold := h.sends
  unfold Sent at h
  unfold Comtoleb.step at hstep
  split at h
  · next hpc =>
    obtain ⟨hcommand, hq, k, hsent, hk⟩ := h
    obtain ⟨k', hread, hk', hpc'⟩ := read_sent hsent hk
    simp only [hpc] at hstep
    split at hstep
    · cases hstep
      simpa [Sent] using hold
    · next hnot =>
      split at hstep
      · cases hstep
        rw [hpc] at hpc'
        simp only [Sent, hpc', Option.toList_some]
        refine ⟨hcommand, ?_, k', hread, hk'⟩
        rw [List.mem_append, List.mem_singleton]
        exact fun h => h.elim hq (Ne.symm hnot)
      · cases hstep
        simpa [Sent] using hold
  · next c hpc =>
    obtain ⟨hcommand, rfl, rfl⟩ := h
    simp only [hpc] at hstep
    cases hstep
    simp only [Sent, Sends, if_neg hcommand]
    cases sends <;> simp
  · next hpc =>
    simp only [hpc] at hstep
    cases hstep

end Comtoleb

/-! ### The command loop -/

namespace Daq

variable {n : ℕ} {s t : Daq n}

/-- `init_sequence` has not set the state yet. -/
def Clearing : CommandPc → Prop
  | .clearDone _ | .clearGood _ | .setInit => True
  | .receive | .poll _ _ | .testGood _ => False

/-- What the commands given so far have done to the state and to `main`, which comes to its exit
without a command only from an initialisation that has failed. -/
structure Commanded (s : Daq n) (cs : List Command) : Prop where
  clearing : s.startup.main = .commands → Clearing s.command →
    Command.stateAfter cs = .smInit
  settled : s.startup.main = .commands → ¬ Clearing s.command →
    s.startup.cState = Command.stateAfter cs
  staying : s.startup.main = .commands → Command.exit ∉ cs
  left : s.startup.main = .setExit ∨ s.startup.main = .joining →
    (cs = [] ∧ s.startup.isGoodInit = false) ∨
      ∃ front, cs = front ++ [.exit] ∧ Command.exit ∉ front
  starting : s.startup.main ≠ .commands → s.startup.main ≠ .setExit →
    s.startup.main ≠ .joining → cs = []
  idle : cs = [] → s.command = .receive

theorem mainStep_not_commands {s t : Startup n} (h : s.mainStep = some t) :
    s.main ≠ .commands ∧ s.main ≠ .joining ∧
      ((s.main = .setExit ∧ t.main = .joining ∧ t.isGoodInit = s.isGoodInit) ∨
        (s.main ≠ .setExit ∧ t.main ≠ .joining ∧
          (t.main = .commands → t.cState = .smRunning) ∧
          (t.main = .setExit → t.isGoodInit = false))) := by
  cases hmain : s.main with
  | commands | joining => simp [Startup.mainStep, hmain] at h
  | setExit | setInit | setIdle | setRunning =>
    simp only [Startup.mainStep, hmain] at h
    cases h
    simp
  | run k | clearDone k | clearGood k =>
    simp only [Startup.mainStep, hmain] at h
    split at h <;> cases h <;> simp
  | waitDone k | testGood k =>
    simp only [Startup.mainStep, hmain] at h
    split at h
    · split at h <;> cases h <;> simp [hmain]
    · cases h
      simp
  | decide =>
    simp only [Startup.mainStep, hmain] at h
    split at h
    · cases h
      simp
    · next hbad =>
      cases h
      simpa using hbad

theorem Commanded.main {cs : List Command} {startup : Startup n} (hs : s.Commanded cs)
    (h : s.startup.mainStep = some startup) : Commanded { s with startup := startup } cs := by
  obtain ⟨hcommands, hjoining, ⟨hexit, hjoin, hgood⟩ | ⟨hexit, hjoin, hrunning, hbad⟩⟩ :=
    mainStep_not_commands h
  · have hout : startup.main ≠ .commands := by rw [hjoin]; decide
    refine ⟨fun h => absurd h hout, fun h => absurd h hout, fun h => absurd h hout,
      fun _ => ?_, fun _ _ h => absurd hjoin h, hs.idle⟩
    rw [hgood]
    exact hs.left (.inl hexit)
  · have hnil := hs.starting hcommands hexit hjoining
    have hidle := hs.idle hnil
    refine ⟨?_, ?_, ?_, fun hleft => .inl ⟨hnil, hbad (hleft.resolve_right hjoin)⟩,
      fun _ _ _ => hnil, hs.idle⟩
    · intro _ hclearing
      rw [hidle] at hclearing
      exact hclearing.elim
    · intro hmain _
      rw [hnil]
      exact hrunning hmain
    · rw [hnil]
      exact fun _ => List.not_mem_nil

/-- The command loop waits for the next message. -/
theorem commanded_of_receive {cs : List Command} (hmain : s.startup.main = .commands)
    (hcommand : s.command = .receive) (hstate : s.startup.cState = Command.stateAfter cs)
    (hexit : Command.exit ∉ cs) : s.Commanded cs := by
  refine ⟨?_, fun _ _ => hstate, fun _ => hexit, ?_, fun h => absurd hmain h, fun _ => hcommand⟩
  · intro _ hclearing
    rw [hcommand] at hclearing
    exact hclearing.elim
  · rw [hmain]
    rintro (h | h) <;> cases h

theorem not_clearing_receive : ¬ Clearing .receive := id

theorem Commanded.obey {cs : List Command} (hs : s.Commanded cs)
    (hmain : s.startup.main = .commands) (hcommand : s.command = .receive) (c : Command) :
    (s.obey c).Commanded (cs ++ [c]) := by
  have hstaying := hs.staying hmain
  have hsettled := hs.settled hmain (hcommand ▸ not_clearing_receive)
  have hstate := Command.stateAfter_concat cs c
  have hexit : c ≠ .exit → Command.exit ∉ cs ++ [c] := by
    intro hc hmem
    obtain hmem | hmem := List.mem_append.mp hmem
    · exact hstaying hmem
    · exact hc (List.mem_singleton.mp hmem).symm
  cases c with
  | run | idle | stop | «end» =>
    exact commanded_of_receive hmain hcommand hstate.symm (hexit (by decide))
  | other =>
    exact commanded_of_receive hmain hcommand (hsettled.trans hstate.symm) (hexit (by decide))
  | init =>
    refine ⟨fun _ _ => hstate, fun _ h => absurd trivial h, fun _ => hexit (by decide), ?_,
      fun h => absurd hmain h, fun h => absurd h (by simp)⟩
    show s.startup.main = .setExit ∨ s.startup.main = .joining → _
    rw [hmain]
    rintro (h | h) <;> cases h
  | exit =>
    have hout : (s.obey .exit).startup.main ≠ .commands := by
      show MainPc.setExit ≠ .commands
      decide
    exact ⟨fun h => absurd h hout, fun h => absurd h hout, fun h => absurd h hout,
      fun _ => .inr ⟨cs, rfl, hstaying⟩, fun _ h => absurd rfl h, fun h => absurd h (by simp)⟩

/-- What a step of `init_sequence` does to the state. -/
theorem initSequence_state (h : s.initSequence = some t) :
    s.command ≠ .receive ∧ t.startup.main = s.startup.main ∧
      ((Clearing s.command ∧ Clearing t.command) ∨
        (Clearing s.command ∧ ¬ Clearing t.command ∧ t.startup.cState = .smInit) ∨
        (¬ Clearing s.command ∧ ¬ Clearing t.command ∧
          t.startup.cState = s.startup.cState)) := by
  cases hcommand : s.command with
  | receive => simp [Daq.initSequence, hcommand] at h
  | clearDone k | clearGood k =>
    simp only [Daq.initSequence, hcommand] at h
    split at h <;> cases h <;> simp [Clearing, Startup.setTask]
  | setInit =>
    simp only [Daq.initSequence, hcommand] at h
    cases h
    simp [Clearing]
  | poll k j =>
    simp only [Daq.initSequence, hcommand] at h
    split at h
    · split at h
      · split at h <;> cases h <;> simp [Clearing]
      · cases h
        simp [Clearing]
    · cases h
      simp [Clearing]
  | testGood k =>
    simp only [Daq.initSequence, hcommand] at h
    split at h
    · split at h <;> cases h <;> simp [Clearing]
    · cases h
      simp [Clearing]

theorem Commanded.initSequence {cs : List Command} (hs : s.Commanded cs)
    (hmain : s.startup.main = .commands) (h : s.initSequence = some t) : t.Commanded cs := by
  obtain ⟨hbusy, hsame, hkind⟩ := initSequence_state h
  have hmain' : t.startup.main = .commands := hsame.trans hmain
  refine ⟨?_, ?_, fun _ => hs.staying hmain, ?_, fun h => absurd hmain' h,
    fun h => absurd (hs.idle h) hbusy⟩
  · intro _ hclearing
    obtain ⟨hs', -⟩ | ⟨-, hnot, -⟩ | ⟨-, hnot, -⟩ := hkind
    · exact hs.clearing hmain hs'
    · exact absurd hclearing hnot
    · exact absurd hclearing hnot
  · intro _ hnot
    obtain ⟨-, hclearing⟩ | ⟨hs', -, hstate⟩ | ⟨hs', -, hstate⟩ := hkind
    · exact absurd hclearing hnot
    · rw [hstate, hs.clearing hmain hs']
    · rw [hstate, hs.settled hmain hs']
  · rw [hmain']
    rintro (h | h) <;> cases h

theorem Commanded.task {cs : List Command} {i : Fin n} {connected : Bool} (hs : s.Commanded cs)
    (h : s.step (.task i connected) = some t) : t.Commanded cs := by
  obtain ⟨startup, hstartup, rfl⟩ := Option.map_eq_some_iff.mp h
  obtain ⟨task, -, rfl⟩ := Option.map_eq_some_iff.mp hstartup
  exact ⟨hs.clearing, hs.settled, hs.staying, hs.left, hs.starting, hs.idle⟩

theorem commanded_start (connects mIsGood : Fin n → Bool) :
    (start connects mIsGood).Commanded [] := by
  refine ⟨?_, ?_, ?_, ?_, fun _ _ _ => rfl, fun _ => rfl⟩
  · intro h
    cases h
  · intro h
    cases h
  · intro h
    cases h
  · rintro (h | h) <;> cases h

end Daq

/-! ### `leb` and the programs -/

/-- `queues` are the messages under way, `taken` those that `leb` has taken so far, each with its
program. -/
structure Control (m n : ℕ) where
  daq : Daq n
  comtolebs : Fin m → Comtoleb
  queues : Fin m → List (List Char)
  taken : List (Fin m × List Char)

inductive ControlAction (m n : ℕ)
  | comtoleb (j : Fin m) (sends : Bool)
  /-- `leb` takes the next message of a program. -/
  | receive (j : Fin m)
  | main
  | sequence
  | task (i : Fin n) (connected : Bool)

namespace Control

variable {m n : ℕ}

def start (connects mIsGood : Fin n → Bool) (command : Fin m → List Char)
    (cin : Fin m → List (List Char)) : Control m n :=
  ⟨.start connects mIsGood, fun j => .start (command j) (cin j), fun _ => [], []⟩

def step (s : Control m n) : ControlAction m n → Option (Control m n)
  | .comtoleb j sends =>
    ((s.comtolebs j).step sends).map fun (comtoleb, message) =>
      { s with
        comtolebs := Function.update s.comtolebs j comtoleb
        queues := Function.update s.queues j (s.queues j ++ message.toList) }
  | .receive j =>
    match s.queues j with
    | [] => none
    | message :: queue =>
      (s.daq.step (.command (Command.ofMessage message))).map fun daq =>
        { s with
          daq := daq
          queues := Function.update s.queues j queue
          taken := s.taken ++ [(j, message)] }
  | .main => (s.daq.step .main).map fun daq => { s with daq := daq }
  | .sequence => (s.daq.step .sequence).map fun daq => { s with daq := daq }
  | .task i connected => (s.daq.step (.task i connected)).map fun daq => { s with daq := daq }

/-- The commands that `leb` has taken, in order. -/
def commands (s : Control m n) : List Command := s.taken.map fun x => Command.ofMessage x.2

/-- What a program has sent: what `leb` has taken of it, and what is under way. -/
def sent (s : Control m n) (j : Fin m) : List (List Char) :=
  (s.taken.filter (·.1 = j)).map Prod.snd ++ s.queues j

/-- A command among the steps of `leb`. -/
def command? : DaqAction n → Option Command
  | .command c => some c
  | .main | .sequence | .task _ _ => none

variable {connects mIsGood : Fin n → Bool} {command : Fin m → List Char}
  {cin : Fin m → List (List Char)} {s t : Control m n} {as : List (DaqAction n)}

/-- `leb` has taken these steps, with the commands in the order of the messages. -/
def Follows (connects mIsGood : Fin n → Bool) (s : Control m n) : Prop :=
  ∃ as, Transition.run Daq.step (.start connects mIsGood) as = some s.daq ∧
    as.filterMap command? = s.commands

structure Obeyed (connects mIsGood : Fin n → Bool) (command : Fin m → List Char)
    (cin : Fin m → List (List Char)) (s : Control m n) : Prop where
  sent : ∀ j, (s.comtolebs j).Sent (command j) (cin j) (s.sent j)
  follows : s.Follows connects mIsGood
  commanded : s.daq.Commanded s.commands

theorem Follows.concat {a : DaqAction n} (hs : s.Follows connects mIsGood)
    (h : s.daq.step a = some t.daq) (hcommands : t.commands = s.commands ++ (command? a).toList) :
    t.Follows connects mIsGood := by
  obtain ⟨as, hrun, has⟩ := hs
  refine ⟨as ++ [a], Transition.run_concat_eq_some.mpr ⟨s.daq, hrun, h⟩, ?_⟩
  rw [List.filterMap_append, has, hcommands]
  cases hc : command? a <;> simp [hc]

theorem obeyed_start (connects mIsGood : Fin n → Bool) (command : Fin m → List Char)
    (cin : Fin m → List (List Char)) :
    (start connects mIsGood command cin).Obeyed connects mIsGood command cin where
  sent j := Comtoleb.sent_start (command j) (cin j)
  follows := ⟨[], rfl, rfl⟩
  commanded := Daq.commanded_start connects mIsGood

/-- A step of a program puts its message behind those under way. -/
theorem Obeyed.comtoleb {j : Fin m} {sends : Bool}
    (hs : s.Obeyed connects mIsGood command cin)
    (h : s.step (.comtoleb j sends) = some t) : t.Obeyed connects mIsGood command cin := by
  obtain ⟨⟨comtoleb, message⟩, hstep, rfl⟩ := Option.map_eq_some_iff.mp h
  refine ⟨fun j' => ?_, hs.follows, hs.commanded⟩
  by_cases hj : j' = j
  · subst hj
    have hsent := (hs.sent j').step hstep
    simp only [Control.sent, Function.update_self]
    rw [← List.append_assoc]
    exact hsent
  · simp only [Control.sent, Function.update_of_ne hj]
    exact hs.sent j'

/-- A message that `leb` takes stays where it was among those of its program. -/
theorem Obeyed.receive {j : Fin m} (hs : s.Obeyed connects mIsGood command cin)
    (h : s.step (.receive j) = some t) : t.Obeyed connects mIsGood command cin := by
  cases hqueue : s.queues j with
  | nil => simp [step, hqueue] at h
  | cons message queue =>
    simp only [step, hqueue] at h
    obtain ⟨daq, hdaq, rfl⟩ := Option.map_eq_some_iff.mp h
    have hcommands : ∀ queues, (Control.mk daq s.comtolebs queues
        (s.taken ++ [(j, message)])).commands = s.commands ++ [Command.ofMessage message] :=
      fun _ => List.map_append
    refine ⟨fun j' => ?_, hs.follows.concat hdaq (hcommands _), ?_⟩
    · have hsame : (Control.mk daq s.comtolebs (Function.update s.queues j queue)
          (s.taken ++ [(j, message)])).sent j' = s.sent j' := by
        by_cases hj : j' = j
        · subst hj
          simp [Control.sent, hqueue]
        · simp [Control.sent, Function.update_of_ne hj, Ne.symm hj]
      rw [hsame]
      exact hs.sent j'
    · rw [hcommands]
      obtain ⟨⟨hmain, hcommand⟩, hobey⟩ := Option.ite_none_right_eq_some.mp hdaq
      rw [← Option.some.inj hobey]
      exact hs.commanded.obey hmain hcommand (.ofMessage message)

theorem Obeyed.step {a : ControlAction m n} (hs : s.Obeyed connects mIsGood command cin)
    (h : s.step a = some t) : t.Obeyed connects mIsGood command cin := by
  cases a with
  | comtoleb j sends => exact hs.comtoleb h
  | receive j => exact hs.receive h
  | main =>
    obtain ⟨daq, hdaq, rfl⟩ := Option.map_eq_some_iff.mp h
    refine ⟨hs.sent, hs.follows.concat hdaq (List.append_nil _).symm, ?_⟩
    obtain ⟨startup, hstartup, rfl⟩ := Option.map_eq_some_iff.mp hdaq
    exact hs.commanded.main hstartup
  | sequence =>
    obtain ⟨daq, hdaq, rfl⟩ := Option.map_eq_some_iff.mp h
    refine ⟨hs.sent, hs.follows.concat hdaq (List.append_nil _).symm, ?_⟩
    obtain ⟨hmain, hsequence⟩ := Option.ite_none_right_eq_some.mp hdaq
    exact hs.commanded.initSequence hmain hsequence
  | task i connected =>
    obtain ⟨daq, hdaq, rfl⟩ := Option.map_eq_some_iff.mp h
    exact ⟨hs.sent, hs.follows.concat hdaq (List.append_nil _).symm, hs.commanded.task hdaq⟩

/-- `leb` is in its command loop, or has taken a command. -/
def Entered (s : Control m n) : Prop := s.daq.startup.main = .commands ∨ s.commands ≠ []

theorem Entered.step {a : ControlAction m n} (hs : s.Entered) (h : s.step a = some t) :
    t.Entered := by
  cases a with
  | comtoleb j sends =>
    obtain ⟨⟨comtoleb, message⟩, -, rfl⟩ := Option.map_eq_some_iff.mp h
    exact hs
  | receive j =>
    cases hqueue : s.queues j with
    | nil => simp [Control.step, hqueue] at h
    | cons message queue =>
      simp only [Control.step, hqueue] at h
      obtain ⟨daq, -, rfl⟩ := Option.map_eq_some_iff.mp h
      exact .inr (by simp [commands])
  | main =>
    obtain ⟨daq, hdaq, rfl⟩ := Option.map_eq_some_iff.mp h
    obtain ⟨startup, hstartup, rfl⟩ := Option.map_eq_some_iff.mp hdaq
    obtain ⟨hcommands, -⟩ := Daq.mainStep_not_commands hstartup
    exact .inr (hs.resolve_left hcommands)
  | sequence =>
    obtain ⟨daq, hdaq, rfl⟩ := Option.map_eq_some_iff.mp h
    obtain ⟨hmain, hsequence⟩ := Option.ite_none_right_eq_some.mp hdaq
    obtain ⟨-, hsame, -⟩ := Daq.initSequence_state hsequence
    exact .inl (hsame.trans hmain)
  | task i connected =>
    obtain ⟨daq, hdaq, rfl⟩ := Option.map_eq_some_iff.mp h
    obtain ⟨startup, hstartup, rfl⟩ := Option.map_eq_some_iff.mp hdaq
    obtain ⟨task, -, rfl⟩ := Option.map_eq_some_iff.mp hstartup
    exact hs

/-- The command loop is left with the first command to exit. -/
theorem Obeyed.left (hs : s.Obeyed connects mIsGood command cin) (hentered : s.Entered)
    (hleft : s.daq.startup.main ≠ .commands) :
    ∃ front, s.commands = front ++ [.exit] ∧ Command.exit ∉ front := by
  have hsome := hentered.resolve_left hleft
  by_cases hout : s.daq.startup.main = .setExit ∨ s.daq.startup.main = .joining
  · exact (hs.commanded.left hout).resolve_left fun hnil => hsome hnil.1
  · rw [not_or] at hout
    exact absurd (hs.commanded.starting hleft hout.1 hout.2) hsome

/-- Whatever is typed into the programs, and however they, `leb` and its tasks interleave: a program
has sent the beginning of its words, each message is taken once and in its order or is still under
way, `leb` is in a run of its own with these commands, and its state is that of the last of them. It
leaves its command loop at the first command to exit, and at nothing else. -/
theorem commands_obeyed (connects mIsGood : Fin n → Bool) (command : Fin m → List Char)
    (cin : Fin m → List (List Char)) (actions : List (ControlAction m n)) (s : Control m n)
    (hrun : Transition.run step (start connects mIsGood command cin) actions = some s) :
    (∀ j, Comtoleb.Sends (command j) (cin j) (s.sent j)) ∧ s.Follows connects mIsGood ∧
      s.daq.Commanded s.commands ∧
      (s.daq.startup.main = .commands → ∀ more t, Transition.run step s more = some t →
        t.daq.startup.main ≠ .commands →
        ∃ front, t.commands = front ++ [.exit] ∧ Command.exit ∉ front) := by
  have hs : s.Obeyed connects mIsGood command cin :=
    Transition.run_invariant (obeyed_start connects mIsGood command cin)
      (fun _ _ _ hs h => hs.step h) hrun
  refine ⟨fun j => (hs.sent j).sends, hs.follows, hs.commanded, fun hmain more t hmore hleft => ?_⟩
  have ht : t.Obeyed connects mIsGood command cin :=
    Transition.run_invariant hs (fun _ _ _ hs h => hs.step h) hmore
  have hentered : t.Entered :=
    Transition.run_invariant (I := Entered) (.inl hmain) (fun _ _ _ hs h => hs.step h) hmore
  exact ht.left hentered hleft

/-- The first program sends `stop`; in the second one nothing goes out behind the `q`. -/
def typed (j : Fin 2) : List Char := if j.val = 0 then "stop".toList else []

def stopped : List (ControlAction 2 2) :=
  let first : Fin 2 := (Fin.last 0).castSucc
  let second : Fin 2 := Fin.last 1
  List.replicate 10 .main ++ List.replicate 4 (.task first true) ++
    List.replicate 4 (.task second true) ++ List.replicate 9 .main ++
    [.comtoleb first true, .comtoleb second true, .comtoleb second true, .receive second,
      .receive first]

theorem commands_obeyed_stopped :
    ∃ s, Transition.run step (start (fun _ => true) (fun _ => true) typed
        fun _ => ["run".toList, "q".toList, "exit".toList]) stopped = some s ∧
      s.daq.startup.cState = .smIdle ∧ s.sent (Fin.last 1) = ["run".toList] ∧
      ∀ more t, Transition.run step s more = some t → t.daq.startup.main ≠ .commands →
        ∃ front, t.commands = front ++ [.exit] ∧ Command.exit ∉ front := by
  have h : (Transition.run step (start (fun _ => true) (fun _ => true) typed
      fun _ => ["run".toList, "q".toList, "exit".toList]) stopped).map (fun s =>
        (s.daq.startup.main, s.daq.command, s.commands, s.sent (Fin.last 1))) =
      some (.commands, .receive, [.run, .stop], ["run".toList]) := by decide +kernel
  obtain ⟨s, hrun, h⟩ := Option.map_eq_some_iff.mp h
  simp only [Prod.mk.injEq] at h
  obtain ⟨hmain, hcommand, hcommands, hsent⟩ := h
  obtain ⟨-, -, hstate, hleft⟩ := commands_obeyed _ _ typed _ stopped s hrun
  refine ⟨s, hrun, ?_, hsent, hleft hmain⟩
  have hsettled := hstate.settled hmain (by rw [hcommand]; exact Daq.not_clearing_receive)
  rw [hsettled, hcommands]
  rfl

end Control

end LebStudy
