import LebStudy.Leb.System
import LebStudy.Lib.Transition
import LebStudy.Rear.WriteData

/-!
# The tasks of `dtmain` together

`DTavant` cuts a stream into blocks of `m_bufsize` bytes and hands each to `DTrear`, which gives it
to `write_data`. The two tasks share `c_state`, which only `main` sets, and `g_avant_depth`. Each
activation of `DTavant` connects a sender of its own, and each of `DTrear` binds a receiver of its
own; there is no order between the pipes of a receiver. The receiver has one message for all turns
of its loop, and gives its buffer back when it tries to receive the next.
-/

namespace LebStudy

/-- A message with a buffer of `DTavant`, without its first word. `index` is history: the number of
the block. -/
structure Block where
  index : ℕ
  sender : Sender
  data : List UInt8
  deriving DecidableEq, Repr

/-- Where the thread of `DTavant` stands. -/
inductive AvantPc
  /-- before the `switch (c_state)` of `state_machine` -/
  | stateMachine
  /-- before `sender.connect(g_snd_endpoint)` -/
  | connect
  /-- before `if (c_state != SM_RUNNING) break` -/
  | loopTest
  | allocate
  | read
  | send (block : Block)
  /-- before `if (c_state == SM_EXIT) break` of `state_machine` -/
  | exitTest
  | ended
  deriving DecidableEq, Repr

/-- Where the thread of `DTrear` stands. -/
inductive RearPc
  | stateMachine
  /-- before `if ((c_state != SM_RUNNING) && (g_avant_depth <= 0)) break` -/
  | loopTest
  | recv
  | exitTest
  | ended
  deriving DecidableEq, Repr

/-- `DTrear` is in its loop. -/
def RearPc.InLoop : RearPc → Prop
  | .loopTest | .recv => True
  | .stateMachine | .exitTest | .ended => False

instance (pc : RearPc) : Decidable pc.InLoop := by
  unfold RearPc.InLoop
  split <;> infer_instance

/-- Where `main` stands behind the initialisation. -/
inductive DtMainPc
  /-- before `set_state(SM_IDLE)` -/
  | idle
  /-- before `set_state(SM_RUNNING)` -/
  | running
  /-- before `std::cin >> oneline` -/
  | word
  /-- before `set_state(SM_IDLE)` behind the loop -/
  | leave
  /-- before `set_state(SM_END)` -/
  | finish
  | joinAvant
  | joinRear
  | ended
  deriving DecidableEq, Repr

/-- The program. `sender` is that of the activation that `DTavant` is in, or was in last, `queue` is
what is in all pipes, in the order in which it was sent, `message` is whether the receiver's message
has a buffer, and `leaves` is how often `DTrear` has left its loop. The last five fields are
history: how many blocks `DTavant` has read, how many of its sends have failed, how many turns it
has begun with a sender whose receiver is closed, how many buffers were left behind, and the blocks
that `DTrear` has received. -/
structure Dtmain where
  cState : RunState
  gAvantDepth : ℤ
  main : DtMainPc
  mIsDummy : Bool
  mBufsize : ℕ
  tcp : TcpBuffer
  avant : AvantPc
  sender : Sender
  queue : List Block
  rear : RearPc
  message : Bool
  mNspill : ℕ
  writer : SpillWriter
  leaves : ℕ
  reads : ℕ
  failed : ℕ
  stale : ℕ
  leaked : ℕ
  received : List Block

/-- Who takes a step, and what it meets. -/
inductive DtAction
  | main (oneline : String)
  | avant (allocates sends : Bool)
  /-- `sender.connect`; `late` if it still gets at the receiver that `DTrear` has closed last. -/
  | connect (late : Bool)
  /-- `found` is the activation whose pipe `recv` finds a message in, if it finds one. -/
  | rear (found : Option ℕ)
  /-- A message to a receiver that is closed is destroyed. -/
  | destroy (block : Block)
  deriving DecidableEq, Repr

/-- The words of a buffer, as a little-endian host has them. -/
def wordsOf : List UInt8 → List UInt32
  | a :: b :: c :: d :: bytes =>
    UInt32.ofNat (BigEndian.beNat [d, c, b, a]) :: wordsOf bytes
  | _ => []

/-- `data[i] = i & 0xff` -/
def dummyData (bufsize : ℕ) : List UInt8 :=
  (List.range bufsize).map fun i => UInt8.ofNat (i &&& 0xff)

namespace Dtmain

/-- The tasks are initialised, unless `is_good_init` is false, and `main` goes on behind that. -/
def start (isGoodInit mIsDummy : Bool) (mBufsize mNspill : ℕ) (socket : Socket) : Dtmain where
  cState := .smInit
  gAvantDepth := 0
  main := if isGoodInit then .idle else .finish
  mIsDummy := mIsDummy
  mBufsize := mBufsize
  tcp := .start socket
  avant := .stateMachine
  sender := ⟨0, 0⟩
  queue := []
  rear := .stateMachine
  message := false
  mNspill := mNspill
  writer := .start
  leaves := 0
  reads := 0
  failed := 0
  stale := 0
  leaked := 0
  received := []

/-- The state that a word of the loop in `main` sets. -/
def stateOf (oneline : String) : Option RunState :=
  if oneline = "run" then some .smRunning else if oneline = "idle" then some .smIdle else none

/-- `main`; none where a join waits. -/
def mainStep (s : Dtmain) (oneline : String) : Option Dtmain :=
  match s.main with
  | .idle => some { s with cState := .smIdle, main := .running }
  | .running => some { s with cState := .smRunning, main := .word }
  | .word =>
    let s := { s with cState := (stateOf oneline).getD s.cState }
    if oneline ∈ ["end", "stop", "exit", "q"] then some { s with main := .leave } else some s
  | .leave => some { s with cState := .smIdle, main := .finish }
  | .finish => some { s with cState := .smEnd, main := .joinAvant }
  | .joinAvant => if s.avant = .ended then some { s with main := .joinRear } else none
  | .joinRear => if s.rear = .ended then some { s with main := .ended } else none
  | .ended => none

/-- `state_machine` of `DTavant`, with `st_running` in it; none where a read blocks, or where the
sender is to be connected. -/
def avantStep (s : Dtmain) (allocates sends : Bool) : Option Dtmain :=
  match s.avant with
  | .stateMachine =>
    -- in all other states the task sleeps for a while
    if s.cState = .smRunning then some { s with avant := .connect }
    else some { s with avant := .exitTest }
  | .connect => none
  | .loopTest =>
    if s.cState = .smRunning then
      some { s with
        avant := .allocate
        stale := s.stale + if s.sender.receiver < s.leaves then 1 else 0 }
    else some { s with avant := .exitTest }
  | .allocate =>
    if allocates then some { s with avant := .read, gAvantDepth := s.gAvantDepth + 1 }
    else some { s with avant := .exitTest }
  | .read =>
    let done (s : Dtmain) (data : List UInt8) : Dtmain :=
      { s with avant := .send ⟨s.reads, s.sender, data⟩, reads := s.reads + 1 }
    if s.mIsDummy then some (done s (dummyData s.mBufsize))
    else
      (s.tcp.read s.mBufsize).map fun r =>
        let s := { s with tcp := r.tcp }
        match r.exception with
        | some _ => { s with avant := .exitTest, leaked := s.leaked + 1 }
        | none => done s r.data
  | .send block =>
    if sends then some { s with avant := .loopTest, queue := s.queue ++ [block] }
    else
      -- the message is destroyed, and its buffer with it
      some { s with
        avant := .exitTest
        gAvantDepth := s.gAvantDepth - 1
        failed := s.failed + 1 }
  | .exitTest =>
    if s.cState = .smExit then some { s with avant := .ended }
    else some { s with avant := .stateMachine }
  | .ended => none

/-- The sender is made and connected. Where no receiver is bound, zmq keeps what is sent for the
next one. -/
def connect (s : Dtmain) (late : Bool) : Option Dtmain :=
  if s.avant = .connect ∧ (late = true → ¬ s.rear.InLoop ∧ 0 < s.leaves) then
    some { s with
      avant := .loopTest
      sender := ⟨s.sender.activation + 1, if late then s.leaves - 1 else s.leaves⟩ }
  else none

/-- The exit condition of the loop in `DTrear::st_running`. -/
def ExitCondition (s : Dtmain) : Prop := s.cState ≠ .smRunning ∧ s.gAvantDepth ≤ 0

instance (s : Dtmain) : Decidable s.ExitCondition := inferInstanceAs (Decidable (_ ∧ _))

/-- What the message holds is given back. -/
def release (s : Dtmain) : Dtmain :=
  { s with
    gAvantDepth := s.gAvantDepth - (if s.message then 1 else 0)
    message := false }

/-- The message that `recv` finds: the first in a pipe to the present receiver. -/
def finds (s : Dtmain) (found : Option ℕ) : Option Block :=
  found.bind fun activation => s.queue.find? (·.sender = ⟨activation, s.leaves⟩)

/-- `receiver.recv(&message, ZMQ_NOBLOCK)` and, with a message, `write_data`. -/
def receive (time : ℕ → UInt64) (s : Dtmain) (found : Option ℕ) : Dtmain :=
  let s := { s.release with rear := .loopTest }
  match s.finds found with
  | none => s
  | some block =>
    { s with
      queue := s.queue.erase block
      message := true
      writer := (DTrear.writeData s.mNspill time (wordsOf block.data) s.writer).1
      received := s.received ++ [block] }

/-- `state_machine` of `DTrear`, with `st_running` in it. -/
def rearStep (time : ℕ → UInt64) (s : Dtmain) (found : Option ℕ) : Option Dtmain :=
  match s.rear with
  | .stateMachine =>
    if s.cState = .smRunning then some { s with rear := .loopTest }
    else some { s with rear := .exitTest }
  | .loopTest =>
    if s.ExitCondition then some { s.release with rear := .exitTest, leaves := s.leaves + 1 }
    else some { s with rear := .recv }
  | .recv => some (s.receive time found)
  | .exitTest =>
    if s.cState = .smExit then some { s with rear := .ended }
    else some { s with rear := .stateMachine }
  | .ended => none

def step (time : ℕ → UInt64) (s : Dtmain) : DtAction → Option Dtmain
  | .main oneline => s.mainStep oneline
  | .avant allocates sends => s.avantStep allocates sends
  | .connect late => s.connect late
  | .rear found => s.rearStep time found
  | .destroy block =>
    if block ∈ s.queue ∧ block.sender.receiver < s.leaves then
      some { s with queue := s.queue.erase block, gAvantDepth := s.gAvantDepth - 1 }
    else none

end Dtmain

namespace AvantPc

/-- In a turn of the loop. -/
def InTurn : AvantPc → Prop
  | .allocate | .read | .send _ => True
  | .stateMachine | .connect | .loopTest | .exitTest | .ended => False

/-- The buffers that `DTavant` has in hand. -/
def buffers : AvantPc → ℕ
  | .read | .send _ => 1
  | .stateMachine | .connect | .loopTest | .allocate | .exitTest | .ended => 0

/-- The block that `DTavant` has in hand. -/
def inHand : AvantPc → List Block
  | .send block => [block]
  | .stateMachine | .connect | .loopTest | .allocate | .read | .exitTest | .ended => []

end AvantPc

namespace Dtmain

/-! ### What a step does -/

/-- The steps of `DTavant`. -/
inductive AvantStep (s : Dtmain) : Dtmain → Prop
  /-- a test, or an allocation that fails -/
  | move (pc : AvantPc) (hs : s.avant.buffers = 0) (ht : ¬ pc.InTurn)
      (hended : pc = .ended → s.cState = .smExit) : s.AvantStep { s with avant := pc }
  | begin (hs : s.avant = .loopTest) : s.AvantStep { s with
      avant := .allocate
      stale := s.stale + if s.sender.receiver < s.leaves then 1 else 0 }
  | allocate (hs : s.avant = .allocate) :
      s.AvantStep { s with avant := .read, gAvantDepth := s.gAvantDepth + 1 }
  | dummy (hs : s.avant = .read) (hdummy : s.mIsDummy = true) : s.AvantStep { s with
      avant := .send ⟨s.reads, s.sender, dummyData s.mBufsize⟩
      reads := s.reads + 1 }
  | read (r : ReadResult) (hs : s.avant = .read) (hdummy : s.mIsDummy = false)
      (hread : s.tcp.read s.mBufsize = some r) (hexc : r.exception = none) : s.AvantStep { s with
        tcp := r.tcp
        avant := .send ⟨s.reads, s.sender, r.data⟩
        reads := s.reads + 1 }
  | throw (r : ReadResult) (hs : s.avant = .read) (hread : s.tcp.read s.mBufsize = some r)
      (hexc : r.exception ≠ none) :
      s.AvantStep { s with tcp := r.tcp, avant := .exitTest, leaked := s.leaked + 1 }
  | send (block : Block) (hs : s.avant = .send block) :
      s.AvantStep { s with avant := .loopTest, queue := s.queue ++ [block] }
  | fail (block : Block) (hs : s.avant = .send block) : s.AvantStep { s with
      avant := .exitTest
      gAvantDepth := s.gAvantDepth - 1
      failed := s.failed + 1 }

/-- The steps of `DTrear`. -/
inductive RearStep (time : ℕ → UInt64) (s : Dtmain) : Dtmain → Prop
  | move (pc : RearPc) (hended : pc = .ended → s.cState = .smExit) :
      s.RearStep time { s with rear := pc }
  | leave (hexit : s.ExitCondition) :
      s.RearStep time { s.release with rear := .exitTest, leaves := s.leaves + 1 }
  | idle : s.RearStep time { s.release with rear := .loopTest }
  | receive (block : Block) (hmem : block ∈ s.queue)
      (hpresent : block.sender.receiver = s.leaves)
      (hfirst : s.queue.find? (·.sender = block.sender) = some block) :
      s.RearStep time { s.release with
        rear := .loopTest
        queue := s.queue.erase block
        message := true
        writer := (DTrear.writeData s.mNspill time (wordsOf block.data) s.writer).1
        received := s.received ++ [block] }

variable {time : ℕ → UInt64} {s t : Dtmain}

/-- What is found is in a pipe to the present receiver, and the first there. -/
theorem finds_eq_some {found : Option ℕ} {block : Block} (h : s.finds found = some block) :
    block ∈ s.queue ∧ block.sender.receiver = s.leaves ∧
      s.queue.find? (·.sender = block.sender) = some block := by
  obtain ⟨activation, -, hfind⟩ := Option.bind_eq_some_iff.mp h
  have hsender : block.sender = ⟨activation, s.leaves⟩ := by
    have hkey := List.find?_some hfind
    simpa using hkey
  refine ⟨List.mem_of_find?_eq_some hfind, by rw [hsender], ?_⟩
  rw [hsender]
  exact hfind

theorem avantStep_kind {allocates sends : Bool} (h : s.avantStep allocates sends = some t) :
    s.AvantStep t := by
  rw [avantStep] at h
  cases hpc : s.avant with
  | stateMachine =>
    simp only [hpc] at h
    split at h <;> cases h <;> exact .move _ (by rw [hpc]; rfl) id (by simp)
  | connect =>
    rw [hpc] at h
    cases h
  | loopTest =>
    simp only [hpc] at h
    split at h <;> cases h
    · exact .begin hpc
    · exact .move _ (by rw [hpc]; rfl) id (by simp)
  | allocate =>
    simp only [hpc] at h
    split at h <;> cases h
    · exact .allocate hpc
    · exact .move _ (by rw [hpc]; rfl) id (by simp)
  | read =>
    simp only [hpc] at h
    split at h
    · next hdummy =>
      cases h
      exact .dummy hpc hdummy
    · next hdummy =>
      obtain ⟨r, hread, rfl⟩ := Option.map_eq_some_iff.mp h
      cases hexc : r.exception with
      | none => exact .read r hpc (by simpa using hdummy) hread hexc
      | some e => exact .throw r hpc hread (by simp [hexc])
  | send block =>
    simp only [hpc] at h
    split at h <;> cases h
    · exact .send block hpc
    · exact .fail block hpc
  | exitTest =>
    simp only [hpc] at h
    split at h
    · next hexit =>
      cases h
      exact .move _ (by rw [hpc]; rfl) id fun _ => hexit
    · cases h
      exact .move _ (by rw [hpc]; rfl) id (by simp)
  | ended =>
    rw [hpc] at h
    cases h

theorem rearStep_kind {found : Option ℕ} (h : s.rearStep time found = some t) :
    s.RearStep time t := by
  rw [rearStep] at h
  cases hpc : s.rear with
  | stateMachine =>
    simp only [hpc] at h
    split at h <;> cases h <;> exact .move _ (by simp)
  | loopTest =>
    simp only [hpc] at h
    split at h
    · next hexit =>
      cases h
      exact .leave hexit
    · cases h
      exact .move _ (by simp)
  | recv =>
    simp only [hpc] at h
    cases h
    rw [receive]
    split
    · exact .idle
    · next block hfound =>
      obtain ⟨hmem, hpresent, hfirst⟩ := finds_eq_some hfound
      exact .receive block hmem hpresent hfirst
  | exitTest =>
    simp only [hpc] at h
    split at h
    · next hexit =>
      cases h
      exact .move _ fun _ => hexit
    · cases h
      exact .move _ (by simp)
  | ended =>
    rw [hpc] at h
    cases h

/-- What connecting changes, and to which receiver. -/
theorem step_connect {late : Bool} (h : s.step time (.connect late) = some t) :
    s.avant = .connect ∧ ∃ receiver ≤ s.leaves,
      t = { s with avant := .loopTest, sender := ⟨s.sender.activation + 1, receiver⟩ } := by
  rw [step, connect] at h
  split at h
  · next hconnect =>
    cases h
    refine ⟨hconnect.1, _, ?_, rfl⟩
    split <;> omega
  · cases h

theorem step_destroy {block : Block} (h : s.step time (.destroy block) = some t) :
    block ∈ s.queue ∧ block.sender.receiver < s.leaves ∧
      t = { s with queue := s.queue.erase block, gAvantDepth := s.gAvantDepth - 1 } := by
  rw [step] at h
  split at h
  · next hdestroy =>
    cases h
    exact ⟨hdestroy.1, hdestroy.2, rfl⟩
  · cases h

/-- `main` sets `c_state`, but not to `SM_EXIT`, and joins threads that have ended. -/
theorem mainStep_kind {oneline : String} (h : s.mainStep oneline = some t) :
    ∃ state pc, t = { s with cState := state, main := pc } ∧
      (state = .smExit → s.cState = .smExit) ∧
      (pc = .joinRear ∨ pc = .ended → s.avant = .ended ∨ s.rear = .ended) := by
  rw [mainStep] at h
  cases hpc : s.main with
  | idle | running | leave | finish =>
    simp only [hpc] at h
    cases h
    exact ⟨_, _, rfl, by simp, by simp⟩
  | word =>
    have hstate : (stateOf oneline).getD s.cState = .smExit → s.cState = .smExit := by
      rw [stateOf]
      split
      · simp
      · split
        · simp
        · exact id
    simp only [hpc] at h
    split at h <;> cases h
    · exact ⟨_, .leave, rfl, hstate, by simp⟩
    · exact ⟨_, .word, rfl, hstate, by simp⟩
  | joinAvant =>
    simp only [hpc] at h
    split at h <;> cases h
    next hended => exact ⟨s.cState, .joinRear, rfl, id, fun _ => .inl hended⟩
  | joinRear =>
    simp only [hpc] at h
    split at h <;> cases h
    next hended => exact ⟨s.cState, .ended, rfl, id, fun _ => .inr hended⟩
  | ended =>
    rw [hpc] at h
    cases h

end Dtmain

end LebStudy
