import LebStudy.FrontEnd.Recbe
import LebStudy.FrontEnd.TcpBuffer

/-!
# The front-end task

`DAQTask::state_machine` and `DTArecbe::st_running` as a machine that takes one
step for each test of `c_state`, each allocation, each read and each send. What a
step meets from outside (the value of `c_state`, the memory `new` returns, whether
an allocation or a send succeeds) is the label of the step, so a run over all
labels is a run under all interleavings with the rest of the program.
-/

namespace LebStudy

open BigEndian

/-- `enum RunState` -/
inductive RunState
  | smInit
  | smIdle
  | smRunning
  | smEnd
  | smExit
  deriving DecidableEq, Repr

/-- What one step of the thread meets from outside. -/
structure Turn where
  cState : RunState
  /-- The bytes that `new char[]` happens to return. -/
  memory : ℕ → UInt8
  allocates : Bool
  sends : Bool
  /-- `time(NULL)` -/
  time : ℕ

namespace DTArecbe

/-- Where the thread stands. A buffer `buf` is what lies behind the two words of `ebheader`
in the memory allocated. -/
inductive Pc
  /-- before the `switch (c_state)` of `state_machine` -/
  | stateMachine
  /-- before `if (c_state != SM_RUNNING) break` -/
  | loopTest
  /-- before `new`, which `g_avant_depth++` follows -/
  | allocate
  | readHeader (buf : List UInt8)
  | readBody (header : RecbeHeader) (buf : List UInt8) (nread : ℕ)
  | send (message : Message)
  /-- before `if (c_state == SM_EXIT) break` of `state_machine` -/
  | exitTest
  | ended
  /-- The thread has written past the end of its buffer: from here nothing is known. -/
  | overrun
  deriving DecidableEq, Repr

/-- What a step does to the rest of the program. -/
inductive Effect
  | nothing
  /-- a buffer is allocated and counted -/
  | allocated
  /-- a buffer is handed to zmq -/
  | sent (message : Message)
  /-- the message is destroyed unsent and frees its buffer -/
  | released
  /-- the loop is left with the buffer in hand -/
  | leaked
  deriving DecidableEq, Repr

end DTArecbe

/-- `class DTArecbe`, initialised: `tcp` is connected and `m_is_done` is set. The last field
is history: the messages with which `sender.send` has been called. -/
structure DTArecbe where
  mId : ℕ
  mIsDummy : Bool
  mBufsize : ℕ
  mTrigNum : UInt32
  tcp : TcpBuffer
  pc : DTArecbe.Pc
  sendCalls : List Message
  deriving DecidableEq, Repr

/-- Write `data` at an offset into a buffer. -/
def store (buf : List UInt8) (offset : ℕ) (data : List UInt8) : List UInt8 :=
  buf.take offset ++ data ++ buf.drop (offset + data.length)

namespace DTArecbe

/-- The task once `st_init` has connected it. -/
def start (mId : ℕ) (mIsDummy : Bool) (mBufsize : ℕ) (socket : Socket) : DTArecbe where
  mId := mId
  mIsDummy := mIsDummy
  mBufsize := mBufsize
  mTrigNum := 0
  tcp := .start socket
  pc := .stateMachine
  sendCalls := []

/-- The header that a dummy task makes up. -/
def dummyHeader (s : DTArecbe) (time : ℕ) : RecbeHeader where
  type := 0xaa
  id := UInt8.ofNat s.mId
  sentNum := (s.mTrigNum &&& 0xffff).toUInt16
  time := UInt16.ofNat (time &&& 0xffff)
  len := 128
  trigCount := s.mTrigNum

/-- `body[i] = ntohs(i & 0xffff)` for half as many words as there are bytes. -/
def dummyBody (bodyLength : ℕ) : List UInt8 :=
  (List.range (bodyLength / 2)).flatMap fun i => beBytes 2 (i &&& 0xffff)

/-- The header is in place: its fields make up `ebheader` and the length of the body. -/
def headerDone (s : DTArecbe) (buf : List UInt8) (nread : ℕ) : DTArecbe :=
  { s with pc := .readBody (RecbeHeader.ofBytes buf) buf nread }

/-- The body is in place: the message is made of the first `nread` bytes. -/
def bodyDone (s : DTArecbe) (header : RecbeHeader) (buf : List UInt8) (nread : ℕ) : DTArecbe :=
  { s with pc := .send (Message.ofHeader header (buf.take nread)) }

/-- The part of the loop up to the header. -/
def readHeaderStep (s : DTArecbe) (turn : Turn) (buf : List UInt8) : Option (DTArecbe × Effect) :=
  if s.mIsDummy then
    let header := s.dummyHeader turn.time
    let s := { s with mTrigNum := s.mTrigNum + 1 }
    if s.mBufsize < RecbeHeader.size then some ({ s with pc := .overrun }, .nothing)
    else some (s.headerDone (store buf 0 header.bytes) RecbeHeader.size, .nothing)
  else
    match s.tcp.read RecbeHeader.size with
    | none => none
    | some r =>
      let s := { s with tcp := r.tcp }
      if s.mBufsize < RecbeHeader.size then some ({ s with pc := .overrun }, .nothing)
      else
        match r.exception with
        | some _ => some ({ s with pc := .exitTest }, .leaked)
        | none => some (s.headerDone (store buf 0 r.data) r.tcp.gcount, .nothing)

/-- The part of the loop between the header and the message. -/
def readBodyStep (s : DTArecbe) (header : RecbeHeader) (buf : List UInt8) (nread : ℕ) :
    Option (DTArecbe × Effect) :=
  let bodyLength := header.len.toNat
  if s.mIsDummy then
    let body := dummyBody bodyLength
    if s.mBufsize < RecbeHeader.size + body.length then some ({ s with pc := .overrun }, .nothing)
    else some (s.bodyDone header (store buf RecbeHeader.size body) (nread + bodyLength), .nothing)
  else
    match s.tcp.read bodyLength with
    | none => none
    | some r =>
      let s := { s with tcp := r.tcp }
      if s.mBufsize < RecbeHeader.size + r.data.length then
        some ({ s with pc := .overrun }, .nothing)
      else
        match r.exception with
        | some _ => some ({ s with pc := .exitTest }, .leaked)
        | none =>
          some (s.bodyDone header (store buf RecbeHeader.size r.data) (nread + r.tcp.gcount),
            .nothing)

/-- One step of the thread; none where a read blocks and where the thread has ended. -/
def step (s : DTArecbe) (turn : Turn) : Option (DTArecbe × Effect) :=
  match s.pc with
  | .stateMachine =>
    -- in all other states the task sleeps for a while
    if turn.cState = .smRunning then some ({ s with pc := .loopTest }, .nothing)
    else some ({ s with pc := .exitTest }, .nothing)
  | .loopTest =>
    if turn.cState = .smRunning then some ({ s with pc := .allocate }, .nothing)
    else some ({ s with pc := .exitTest }, .nothing)
  | .allocate =>
    if turn.allocates then
      some ({ s with pc := .readHeader ((List.range s.mBufsize).map turn.memory) }, .allocated)
    else some ({ s with pc := .exitTest }, .nothing)
  | .readHeader buf => s.readHeaderStep turn buf
  | .readBody header buf nread => s.readBodyStep header buf nread
  | .send message =>
    let s := { s with sendCalls := s.sendCalls ++ [message] }
    if turn.sends then some ({ s with pc := .loopTest }, .sent message)
    else some ({ s with pc := .exitTest }, .released)
  | .exitTest =>
    if turn.cState = .smExit then some ({ s with pc := .ended }, .nothing)
    else some ({ s with pc := .stateMachine }, .nothing)
  | .ended => none
  | .overrun => none

/-- The step of the task taken by itself. -/
def next (s : DTArecbe) (turn : Turn) : Option DTArecbe := (s.step turn).map (·.1)

theorem next_eq_some {s t : DTArecbe} {turn : Turn} :
    s.next turn = some t ↔ ∃ e, s.step turn = some (t, e) := by
  simp [next]

/-! ### What a step can do -/

/-- The thread has a header in its buffer that it has sent no message for. -/
def Pc.MidRecord : Pc → Prop
  | .readBody _ _ _ | .send _ | .overrun => True
  | .stateMachine | .loopTest | .allocate | .readHeader _ | .exitTest | .ended => False

/-- The thread has allocated a buffer and not given it away. -/
def Pc.HoldsBuffer : Pc → Prop
  | .readHeader _ | .readBody _ _ _ | .send _ | .overrun => True
  | .stateMachine | .loopTest | .allocate | .exitTest | .ended => False

instance (pc : Pc) : Decidable pc.MidRecord := by
  unfold Pc.MidRecord
  split <;> infer_instance

instance (pc : Pc) : Decidable pc.HoldsBuffer := by
  unfold Pc.HoldsBuffer
  split <;> infer_instance

theorem Pc.MidRecord.holdsBuffer {pc : Pc} (h : pc.MidRecord) : pc.HoldsBuffer := by
  cases pc <;> first | exact h | exact trivial

section Cases

variable {s t : DTArecbe} {turn : Turn} {e : Effect}

/-- What a step that reads can do: it goes on with the buffer, or the read throws and leaves
it behind, which it does not do on a clean socket. -/
structure ReadKind (s t : DTArecbe) (e : Effect) : Prop where
  bufsize : t.mBufsize = s.mBufsize
  sent : t.sendCalls = s.sendCalls
  goes_on : t.pc.MidRecord ∧ e = .nothing ∨ t.pc = .exitTest ∧ e = .leaked
  plain : s.tcp.Plain → t.tcp.Plain ∧ e = .nothing

/-- A read from the connection, after which the step goes on at `pc`. -/
theorem ReadKind.of_read {k : ℕ} {r : ReadResult} {pc : Pc} (hread : s.tcp.read k = some r)
    (hpc : pc.MidRecord ∧ e = .nothing ∨ pc = .exitTest ∧ e = .leaked)
    (hexc : r.exception = none → e = .nothing) :
    ReadKind s { s with tcp := r.tcp, pc := pc } e where
  bufsize := rfl
  sent := rfl
  goes_on := hpc
  plain hp := by
    obtain ⟨hnone, -, -, hplain, -⟩ := TcpBuffer.read_spec hp hread
    exact ⟨hplain, hexc hnone⟩

theorem readHeaderStep_kind {buf : List UInt8} (h : s.readHeaderStep turn buf = some (t, e)) :
    ReadKind s t e := by
  simp only [readHeaderStep] at h
  split at h
  · split at h <;> cases h <;> exact ⟨rfl, rfl, .inl ⟨trivial, rfl⟩, fun hp => ⟨hp, rfl⟩⟩
  · split at h
    · cases h
    · next r hread =>
      split at h
      · cases h
        exact .of_read hread (.inl ⟨trivial, rfl⟩) fun _ => rfl
      · split at h <;> cases h
        · next hexc => exact .of_read hread (.inr ⟨rfl, rfl⟩) fun hnone => by simp [hnone] at hexc
        · exact .of_read hread (.inl ⟨trivial, rfl⟩) fun _ => rfl

theorem readBodyStep_kind {header : RecbeHeader} {buf : List UInt8} {nread : ℕ}
    (h : s.readBodyStep header buf nread = some (t, e)) : ReadKind s t e := by
  simp only [readBodyStep] at h
  split at h
  · split at h <;> cases h <;> exact ⟨rfl, rfl, .inl ⟨trivial, rfl⟩, fun hp => ⟨hp, rfl⟩⟩
  · split at h
    · cases h
    · next r hread =>
      split at h
      · cases h
        exact .of_read hread (.inl ⟨trivial, rfl⟩) fun _ => rfl
      · split at h <;> cases h
        · next hexc => exact .of_read hread (.inr ⟨rfl, rfl⟩) fun hnone => by simp [hnone] at hexc
        · exact .of_read hread (.inl ⟨trivial, rfl⟩) fun _ => rfl

/-- All that a step can do with buffers and messages. -/
inductive StepKind (s : DTArecbe) (turn : Turn) (t : DTArecbe) : Effect → Prop
  /-- a test, or an allocation that fails -/
  | test (hs : ¬ s.pc.HoldsBuffer) (ht : ¬ t.pc.HoldsBuffer) (sent : t.sendCalls = s.sendCalls)
      (begins : t.pc = .allocate → s.pc = .loopTest ∧ turn.cState = .smRunning) :
      StepKind s turn t .nothing
  | allocate (hs : s.pc = .allocate) (ht : ∃ buf, t.pc = .readHeader buf)
      (sent : t.sendCalls = s.sendCalls) : StepKind s turn t .allocated
  | read (hs : s.pc.HoldsBuffer) (ht : t.pc.MidRecord) (sent : t.sendCalls = s.sendCalls) :
      StepKind s turn t .nothing
  | throw (hs : s.pc.HoldsBuffer) (ht : t.pc = .exitTest) (sent : t.sendCalls = s.sendCalls) :
      StepKind s turn t .leaked
  | send (message : Message) (hs : s.pc = .send message) (ht : t.pc = .loopTest)
      (sent : t.sendCalls = s.sendCalls ++ [message]) : StepKind s turn t (.sent message)
  | sendFail (message : Message) (hs : s.pc = .send message) (ht : t.pc = .exitTest)
      (sent : t.sendCalls = s.sendCalls ++ [message]) : StepKind s turn t .released

theorem ReadKind.stepKind (h : ReadKind s t e) (hs : s.pc.HoldsBuffer) : StepKind s turn t e := by
  obtain ⟨-, hsent, ⟨ht, rfl⟩ | ⟨ht, rfl⟩, -⟩ := h
  · exact .read hs ht hsent
  · exact .throw hs ht hsent

theorem step_kind (h : s.step turn = some (t, e)) : StepKind s turn t e := by
  rw [step] at h
  match hpc : s.pc, h with
  | .stateMachine, h =>
    simp only at h
    split at h <;> cases h <;>
      exact .test (by simp [hpc, Pc.HoldsBuffer]) (by simp [Pc.HoldsBuffer]) rfl (by simp)
  | .loopTest, h =>
    simp only at h
    split at h
    · next hrunning =>
      cases h
      exact .test (by simp [hpc, Pc.HoldsBuffer]) (by simp [Pc.HoldsBuffer]) rfl
        fun _ => ⟨hpc, hrunning⟩
    · cases h
      exact .test (by simp [hpc, Pc.HoldsBuffer]) (by simp [Pc.HoldsBuffer]) rfl (by simp)
  | .exitTest, h =>
    simp only at h
    split at h <;> cases h <;>
      exact .test (by simp [hpc, Pc.HoldsBuffer]) (by simp [Pc.HoldsBuffer]) rfl (by simp)
  | .allocate, h =>
    simp only at h
    split at h <;> cases h
    · exact .allocate hpc ⟨_, rfl⟩ rfl
    · exact .test (by simp [hpc, Pc.HoldsBuffer]) (by simp [Pc.HoldsBuffer]) rfl (by simp)
  | .readHeader buf, h =>
    exact (readHeaderStep_kind h).stepKind (by simp [hpc, Pc.HoldsBuffer])
  | .readBody header buf nread, h =>
    exact (readBodyStep_kind h).stepKind (by simp [hpc, Pc.HoldsBuffer])
  | .send message, h =>
    simp only at h
    split at h <;> cases h
    · exact .send message hpc rfl rfl
    · exact .sendFail message hpc rfl rfl

/-- The size of the buffers does not change, and on a clean socket no read throws. -/
theorem step_frame (h : s.step turn = some (t, e)) :
    t.mBufsize = s.mBufsize ∧ (s.tcp.Plain → t.tcp.Plain ∧ e ≠ .leaked) := by
  rw [step] at h
  match s.pc, h with
  | .readHeader _, h =>
    obtain ⟨hsize, -, -, hplain⟩ := readHeaderStep_kind h
    exact ⟨hsize, fun hp => ⟨(hplain hp).1, by simp [(hplain hp).2]⟩⟩
  | .readBody _ _ _, h =>
    obtain ⟨hsize, -, -, hplain⟩ := readBodyStep_kind h
    exact ⟨hsize, fun hp => ⟨(hplain hp).1, by simp [(hplain hp).2]⟩⟩
  | .stateMachine, h | .loopTest, h | .exitTest, h | .allocate, h | .send _, h =>
    simp only at h
    split at h <;> cases h <;> exact ⟨rfl, fun hp => ⟨hp, by simp⟩⟩

end Cases

end DTArecbe

end LebStudy
