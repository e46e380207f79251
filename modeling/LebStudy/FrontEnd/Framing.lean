import LebStudy.Lib.Transition
import LebStudy.FrontEnd.DTArecbe

/-!
# The front-end task keeps to the records

At each test of `c_state` the read position of `DTArecbe::st_running` is at the
boundary of a record, and what has been sent are the messages of the records before
it. The invariant says where the position is in between; it holds as long as no
header is read where the stream has no whole record left. A task that is kept running
gets through to the last record.
-/

namespace LebStudy

namespace DTArecbe

/-- The task is about to read a header. -/
def AtHeader (s : DTArecbe) : Prop :=
  match s.pc with
  | .readHeader _ => True
  | _ => False

instance (s : DTArecbe) : Decidable s.AtHeader := by
  unfold AtHeader
  split <;> infer_instance

/-- Where the task stands in the stream, of which the records `ahead` and then `tail` are
not yet sent. -/
def Position (ahead : List RecbeRecord) (tail : List UInt8) (s : DTArecbe) : Prop :=
  match s.pc with
  | .readBody header buf nread =>
    ∃ r rest, ahead = r :: rest ∧ header = r.header ∧ nread = RecbeHeader.size ∧
      buf.take RecbeHeader.size = r.header.bytes ∧
      s.tcp.socket.bytes = r.body ++ (rest.flatMap RecbeRecord.bytes ++ tail)
  | .send message =>
    ∃ r rest, ahead = r :: rest ∧ message = r.message ∧
      s.tcp.socket.bytes = rest.flatMap RecbeRecord.bytes ++ tail
  | .overrun =>
    ∃ r rest, ahead = r :: rest ∧ s.mBufsize < RecbeHeader.size + r.header.len.toNat
  | _ => s.tcp.socket.bytes = ahead.flatMap RecbeRecord.bytes ++ tail

theorem Position.bytes_of_settled {ahead : List RecbeRecord} {tail : List UInt8} {s : DTArecbe}
    (hs : s.Position ahead tail) (hsettled : ¬ s.pc.MidRecord) :
    s.tcp.socket.bytes = ahead.flatMap RecbeRecord.bytes ++ tail := by
  rw [Position] at hs
  split at hs <;> simp_all [Pc.MidRecord]

/-- The task has sent the messages of the first records and stands at those ahead. -/
structure Framed (closed : Bool) (rs : List RecbeRecord) (tail : List UInt8) (s : DTArecbe) :
    Prop where
  plain : s.tcp.Plain
  closed_eq : s.tcp.socket.closed = closed
  real : s.mIsDummy = false
  position : ∃ done ahead, rs = done ++ ahead ∧ s.sendCalls = done.map RecbeRecord.message ∧
    s.Position ahead tail

theorem framed_start {mId mBufsize : ℕ} {socket : Socket} {rs : List RecbeRecord}
    {tail : List UInt8} (hclean : socket.Clean)
    (hbytes : socket.bytes = rs.flatMap RecbeRecord.bytes ++ tail) :
    (start mId false mBufsize socket).Framed socket.closed rs tail :=
  ⟨TcpBuffer.plain_start hclean, rfl, rfl, [], rs, rfl, rfl, hbytes⟩

section Records

variable {ahead : List RecbeRecord} {tail : List UInt8}

/-- Where the stream holds a whole record, it is the next one. -/
theorem exists_ahead (htail : ¬ RecbeRecord.Complete tail)
    (h : RecbeRecord.Complete (ahead.flatMap RecbeRecord.bytes ++ tail)) :
    ∃ r rest, ahead = r :: rest := by
  cases ahead with
  | nil => exact absurd h htail
  | cons r rest => exact ⟨r, rest, rfl⟩

theorem complete_of_cons {r : RecbeRecord} {rest : List RecbeRecord} :
    RecbeRecord.Complete ((r :: rest).flatMap RecbeRecord.bytes ++ tail) := by
  rw [List.flatMap_cons, List.append_assoc]
  exact r.complete_bytes_append _

end Records

section Step

variable {closed : Bool} {rs : List RecbeRecord} {tail : List UInt8} {s t : DTArecbe}

/-- The header read takes the header of the next record. -/
theorem Framed.readHeader {turn : Turn} {buf : List UInt8} {e : Effect}
    (hs : s.Framed closed rs tail) (hpc : s.pc = .readHeader buf)
    (htail : ¬ RecbeRecord.Complete tail) (hcomplete : RecbeRecord.Complete s.tcp.socket.bytes)
    (h : s.readHeaderStep turn buf = some (t, e)) : t.Framed closed rs tail := by
  obtain ⟨hplain, hclosed, hreal, done, ahead, hrs, hsent, hpos⟩ := hs
  rw [Position, hpc] at hpos
  simp only at hpos
  obtain ⟨r, rest, rfl⟩ := exists_ahead htail (hpos ▸ hcomplete)
  have hbytes : s.tcp.socket.bytes =
      r.header.bytes ++ (r.body ++ (rest.flatMap RecbeRecord.bytes ++ tail)) := by
    rw [hpos, List.flatMap_cons, RecbeRecord.bytes]
    simp only [List.append_assoc]
  rw [readHeaderStep, hreal] at h
  simp only [Bool.false_eq_true, if_false] at h
  cases hread : s.tcp.read RecbeHeader.size with
  | none => simp [hread] at h
  | some res =>
    obtain ⟨hexc, hdata, hrest, hplain', hclosed', hgcount, -⟩ := TcpBuffer.read_spec hplain hread
    have hheader : res.data = r.header.bytes := by
      rw [hdata, hbytes, List.take_left' r.header.bytes_length]
    have hbody : res.tcp.socket.bytes =
        r.body ++ (rest.flatMap RecbeRecord.bytes ++ tail) := by
      rw [hrest, hbytes, List.drop_left' r.header.bytes_length]
    simp only [hread, hexc] at h
    split at h
    · next hshort =>
      cases h
      exact ⟨hplain', hclosed'.trans hclosed, rfl, done, r :: rest, hrs, hsent, r, rest, rfl, by
        show s.mBufsize < _
        omega⟩
    · cases h
      refine ⟨hplain', hclosed'.trans hclosed, rfl, done, r :: rest, hrs, hsent,
        r, rest, rfl, ?_, ?_, ?_, hbody⟩
      · rw [hheader, store, List.take_zero, List.nil_append, RecbeHeader.ofBytes_bytes_append]
      · rw [hgcount, hheader, RecbeHeader.bytes_length]
      · rw [hheader, store, List.take_zero, List.nil_append,
          List.take_left' r.header.bytes_length]

/-- The body read takes the body of this record, and the message is the record's. -/
theorem Framed.readBody {header : RecbeHeader} {buf : List UInt8} {nread : ℕ} {e : Effect}
    (hs : s.Framed closed rs tail) (hpc : s.pc = .readBody header buf nread)
    (h : s.readBodyStep header buf nread = some (t, e)) : t.Framed closed rs tail := by
  obtain ⟨hplain, hclosed, hreal, done, ahead, hrs, hsent, hpos⟩ := hs
  rw [Position, hpc] at hpos
  obtain ⟨r, rest, rfl, rfl, rfl, hbuf, hbytes⟩ := hpos
  rw [readBodyStep, hreal] at h
  simp only [Bool.false_eq_true, if_false] at h
  cases hread : s.tcp.read r.header.len.toNat with
  | none => simp [hread] at h
  | some res =>
    obtain ⟨hexc, hdata, hrest, hplain', hclosed', hgcount, -⟩ := TcpBuffer.read_spec hplain hread
    have hbody : res.data = r.body := by
      rw [hdata, hbytes, List.take_left' r.body_length]
    have hnext : res.tcp.socket.bytes = rest.flatMap RecbeRecord.bytes ++ tail := by
      rw [hrest, hbytes, List.drop_left' r.body_length]
    simp only [hread, hexc] at h
    split at h
    · next hshort =>
      cases h
      rw [hbody, r.body_length] at hshort
      exact ⟨hplain', hclosed'.trans hclosed, rfl, done, r :: rest, hrs, hsent,
        r, rest, rfl, hshort⟩
    · cases h
      refine ⟨hplain', hclosed'.trans hclosed, rfl, done, r :: rest, hrs, hsent,
        r, rest, rfl, ?_, hnext⟩
      have hlen : RecbeHeader.size + res.data.length = r.bytes.length := by
        rw [hbody, r.body_length, r.bytes_length]
      rw [RecbeRecord.message, hgcount, hlen, store, hbuf, hbody, ← RecbeRecord.bytes,
        List.take_left' rfl]

/-- A step keeps the framing, if the header it reads, should it read one, is of a whole
record. -/
theorem Framed.step {turn : Turn} {e : Effect} (hs : s.Framed closed rs tail)
    (htail : ¬ RecbeRecord.Complete tail)
    (hcomplete : s.AtHeader → RecbeRecord.Complete s.tcp.socket.bytes)
    (h : s.step turn = some (t, e)) : t.Framed closed rs tail := by
  have hs' := hs
  obtain ⟨hplain, hclosed, hreal, done, ahead, hrs, hsent, hpos⟩ := hs'
  cases hpc : s.pc with
  | readHeader buf =>
    rw [DTArecbe.step, hpc] at h
    exact hs.readHeader hpc htail (hcomplete (by simp [AtHeader, hpc])) h
  | readBody header buf nread =>
    rw [DTArecbe.step, hpc] at h
    exact hs.readBody hpc h
  | send message =>
    rw [Position, hpc] at hpos
    obtain ⟨r, rest, rfl, rfl, hbytes⟩ := hpos
    have hdone : s.sendCalls ++ [r.message] = (done ++ [r]).map RecbeRecord.message := by
      rw [hsent, List.map_append, List.map_singleton]
    have hrs' : rs = (done ++ [r]) ++ rest := by rw [hrs]; simp
    simp only [DTArecbe.step, hpc] at h
    split at h <;> cases h <;>
      exact ⟨hplain, hclosed, hreal, done ++ [r], rest, hrs', hdone, hbytes⟩
  | stateMachine | loopTest | exitTest | allocate =>
    rw [Position, hpc] at hpos
    simp only [DTArecbe.step, hpc] at h
    split at h <;> cases h <;> exact ⟨hplain, hclosed, hreal, done, ahead, hrs, hsent, hpos⟩
  | ended | overrun =>
    rw [DTArecbe.step, hpc] at h
    cases h

/-- On a connection that stays open a header is read only where one has come in. -/
theorem Framed.ahead_of_open {turn : Turn} {e : Effect} (hs : s.Framed false rs [])
    (hheader : s.AtHeader) (h : s.step turn = some (t, e)) :
    RecbeRecord.Complete s.tcp.socket.bytes := by
  obtain ⟨hplain, hclosed, hreal, done, ahead, -, -, hpos⟩ := hs
  match hpc : s.pc with
  | .readHeader buf =>
    rw [Position, hpc] at hpos
    simp only at hpos
    rw [DTArecbe.step, hpc] at h
    simp only [readHeaderStep, hreal, Bool.false_eq_true, if_false] at h
    cases hread : s.tcp.read RecbeHeader.size with
    | none => simp [hread] at h
    | some res =>
      obtain ⟨-, -, -, -, -, -, hshort⟩ := TcpBuffer.read_spec hplain hread
      rw [hpos]
      cases ahead with
      | cons r rest => exact complete_of_cons
      | nil =>
        -- nothing is left, so the read would have blocked
        have := hshort (by rw [hpos]; decide)
        rw [hclosed] at this
        cases this
  | .stateMachine | .loopTest | .allocate | .readBody _ _ _ | .send _ | .exitTest | .ended
  | .overrun => simp [AtHeader, hpc] at hheader

end Step

/-! ### A task that is kept running -/

/-- The task finds `SM_RUNNING` and memory. -/
def Runs (turn : Turn) : Prop := turn.cState = .smRunning ∧ turn.allocates = true

/-- How many steps of a task that is kept running it takes until it has sent its next message. -/
def Pc.toSend : Pc → ℕ
  | .send _ => 1
  | .readBody _ _ _ => 2
  | .readHeader _ => 3
  | .allocate => 4
  | .loopTest => 5
  | .stateMachine => 6
  | .exitTest => 7
  | .ended | .overrun => 0

/-- One more message has been sent, or it is one step less until then. -/
structure Advances (s t : DTArecbe) : Prop where
  goes_on : t.pc ≠ .ended
  advances : t.sendCalls.length = s.sendCalls.length + 1 ∧ s.pc.toSend = 1 ∧ t.pc.toSend ≤ 7 ∨
    t.sendCalls.length = s.sendCalls.length ∧ t.pc.toSend < s.pc.toSend

section Running

variable {rs : List RecbeRecord} {s : DTArecbe} {turn : Turn}

/-- The header of the next record is there to be read. -/
theorem Framed.advances_readHeader {buf : List UInt8} (hs : s.Framed false rs [])
    (hfit : ∀ r ∈ rs, RecbeHeader.size + r.header.len.toNat ≤ s.mBufsize)
    (hrest : s.sendCalls.length < rs.length) (hpc : s.pc = .readHeader buf) :
    ∃ t e, s.readHeaderStep turn buf = some (t, e) ∧ s.Advances t := by
  obtain ⟨hplain, -, hreal, done, ahead, hrs, hsent, hpos⟩ := hs
  rw [Position, hpc] at hpos
  simp only [List.append_nil] at hpos
  cases ahead with
  | nil =>
    rw [hsent, hrs, List.append_nil, List.length_map] at hrest
    omega
  | cons r rest =>
    have hfit := hfit r (by simp [hrs])
    have hle : RecbeHeader.size ≤ s.tcp.socket.bytes.length := by
      rw [hpos, List.flatMap_cons, List.length_append, r.bytes_length]
      omega
    obtain ⟨res, hread⟩ := Option.isSome_iff_exists.mp (TcpBuffer.read_isSome_of_le hplain hle)
    obtain ⟨hexc, -⟩ := TcpBuffer.read_spec hplain hread
    rw [readHeaderStep, hreal]
    simp only [Bool.false_eq_true, if_false, hread, hexc]
    rw [if_neg (by omega)]
    exact ⟨_, _, rfl, by simp [headerDone], .inr ⟨rfl, by simp [headerDone, hpc, Pc.toSend]⟩⟩

/-- So is its body. -/
theorem Framed.advances_readBody {header : RecbeHeader} {buf : List UInt8} {nread : ℕ}
    (hs : s.Framed false rs [])
    (hfit : ∀ r ∈ rs, RecbeHeader.size + r.header.len.toNat ≤ s.mBufsize)
    (hpc : s.pc = .readBody header buf nread) :
    ∃ t e, s.readBodyStep header buf nread = some (t, e) ∧ s.Advances t := by
  obtain ⟨hplain, -, hreal, done, ahead, hrs, -, hpos⟩ := hs
  rw [Position, hpc] at hpos
  obtain ⟨r, rest, rfl, rfl, rfl, -, hbytes⟩ := hpos
  have hfit := hfit r (by simp [hrs])
  have hle : r.header.len.toNat ≤ s.tcp.socket.bytes.length := by
    rw [hbytes, List.length_append, r.body_length]
    omega
  obtain ⟨res, hread⟩ := Option.isSome_iff_exists.mp (TcpBuffer.read_isSome_of_le hplain hle)
  obtain ⟨hexc, hdata, -⟩ := TcpBuffer.read_spec hplain hread
  have hlen : res.data.length ≤ r.header.len.toNat := by
    rw [hdata]
    exact List.length_take_le _ _
  rw [readBodyStep, hreal]
  simp only [Bool.false_eq_true, if_false, hread, hexc]
  rw [if_neg (by omega)]
  exact ⟨_, _, rfl, by simp [bodyDone], .inr ⟨rfl, by simp [bodyDone, hpc, Pc.toSend]⟩⟩

/-- With a record ahead, a task that is kept running takes its next step, and gets on with it. -/
theorem Framed.advances (hs : s.Framed false rs [])
    (hfit : ∀ r ∈ rs, RecbeHeader.size + r.header.len.toNat ≤ s.mBufsize)
    (hrest : s.sendCalls.length < rs.length) (hended : s.pc ≠ .ended) (hruns : Runs turn) :
    ∃ t e, s.step turn = some (t, e) ∧ s.Advances t := by
  cases hpc : s.pc with
  | ended => exact absurd hpc hended
  | overrun =>
    obtain ⟨-, -, -, done, ahead, hrs, -, hpos⟩ := hs
    rw [Position, hpc] at hpos
    obtain ⟨r, rest, rfl, hlong⟩ := hpos
    have hfit := hfit r (by simp [hrs])
    omega
  | stateMachine | loopTest =>
    simp only [DTArecbe.step, hpc, if_pos hruns.1]
    exact ⟨_, _, rfl, by simp, .inr ⟨rfl, by simp [hpc, Pc.toSend]⟩⟩
  | allocate =>
    simp only [DTArecbe.step, hpc, if_pos hruns.2]
    exact ⟨_, _, rfl, by simp, .inr ⟨rfl, by simp [hpc, Pc.toSend]⟩⟩
  | exitTest =>
    simp only [DTArecbe.step, hpc, hruns.1, reduceCtorEq, if_false]
    exact ⟨_, _, rfl, by simp, .inr ⟨rfl, by simp [hpc, Pc.toSend]⟩⟩
  | readHeader buf =>
    simp only [DTArecbe.step, hpc]
    exact hs.advances_readHeader hfit hrest hpc
  | readBody header buf nread =>
    simp only [DTArecbe.step, hpc]
    exact hs.advances_readBody hfit hpc
  | send message =>
    simp only [DTArecbe.step, hpc]
    split <;> exact ⟨_, _, rfl, by simp, .inl ⟨by simp, by simp [hpc, Pc.toSend]⟩⟩

theorem Framed.sendCalls_eq_of_length (hs : s.Framed false rs [])
    (h : rs.length ≤ s.sendCalls.length) : s.sendCalls = rs.map RecbeRecord.message := by
  obtain ⟨-, -, -, done, ahead, rfl, hsent, -⟩ := hs
  rw [hsent, List.length_map, List.length_append] at h
  obtain rfl : ahead = [] := List.length_eq_zero_iff.mp (by omega)
  rw [hsent, List.append_nil]

/-- Kept running, the task sends all records. -/
theorem Framed.sends_all (hs : s.Framed false rs [])
    (hfit : ∀ r ∈ rs, RecbeHeader.size + r.header.len.toNat ≤ s.mBufsize) (hended : s.pc ≠ .ended)
    {turns : List Turn} (hruns : ∀ turn ∈ turns, Runs turn)
    (hlong : 7 * (rs.length - s.sendCalls.length) ≤ turns.length) :
    ∃ k t, Transition.run next s (turns.take k) = some t ∧
      t.sendCalls = rs.map RecbeRecord.message := by
  have hlast : s.pc.toSend ≤ 7 := by
    cases s.pc <;> simp [Pc.toSend]
  -- the first message takes no more steps than `toSend` says, each of the others seven at most
  replace hlong : 7 * (rs.length - s.sendCalls.length - 1) + s.pc.toSend ≤ turns.length ∨
      rs.length ≤ s.sendCalls.length := by omega
  clear hlast
  induction turns generalizing s with
  | nil =>
    refine ⟨0, s, rfl, hs.sendCalls_eq_of_length ?_⟩
    by_contra hrest
    have hturn : Runs ⟨.smRunning, fun _ => 0, true, true, 0⟩ := ⟨rfl, rfl⟩
    obtain ⟨t, e, -, -, hadvances⟩ := hs.advances hfit (Nat.lt_of_not_le hrest) hended hturn
    rw [List.length_nil] at hlong
    omega
  | cons turn turns ih =>
    by_cases hrest : rs.length ≤ s.sendCalls.length
    · exact ⟨0, s, rfl, hs.sendCalls_eq_of_length hrest⟩
    · obtain ⟨t, e, hstep, hgoes, hadvances⟩ :=
        hs.advances hfit (Nat.lt_of_not_le hrest) hended (hruns turn List.mem_cons_self)
      have hs' : t.Framed false rs [] :=
        hs.step RecbeRecord.not_complete_nil (fun hheader => hs.ahead_of_open hheader hstep) hstep
      have hsize : t.mBufsize = s.mBufsize := (step_frame hstep).1
      obtain ⟨k, u, hrun, hall⟩ := ih hs' (hsize ▸ hfit) hgoes
        (fun turn hturn => hruns turn (List.mem_cons_of_mem _ hturn)) (by
          rw [List.length_cons] at hlong
          omega)
      refine ⟨k + 1, u, ?_, hall⟩
      rw [List.take_succ_cons, Transition.run_cons, next, hstep]
      exact hrun

end Running

/-- However the stream is cut and whatever `c_state` is at each test: the messages sent are
those of the first records, one for each, and outside a record the task stands before the
next one. Once it has taken the whole stream it has sent all of them, and wherever it stands,
seven turns in `SM_RUNNING` for each record that is left are enough to get there. A message is
made of the two words and the bytes of its record. -/
theorem framing (mId mBufsize : ℕ) (rs : List RecbeRecord) (socket : Socket)
    (hclean : socket.Clean) (hopen : socket.closed = false)
    (hbytes : socket.bytes = rs.flatMap RecbeRecord.bytes)
    (hfit : ∀ r ∈ rs, RecbeHeader.size + r.header.len.toNat ≤ mBufsize) (turns : List Turn)
    (t : DTArecbe)
    (hrun : Transition.run next (start mId false mBufsize socket) turns = some t) :
    t.pc ≠ .overrun ∧
    (∃ done ahead, rs = done ++ ahead ∧ t.sendCalls = done.map RecbeRecord.message ∧
      (¬ t.pc.MidRecord → t.tcp.socket.bytes = ahead.flatMap RecbeRecord.bytes)) ∧
    (t.tcp.socket.bytes = [] → ¬ t.pc.MidRecord → t.sendCalls = rs.map RecbeRecord.message) ∧
    (t.pc ≠ .ended → ∀ more : List Turn, (∀ turn ∈ more, Runs turn) →
      7 * (rs.length - t.sendCalls.length) ≤ more.length →
        ∃ k u, Transition.run next t (more.take k) = some u ∧
          u.sendCalls = rs.map RecbeRecord.message) ∧
    ∀ r ∈ rs, r.message = ⟨0xff000000 ||| r.header.id.toUInt32, 0xf0000000 ||| r.header.trigCount,
      r.header.bytes ++ r.body⟩ := by
  have hinit : (start mId false mBufsize socket).Framed socket.closed rs [] :=
    framed_start hclean (by rw [hbytes, List.append_nil])
  rw [hopen] at hinit
  obtain ⟨hframed, hsize⟩ :=
    Transition.run_invariant (I := fun s => s.Framed false rs [] ∧ s.mBufsize = mBufsize)
      ⟨hinit, rfl⟩ (fun s turn u hs hu => by
        obtain ⟨e, hstep⟩ := next_eq_some.mp hu
        exact ⟨hs.1.step RecbeRecord.not_complete_nil
          (fun hheader => hs.1.ahead_of_open hheader hstep) hstep,
          (step_frame hstep).1.trans hs.2⟩) hrun
  refine ⟨?_, ?_, ?_, fun hended more hruns hlong => ?_, fun r hr => rfl⟩
  · obtain ⟨-, -, -, done, ahead, hrs, -, hpos⟩ := hframed
    intro hpc
    rw [Position, hpc] at hpos
    obtain ⟨r, rest, rfl, hlong⟩ := hpos
    have := hfit r (by simp [hrs])
    omega
  · obtain ⟨-, -, -, done, ahead, hrs, hsent, hpos⟩ := hframed
    refine ⟨done, ahead, hrs, hsent, fun hsettled => ?_⟩
    rw [hpos.bytes_of_settled hsettled, List.append_nil]
  · intro hempty hsettled
    obtain ⟨-, -, -, done, ahead, hrs, hsent, hpos⟩ := hframed
    have hnone := hpos.bytes_of_settled hsettled
    rw [hempty, List.append_nil] at hnone
    cases ahead with
    | nil => rw [hsent, hrs, List.append_nil]
    | cons r rest =>
      have hlen := congrArg List.length hnone
      rw [List.flatMap_cons, List.length_append, r.bytes_length, RecbeHeader.size,
        List.length_nil] at hlen
      omega
  · exact hframed.sends_all (hsize ▸ hfit) hended hruns hlong

/-- Two records in four pieces, the first with a body of two bytes. -/
def twoRecords : List RecbeRecord :=
  [⟨⟨1, 7, 0, 0, 2, 5⟩, [0xaa, 0xbb], rfl⟩, RecbeRecord.empty 7 6]

def twoRecordsSocket : Socket where
  incoming := [.data 1 [7, 0], .data 0 [0, 0, 0, 2, 0, 0, 0, 5, 0xaa],
    .data 0xbb [1, 7, 0, 0, 0, 0, 0, 0, 0, 0], .data 0 [6]]
  closed := false

/-- The run is stopped behind the first record, and started again. -/
def twoActivations : List Turn :=
  [.smIdle, .smIdle, .smRunning, .smRunning, .smRunning, .smIdle, .smIdle, .smIdle, .smIdle,
    .smRunning, .smRunning, .smRunning, .smRunning, .smRunning, .smRunning, .smRunning].map
      fun cState => ⟨cState, fun _ => 0xff, true, true, 0⟩

theorem framing_two_records :
    ∃ t, Transition.run next (start 1 false 64 twoRecordsSocket) twoActivations = some t ∧
      t.sendCalls = [⟨0xff000007, 0xf0000005, [1, 7, 0, 0, 0, 0, 0, 2, 0, 0, 0, 5, 0xaa, 0xbb]⟩,
        ⟨0xff000007, 0xf0000006, [1, 7, 0, 0, 0, 0, 0, 0, 0, 0, 0, 6]⟩] := by
  let t := (Transition.run next (start 1 false 64 twoRecordsSocket) twoActivations).get (by decide)
  have hrun : Transition.run next (start 1 false 64 twoRecordsSocket) twoActivations = some t :=
    (Option.some_get _).symm
  refine ⟨t, hrun, ?_⟩
  have hall := (framing 1 64 twoRecords twoRecordsSocket (by simp [Socket.Clean, twoRecordsSocket])
    rfl (by decide) (by decide) twoActivations t hrun).2.2.1 (by decide) (by decide)
  exact hall.trans (by decide)

end DTArecbe

end LebStudy
