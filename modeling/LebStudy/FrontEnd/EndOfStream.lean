import LebStudy.FrontEnd.Framing

/-!
# The front-end task at the end of the stream

Nothing in `DTArecbe::st_running` asks whether a read was a full one. What is sent
are the records of the stream exactly as long as the loop does not go on to read a
header where the stream has no whole record left; where it does, it sends a message
made of what `new` has put into the buffer.
-/

namespace LebStudy

namespace DTArecbe

/-- A header is read only where the stream holds a whole record. -/
def HeaderComplete (s : DTArecbe) (_ : Turn) : Prop :=
  s.AtHeader → RecbeRecord.Complete s.tcp.socket.bytes

instance (s : DTArecbe) (turn : Turn) : Decidable (s.HeaderComplete turn) :=
  inferInstanceAs (Decidable (_ → _))

/-- More messages are sent, or about to be sent, than there are records. -/
structure Overdrawn (rs : List RecbeRecord) (s : DTArecbe) : Prop where
  plain : s.tcp.Plain
  count : rs.length < s.sendCalls.length ∨ rs.length ≤ s.sendCalls.length ∧ s.pc.MidRecord

section Step

variable {closed : Bool} {rs : List RecbeRecord} {tail : List UInt8} {s t : DTArecbe}
  {turn : Turn} {e : Effect}

theorem atHeader_iff : s.AtHeader ↔ ∃ buf, s.pc = .readHeader buf := by
  rw [AtHeader]
  split <;> simp_all

/-- Reading a header that is not there, the task is about to send a message too many. -/
theorem Framed.overdrawn (hs : s.Framed closed rs tail)
    (hbroken : ¬ s.HeaderComplete turn) (h : s.step turn = some (t, e)) : t.Overdrawn rs := by
  rw [HeaderComplete, Classical.not_imp] at hbroken
  obtain ⟨hheader, hnot⟩ := hbroken
  obtain ⟨buf, hpc⟩ := atHeader_iff.mp hheader
  obtain ⟨hplain, -, -, done, ahead, hrs, hsent, hpos⟩ := hs
  obtain ⟨-, hframe⟩ := step_frame h
  obtain ⟨hplain', hleak⟩ := hframe hplain
  rw [Position, hpc] at hpos
  simp only at hpos
  -- all records are sent already
  have hdone : rs.length ≤ s.sendCalls.length := by
    cases ahead with
    | nil => rw [hrs, hsent, List.append_nil, List.length_map]
    | cons r rest => exact absurd (hpos ▸ complete_of_cons) hnot
  refine ⟨hplain', .inr ?_⟩
  cases step_kind h with
  | test hs => simp [hpc, Pc.HoldsBuffer] at hs
  | allocate hs => simp [hpc] at hs
  | read hs ht sent => exact ⟨sent ▸ hdone, ht⟩
  | throw => exact absurd rfl hleak
  | send message hs => simp [hpc] at hs
  | sendFail message hs => simp [hpc] at hs

theorem Overdrawn.step (hs : s.Overdrawn rs) (h : s.step turn = some (t, e)) :
    t.Overdrawn rs := by
  obtain ⟨hplain, hcount⟩ := hs
  obtain ⟨-, hframe⟩ := step_frame h
  obtain ⟨hplain', hleak⟩ := hframe hplain
  refine ⟨hplain', ?_⟩
  cases step_kind h with
  | test hs ht sent =>
    rw [sent]
    exact .inl (hcount.resolve_right fun hmid => hs hmid.2.holdsBuffer)
  | allocate hs ht sent =>
    rw [sent]
    refine .inl (hcount.resolve_right fun hmid => ?_)
    rw [hs] at hmid
    exact hmid.2
  | read hs ht sent =>
    rw [sent]
    exact .inr ⟨hcount.elim Nat.le_of_lt And.left, ht⟩
  | throw => exact absurd rfl hleak
  | send message hs ht sent | sendFail message hs ht sent =>
    rw [sent, List.length_append, List.length_singleton]
    omega

theorem Framed.isPrefix (hs : s.Framed closed rs tail) :
    s.sendCalls <+: rs.map RecbeRecord.message := by
  obtain ⟨-, -, -, done, ahead, rfl, hsent, -⟩ := hs
  rw [hsent, List.map_append]
  exact List.prefix_append _ _

/-- Outside a record, a task that has sent too much has sent something else. -/
theorem Overdrawn.not_isPrefix (hs : s.Overdrawn rs) (hsettled : ¬ s.pc.MidRecord) :
    ¬ s.sendCalls <+: rs.map RecbeRecord.message := by
  intro hfirst
  have hlen := hfirst.length_le
  rw [List.length_map] at hlen
  have := hs.count.resolve_right fun hmid => hsettled hmid.2
  omega

end Step

/-- Outside a record, with no whole record left, all records have been sent. -/
theorem Framed.sendCalls_eq {closed : Bool} {rs : List RecbeRecord} {tail : List UInt8}
    {s : DTArecbe} (hs : s.Framed closed rs tail) (hsettled : ¬ s.pc.MidRecord)
    (hend : ¬ RecbeRecord.Complete s.tcp.socket.bytes) :
    s.sendCalls = rs.map RecbeRecord.message := by
  obtain ⟨-, -, -, done, ahead, rfl, hsent, hpos⟩ := hs
  cases ahead with
  | nil => rw [hsent, List.append_nil]
  | cons r rest =>
    have hbytes := hpos.bytes_of_settled hsettled
    exact absurd (hbytes ▸ complete_of_cons) hend

/-- Whatever the stream and wherever it ends. As long as the task reads headers of whole
records only, it sends the records of the stream and nothing else, and all of them in the
end. Once it has read another header, and no message is under way, this is not so. -/
theorem sends_records_iff (mId mBufsize : ℕ) (socket : Socket) (hclean : socket.Clean)
    (turns : List Turn) (t : DTArecbe)
    (hrun : Transition.run next (start mId false mBufsize socket) turns = some t) :
    (Transition.Meets next HeaderComplete (start mId false mBufsize socket) turns →
      t.sendCalls <+: (RecbeRecord.records socket.bytes).map RecbeRecord.message ∧
      (¬ t.pc.MidRecord → ¬ RecbeRecord.Complete t.tcp.socket.bytes →
        t.sendCalls = (RecbeRecord.records socket.bytes).map RecbeRecord.message)) ∧
    (¬ t.pc.MidRecord →
      (t.sendCalls <+: (RecbeRecord.records socket.bytes).map RecbeRecord.message ↔
        Transition.Meets next HeaderComplete (start mId false mBufsize socket) turns)) := by
  obtain ⟨tail, hbytes, htail⟩ := RecbeRecord.records_spec socket.bytes
  have hinit : (start mId false mBufsize socket).Framed socket.closed
      (RecbeRecord.records socket.bytes) tail := framed_start hclean hbytes
  have hnext : ∀ (s : DTArecbe) (turn : Turn) (u : DTArecbe),
      s.Framed socket.closed (RecbeRecord.records socket.bytes) tail → s.HeaderComplete turn →
        s.next turn = some u → u.Framed socket.closed (RecbeRecord.records socket.bytes) tail := by
    intro s turn u hs hc hu
    obtain ⟨e, hstep⟩ := next_eq_some.mp hu
    exact hs.step htail hc hstep
  have hframed (hmeets) := Transition.run_invariant_of_meets hinit hnext hrun hmeets
  refine ⟨fun hmeets => ⟨(hframed hmeets).isPrefix, (hframed hmeets).sendCalls_eq⟩,
    fun hsettled => ⟨fun hfirst => ?_, fun hmeets => (hframed hmeets).isPrefix⟩⟩
  have hor := Transition.meets_or (B := Overdrawn (RecbeRecord.records socket.bytes)) hinit hnext
    (fun s turn u hs hc hu => by
      obtain ⟨e, hstep⟩ := next_eq_some.mp hu
      exact hs.overdrawn hc hstep)
    (fun s turn u hs hu => by
      obtain ⟨e, hstep⟩ := next_eq_some.mp hu
      exact hs.step hstep) hrun
  rcases hor with ⟨hmeets, -⟩ | hover
  · exact hmeets
  · exact absurd hfirst (hover.not_isPrefix hsettled)

/-- The connection is cut inside a header: the task sends what it has got of it, and goes
on sending from a stream that has ended. -/
theorem message_of_cut_header :
    ¬ ∀ (mId mBufsize : ℕ) (socket : Socket), socket.Clean → socket.closed = true →
      ∀ (turns : List Turn) (t : DTArecbe),
        Transition.run next (start mId false mBufsize socket) turns = some t →
          t.sendCalls <+: (RecbeRecord.records socket.bytes).map RecbeRecord.message := by
  intro h
  let turn : Turn := ⟨.smRunning, fun _ => 0, true, true, 0⟩
  have := h 1 64 ⟨[.data 1 [7, 0]], true⟩ (by simp [Socket.Clean]) rfl (List.replicate 6 turn)
    ((Transition.run next (start 1 false 64 ⟨[.data 1 [7, 0]], true⟩)
      (List.replicate 6 turn)).get (by decide)) (Option.some_get _).symm
  revert this
  decide

/-- A record, and the first two bytes of another. -/
def cutSocket : Socket where
  incoming := [.data 1 [7, 0, 0, 0, 0, 0], .data 0 [0, 0, 0, 0, 5, 1, 7]]
  closed := true

/-- The task is stopped before it reads the second header. -/
def stoppedInTime : List Turn :=
  [.smRunning, .smRunning, .smRunning, .smRunning, .smRunning, .smRunning, .smIdle].map
    fun cState => ⟨cState, fun _ => 0, true, true, 0⟩

theorem sends_records_stopped :
    ∃ t, Transition.run next (start 1 false 64 cutSocket) stoppedInTime = some t ∧
      t.sendCalls = (RecbeRecord.records cutSocket.bytes).map RecbeRecord.message := by
  have h := (sends_records_iff 1 64 cutSocket (by simp [Socket.Clean, cutSocket]) stoppedInTime
    ((Transition.run next (start 1 false 64 cutSocket) stoppedInTime).get (by decide))
    (Option.some_get _).symm).1 (by decide)
  exact ⟨_, (Option.some_get _).symm, h.2 (by decide) (by decide)⟩

end DTArecbe

end LebStudy
