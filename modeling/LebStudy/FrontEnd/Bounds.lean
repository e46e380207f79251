import LebStudy.FrontEnd.DTArecbe
import LebStudy.Lib.Transition

/-!
# The buffer of a front-end task

`DTArecbe::st_running` allocates `m_bufsize` bytes and the two words of `ebheader`, and
reads as many body bytes behind the header as the header says. The stores stay inside the
allocation exactly as long as each header's `len` leaves room, or the connection delivers
no more than there is room for.
-/

namespace LebStudy

namespace Socket

/-- What `recv` can deliver before it fails. -/
def beforeError : List Incoming → List UInt8
  | [] => []
  | .error :: _ => []
  | .data b bs :: rest => (b :: bs) ++ beforeError rest

/-- How many bytes `recv_all` has stored when it returns, throws or blocks. The `fuel` is that
of `recvLoop`. -/
def stored : ℕ → Socket → ℕ → ℕ
  | 0, _, _ => 0
  | fuel + 1, s, nleft =>
    if nleft = 0 then 0
    else
      match s.recv nleft with
      | none | some (.error _, _) | some (.ok [], _) => 0
      | some (.ok (b :: bs), s) => (b :: bs).length + stored fuel s (nleft - (b :: bs).length)

theorem beforeError_unread (bs : List UInt8) (incoming : List Incoming) :
    beforeError (unread bs incoming) = bs ++ beforeError incoming := by
  cases bs <;> rfl

/-- It has stored all that was asked for, or all that came. -/
theorem stored_eq {fuel nleft : ℕ} (hfuel : nleft ≤ fuel) (s : Socket) :
    stored fuel s nleft = min nleft (beforeError s.incoming).length := by
  induction fuel generalizing s nleft with
  | zero =>
    obtain rfl : nleft = 0 := by omega
    rw [stored, Nat.zero_min]
  | succ fuel ih =>
    rw [stored]
    by_cases hzero : nleft = 0
    · rw [if_pos hzero, hzero, Nat.zero_min]
    · rw [if_neg hzero]
      obtain ⟨incoming, closed⟩ := s
      match incoming with
      | [] => cases closed <;> simp [recv, beforeError]
      | .error :: rest => simp [recv, beforeError]
      | .data b bs :: rest =>
        obtain ⟨n, rfl⟩ := Nat.exists_eq_succ_of_ne_zero hzero
        simp only [recv, List.take_succ_cons]
        rw [ih (by rw [List.length_cons]; omega)]
        simp only [beforeError_unread, beforeError, List.length_append, List.length_drop,
          List.length_cons, List.length_take]
        omega

end Socket

namespace TcpBuffer

/-- The bytes of a read by `recv_all` are those that it has stored. -/
theorem recvLoop_data {fuel nleft : ℕ} {t : TcpBuffer} {buf : List UInt8} {r : ReadResult}
    (h : recvLoop fuel t nleft buf = some r) :
    r.data.length = buf.length + t.socket.stored fuel nleft ∧ r.tcp.rbuf = t.rbuf := by
  induction fuel generalizing t nleft buf with
  | zero =>
    cases h
    exact ⟨rfl, rfl⟩
  | succ fuel ih =>
    rw [recvLoop] at h
    rw [Socket.stored]
    by_cases hzero : nleft = 0
    · rw [if_pos hzero] at h ⊢
      cases h
      exact ⟨rfl, rfl⟩
    · rw [if_neg hzero] at h ⊢
      rcases hrecv : t.socket.recv nleft with _ | ⟨error | got, socket⟩
      · rw [hrecv] at h
        cases h
      · rw [hrecv] at h
        cases h
        exact ⟨rfl, rfl⟩
      · rw [hrecv] at h
        cases got with
        | nil =>
          cases h
          exact ⟨rfl, rfl⟩
        | cons b bs =>
          obtain ⟨hdata, hrbuf⟩ := ih h
          refine ⟨?_, hrbuf⟩
          rw [hdata, List.length_append]
          simp only
          omega

/-- A whole read: what it stores, and what it says it has stored. -/
theorem read_stored {t : TcpBuffer} (hrbuf : t.rbuf = []) {len : ℕ} {r : ReadResult}
    (h : t.read len = some r) :
    r.data.length = t.socket.stored len len ∧ r.tcp.rbuf = [] ∧
      (r.exception = none → r.tcp.gcount = r.data.length) := by
  rw [read] at h
  by_cases hzero : len = 0
  · rw [if_pos hzero] at h
    cases h
    rw [hzero]
    exact ⟨rfl, hrbuf, fun _ => rfl⟩
  · rw [if_neg hzero, if_pos (by rw [hrbuf]; rfl)] at h
    obtain ⟨r', hr', rfl⟩ := Option.map_eq_some_iff.mp h
    obtain ⟨hdata, hrbuf'⟩ := recvLoop_data hr'
    rw [List.length_nil, Nat.zero_add] at hdata
    rw [hrbuf] at hrbuf'
    cases hexc : r'.exception with
    | some e => exact ⟨hdata, hrbuf', fun hnone => by simp [hexc] at hnone⟩
    | none => exact ⟨hdata, hrbuf', fun _ => rfl⟩

end TcpBuffer

namespace DTArecbe

/-- `2 * sizeof(unsigned int)` -/
def ebheaderSize : ℕ := 8

/-- The size of the allocation. -/
def allocated (s : DTArecbe) : ℕ := s.mBufsize + ebheaderSize

/-- Where the part of the loop that the thread stands before writes into the allocation: the
offset and the number of bytes, for a read those stored when it returns, throws or blocks. -/
def writes (s : DTArecbe) : List (ℕ × ℕ) :=
  match s.pc with
  | .readHeader _ =>
    let cheader := ebheaderSize
    if s.mIsDummy then [(cheader, RecbeHeader.size)]
    else [(cheader, s.tcp.socket.stored RecbeHeader.size RecbeHeader.size)]
  | .readBody header _ _ =>
    let bodyLength := header.len.toNat
    let cbody := ebheaderSize + RecbeHeader.size
    if s.mIsDummy then [(0, ebheaderSize), (cbody, (dummyBody bodyLength).length)]
    else [(0, ebheaderSize), (cbody, s.tcp.socket.stored bodyLength bodyLength)]
  | _ => []

/-- The size of the message that this part of the loop ends with, if it does. -/
def messageSize (s : DTArecbe) : Option ℕ :=
  match s.pc with
  | .readBody header _ nread =>
    let bodyLength := header.len.toNat
    if s.mIsDummy then some (nread + bodyLength + ebheaderSize)
    else
      match s.tcp.read bodyLength with
      | some ⟨_, none, tcp⟩ => some (nread + tcp.gcount + ebheaderSize)
      | _ => none
  | _ => none

/-- All writes are inside of the allocation, and the message is not longer than it. -/
def InBounds (s : DTArecbe) : Prop :=
  (∀ w ∈ s.writes, w.1 + w.2 ≤ s.allocated) ∧ ∀ size ∈ s.messageSize, size ≤ s.allocated

/-- There is room for the body that the header announces, or for all that still comes. -/
def LenFits (s : DTArecbe) : Prop :=
  match s.pc with
  | .readBody header _ _ =>
    RecbeHeader.size + header.len.toNat ≤ s.mBufsize ∨
      s.mIsDummy = false ∧
        RecbeHeader.size + (Socket.beforeError s.tcp.socket.incoming).length ≤ s.mBufsize
  | _ => True

instance (s : DTArecbe) : Decidable s.LenFits :=
  show Decidable (match s.pc with
    | .readBody header _ _ =>
      RecbeHeader.size + header.len.toNat ≤ s.mBufsize ∨
        s.mIsDummy = false ∧
          RecbeHeader.size + (Socket.beforeError s.tcp.socket.incoming).length ≤ s.mBufsize
    | _ => True) from
  match s.pc with
  | .readBody _ _ _ => inferInstanceAs (Decidable (_ ∨ _ ∧ _))
  | .stateMachine | .loopTest | .exitTest | .allocate | .readHeader _ | .send _ | .ended
  | .overrun => isTrue trivial

theorem dummyBody_length (bodyLength : ℕ) :
    (dummyBody bodyLength).length = bodyLength / 2 * 2 := by
  simp [dummyBody]

/-- What the loop keeps to: whole reads, and never more than a header before the body. -/
structure Reading (s : DTArecbe) : Prop where
  whole : s.tcp.rbuf = []
  room : RecbeHeader.size ≤ s.mBufsize
  nread : ∀ header buf nread, s.pc = .readBody header buf nread →
    nread ≤ RecbeHeader.size ∧ (s.mIsDummy = true → nread = RecbeHeader.size)

theorem reading_start {mId mBufsize : ℕ} (mIsDummy : Bool) (socket : Socket)
    (hroom : RecbeHeader.size ≤ mBufsize) : (start mId mIsDummy mBufsize socket).Reading :=
  ⟨rfl, hroom, fun _ _ _ hpc => by cases hpc⟩

section Step

variable {s t : DTArecbe} {turn : Turn} {e : Effect}

theorem Reading.readHeaderStep (hs : s.Reading) {buf : List UInt8}
    (h : s.readHeaderStep turn buf = some (t, e)) : t.Reading ∧ t.pc ≠ .overrun := by
  obtain ⟨hwhole, hroom, -⟩ := hs
  have hnot : ¬ s.mBufsize < RecbeHeader.size := Nat.not_lt.mpr hroom
  rw [DTArecbe.readHeaderStep] at h
  by_cases hdummy : s.mIsDummy = true
  · simp only [hdummy, if_true, hnot, if_false] at h
    cases h
    refine ⟨⟨hwhole, hroom, ?_⟩, by simp [headerDone]⟩
    rintro _ _ _ ⟨⟩
    exact ⟨le_rfl, fun _ => rfl⟩
  · simp only [hdummy, if_false, hnot, Bool.false_eq_true] at h
    cases hread : s.tcp.read RecbeHeader.size with
    | none =>
      rw [hread] at h
      cases h
    | some r =>
      obtain ⟨hdata, hrbuf, hcount⟩ := TcpBuffer.read_stored hwhole hread
      cases hexc : r.exception with
      | some error =>
        simp only [hread, hexc] at h
        cases h
        exact ⟨⟨hrbuf, hroom, fun _ _ _ hpc => by cases hpc⟩, by simp⟩
      | none =>
        simp only [hread, hexc] at h
        cases h
        refine ⟨⟨hrbuf, hroom, ?_⟩, by simp [headerDone]⟩
        rintro _ _ _ ⟨⟩
        refine ⟨?_, fun hyes => by cases hyes⟩
        rw [hcount hexc, hdata, Socket.stored_eq le_rfl]
        exact Nat.min_le_left _ _

theorem Reading.readBodyStep (hs : s.Reading) {header : RecbeHeader} {buf : List UInt8} {nread : ℕ}
    (h : s.readBodyStep header buf nread = some (t, e)) : t.Reading := by
  obtain ⟨hwhole, hroom, -⟩ := hs
  rw [DTArecbe.readBodyStep] at h
  by_cases hdummy : s.mIsDummy = true
  · simp only [hdummy, if_true] at h
    split at h <;> cases h <;> exact ⟨hwhole, hroom, fun _ _ _ hpc => by cases hpc⟩
  · simp only [hdummy, if_false, Bool.false_eq_true] at h
    cases hread : s.tcp.read header.len.toNat with
    | none =>
      rw [hread] at h
      cases h
    | some r =>
      obtain ⟨-, hrbuf, -⟩ := TcpBuffer.read_stored hwhole hread
      simp only [hread] at h
      split at h
      · cases h
        exact ⟨hrbuf, hroom, fun _ _ _ hpc => by cases hpc⟩
      · split at h <;> cases h <;> exact ⟨hrbuf, hroom, fun _ _ _ hpc => by cases hpc⟩

theorem Reading.step (hs : s.Reading) (h : s.step turn = some (t, e)) : t.Reading := by
  obtain ⟨hwhole, hroom, -⟩ := id hs
  rw [DTArecbe.step] at h
  cases hpc : s.pc with
  | readHeader buf =>
    rw [hpc] at h
    exact (hs.readHeaderStep h).1
  | readBody header buf nread =>
    rw [hpc] at h
    exact hs.readBodyStep h
  | stateMachine | loopTest | exitTest | allocate | send =>
    simp only [hpc] at h
    split at h <;> cases h <;> exact ⟨hwhole, hroom, fun _ _ _ hpc => by cases hpc⟩
  | ended | overrun =>
    rw [hpc] at h
    cases h

/-- In a state that the loop gets to, everything is in bounds exactly if the body fits. -/
theorem Reading.inBounds_iff (hs : s.Reading) : s.InBounds ↔ s.LenFits := by
  obtain ⟨hwhole, hroom, hnread⟩ := hs
  have hsize : RecbeHeader.size = 12 := rfl
  have heb : ebheaderSize = 8 := rfl
  cases hpc : s.pc with
  | stateMachine | loopTest | allocate | send | exitTest | ended | overrun =>
    simp [InBounds, LenFits, writes, messageSize, hpc]
  | readHeader buf =>
    refine iff_of_true ⟨?_, ?_⟩ (by simp [LenFits, hpc])
    · have hstored : s.tcp.socket.stored RecbeHeader.size RecbeHeader.size ≤ RecbeHeader.size := by
        rw [Socket.stored_eq le_rfl]
        exact Nat.min_le_left _ _
      intro w hw
      simp only [writes, hpc] at hw
      split at hw <;> rw [List.mem_singleton.mp hw, allocated] <;> simp only <;> omega
    · simp [messageSize, hpc]
  | readBody header buf nread =>
    obtain ⟨hle, heq⟩ := hnread header buf nread hpc
    by_cases hdummy : s.mIsDummy = true
    · have hlen := dummyBody_length header.len.toNat
      simp only [InBounds, LenFits, writes, messageSize, hpc, hdummy, if_true, allocated,
        List.forall_mem_cons, Option.mem_def, Option.some.injEq, forall_eq', hlen, heq hdummy]
      constructor
      · rintro ⟨-, hmessage⟩
        omega
      · rintro (hfits | ⟨hno, -⟩)
        · exact ⟨⟨by omega, by omega, by simp⟩, by omega⟩
        · cases hno
    · have hfalse : s.mIsDummy = false := Bool.eq_false_iff.mpr hdummy
      have hstored : s.tcp.socket.stored header.len.toNat header.len.toNat =
          min header.len.toNat (Socket.beforeError s.tcp.socket.incoming).length :=
        Socket.stored_eq le_rfl _
      simp only [InBounds, LenFits, writes, messageSize, hpc, hfalse, if_false, allocated,
        List.forall_mem_cons, Bool.false_eq_true, true_and]
      constructor
      · rintro ⟨⟨-, hbody, -⟩, -⟩
        omega
      · intro hfits
        refine ⟨⟨by omega, by omega, by simp⟩, ?_⟩
        -- the message counts what the two reads have stored
        intro size hmem
        rcases hread : s.tcp.read header.len.toNat with _ | ⟨data, _ | error, tcp⟩
        · rw [hread] at hmem
          cases hmem
        · obtain ⟨hdata, -, hcount⟩ := TcpBuffer.read_stored hwhole hread
          have hgcount : tcp.gcount = data.length := hcount rfl
          simp only [hread, Option.mem_def, Option.some.injEq] at hmem
          simp only at hdata
          omega
        · rw [hread] at hmem
          cases hmem

/-- Where the body fits, the thread does not get past the end of its buffer. -/
theorem Reading.step_ne_overrun (hs : s.Reading) (hfits : s.LenFits)
    (h : s.step turn = some (t, e)) : t.pc ≠ .overrun := by
  rw [DTArecbe.step] at h
  cases hpc : s.pc with
  | readHeader buf =>
    rw [hpc] at h
    exact (hs.readHeaderStep h).2
  | readBody header buf nread =>
    rw [hpc] at h
    simp only [LenFits, hpc] at hfits
    change s.readBodyStep header buf nread = some (t, e) at h
    rw [DTArecbe.readBodyStep] at h
    have hlen := dummyBody_length header.len.toNat
    by_cases hdummy : s.mIsDummy = true
    · have hroom : ¬ s.mBufsize < RecbeHeader.size + (dummyBody header.len.toNat).length := by
        rcases hfits with hfits | ⟨hno, -⟩
        · omega
        · rw [hdummy] at hno
          cases hno
      rw [if_pos hdummy, if_neg hroom] at h
      cases h
      simp [bodyDone]
    · rw [if_neg hdummy] at h
      cases hread : s.tcp.read header.len.toNat with
      | none =>
        rw [hread] at h
        cases h
      | some r =>
        obtain ⟨hdata, -, -⟩ := TcpBuffer.read_stored hs.whole hread
        rw [Socket.stored_eq le_rfl] at hdata
        have hroom : ¬ s.mBufsize < RecbeHeader.size + r.data.length := by omega
        simp only [hread, hroom, if_false] at h
        split at h <;> cases h <;> simp [bodyDone]
  | stateMachine | loopTest | exitTest | allocate | send =>
    simp only [hpc] at h
    split at h <;> cases h <;> simp
  | ended | overrun =>
    rw [hpc] at h
    cases h

end Step

/-! ### Over a run -/

theorem reading_of_run {mId mBufsize : ℕ} {mIsDummy : Bool} {socket : Socket}
    (hroom : RecbeHeader.size ≤ mBufsize) {turns : List Turn} {s : DTArecbe}
    (hrun : Transition.run next (start mId mIsDummy mBufsize socket) turns = some s) :
    s.Reading := by
  refine Transition.run_invariant (reading_start mIsDummy socket hroom) ?_ hrun
  intro s turn t hs h
  obtain ⟨e, hstep⟩ := next_eq_some.mp h
  exact hs.step hstep

/-- For every connection, every buffer that takes a header and every run of the task: the writes
of each step and the messages are in bounds exactly as long as each body fits, and then the
thread never gets past the end of its buffer. A label may stand for a step that blocks. -/
theorem in_bounds_iff (mId mBufsize : ℕ) (mIsDummy : Bool) (socket : Socket)
    (hroom : 12 ≤ mBufsize) (turns : List Turn) :
    (Transition.Meets next (fun s _ => s.InBounds) (start mId mIsDummy mBufsize socket) turns ↔
      Transition.Meets next (fun s _ => s.LenFits) (start mId mIsDummy mBufsize socket) turns) ∧
    (Transition.Meets next (fun s _ => s.LenFits) (start mId mIsDummy mBufsize socket) turns →
      ∀ s, Transition.run next (start mId mIsDummy mBufsize socket) turns = some s →
        s.pc ≠ .overrun) := by
  constructor
  · refine Transition.meets_congr fun pre s _ hpre => ?_
    exact (reading_of_run hroom hpre).inBounds_iff
  · intro hmeets s hrun
    have hinv := Transition.run_invariant_of_meets (I := fun s => s.Reading ∧ s.pc ≠ .overrun)
      ⟨reading_start mIsDummy socket hroom, by simp [start]⟩ ?_ hrun hmeets
    · exact hinv.2
    · rintro s turn t ⟨hs, -⟩ hfits h
      obtain ⟨e, hstep⟩ := next_eq_some.mp h
      exact ⟨hs.step hstep, hs.step_ne_overrun hfits hstep⟩

/-- A header that announces one byte, which comes, and a buffer with room for the header. -/
theorem body_out_of_bounds :
    ¬ ∀ (mId mBufsize : ℕ) (mIsDummy : Bool) (socket : Socket), 12 ≤ mBufsize →
      ∀ turns : List Turn,
        Transition.Meets next (fun s _ => s.InBounds) (start mId mIsDummy mBufsize socket)
          turns := by
  intro h
  have hmeets := h 1 12 false ⟨[.data 1 [7, 0, 0, 0, 0, 0, 1, 0, 0, 0, 5, 0xaa]], false⟩ (by decide)
    (List.replicate 5 ⟨.smRunning, fun _ => 0, true, true, 0⟩)
  rw [Transition.meets_iff_forall_split] at hmeets
  obtain ⟨hwrites, -⟩ := hmeets (List.replicate 4 ⟨.smRunning, fun _ => 0, true, true, 0⟩) _ [] rfl
    _ rfl
  have hbody := hwrites (20, 1) (by decide)
  revert hbody
  decide

/-- The same record with a buffer that takes it. -/
theorem in_bounds_of_record :
    Transition.Meets next (fun s _ => s.InBounds)
      (start 1 false 13 ⟨[.data 1 [7, 0, 0, 0, 0, 0, 1, 0, 0, 0, 5, 0xaa]], false⟩)
      (List.replicate 6 ⟨.smRunning, fun _ => 0, true, true, 0⟩) := by
  have h := in_bounds_iff 1 13 false
    ⟨[.data 1 [7, 0, 0, 0, 0, 0, 1, 0, 0, 0, 5, 0xaa]], false⟩ (by decide)
    (List.replicate 6 ⟨.smRunning, fun _ => 0, true, true, 0⟩)
  exact h.1.mpr (by decide)

end DTArecbe

end LebStudy
