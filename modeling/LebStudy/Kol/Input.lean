import LebStudy.FrontEnd.TcpBuffer
import LebStudy.Lib.Service

/-!
# The reading side of `kol::TcpBuffer`

`get`, `read`, `ignore` and `getline` share one buffer of 1024 bytes, and `read` passes it by
when it is empty. For the caller there is only the stream: how the network cuts it, and
which of the calls have left something in the buffer, makes no difference.
-/

namespace LebStudy

/-- What a call tells its caller: the bytes it stores or returns, `gcount`, the state bits
after it, and the exception it ends with. -/
structure InputAnswer where
  data : List UInt8
  gcount : ℕ
  eofbit : Bool
  failbit : Bool
  exception : Option SocketException
  deriving DecidableEq, Repr

/-- The calls of the reading side, with sizes that an `int` holds. -/
inductive InputCall
  | get
  | read (len : ℕ)
  | ignore (len : ℕ)
  | getline (maxlen : ℕ)
  deriving DecidableEq, Repr

/-- The buffer and `failbit`, which `getline` alone sets. -/
structure TcpInput where
  tcp : TcpBuffer
  failbit : Bool
  deriving DecidableEq, Repr

namespace TcpInput

/-- `initparams` -/
def start (socket : Socket) : TcpInput := ⟨.start socket, false⟩

def answer (s : TcpInput) (data : List UInt8) (exception : Option SocketException) :
    InputAnswer × TcpInput :=
  (⟨data, s.tcp.gcount, s.tcp.eofbit, s.failbit, exception⟩, s)

/-- `TcpBuffer::ignore` -/
def ignore (t : TcpBuffer) (len : ℕ) : Option ReadResult :=
  let t := { t with gcount := 0 }
  if len = 0 then some ⟨[], none, t⟩
  else (TcpBuffer.getLoop len t []).map fun r => { r with data := [] }

/-- The loop of `getline`, with room for so many bytes before `nmax` is reached. -/
def getlineLoop : ℕ → TcpInput → List UInt8 → Option (InputAnswer × TcpInput)
  | 0, s, line =>
    -- `n >= nmax`
    let s : TcpInput := ⟨{ s.tcp with gcount := line.length }, true⟩
    some (s.answer line none)
  | room + 1, s, line =>
    match s.tcp.get with
    | none => none
    | some ⟨_, some e, t⟩ => some (answer ⟨t, s.failbit⟩ line (some e))
    | some ⟨[], none, t⟩ =>
      let s : TcpInput := ⟨{ t with eofbit := true, gcount := line.length },
        s.failbit || line.length = 0⟩
      some (s.answer line none)
    | some ⟨c :: _, none, t⟩ =>
      if c = 0x0a then
        let s : TcpInput := ⟨{ t with gcount := line.length + 1 }, s.failbit⟩
        some (s.answer line none)
      else getlineLoop room ⟨t, s.failbit⟩ (line ++ [c])

/-- `TcpBuffer::getline`; `nmax` is `maxlen - 1`. -/
def getline (s : TcpInput) (maxlen : ℕ) : Option (InputAnswer × TcpInput) :=
  let t := { s.tcp with gcount := 0 }
  if maxlen ≤ 1 then some (answer ⟨t, true⟩ [] none)
  else getlineLoop (maxlen - 1) ⟨t, s.failbit⟩ []

/-- One call. -/
def call (s : TcpInput) : InputCall → Option (InputAnswer × TcpInput)
  | .get => s.tcp.get.map fun r => answer ⟨r.tcp, s.failbit⟩ r.data r.exception
  | .read len => (s.tcp.read len).map fun r => answer ⟨r.tcp, s.failbit⟩ r.data r.exception
  | .ignore len => (ignore s.tcp len).map fun r => answer ⟨r.tcp, s.failbit⟩ r.data r.exception
  | .getline maxlen => s.getline maxlen

end TcpInput

/-! ### The stream behind it -/

/-- What is to come, and the state bits. -/
structure ByteStream where
  rest : List UInt8
  eofbit : Bool
  failbit : Bool
  deriving DecidableEq, Repr

namespace ByteStream

/-- Take so many bytes off the front; the end of the stream shows if there are fewer. -/
def take (s : ByteStream) (n : ℕ) : ByteStream :=
  ⟨s.rest.drop n, s.eofbit || s.rest.length < n, s.failbit⟩

def answer (s : ByteStream) (data : List UInt8) (gcount : ℕ) : InputAnswer × ByteStream :=
  (⟨data, gcount, s.eofbit, s.failbit, none⟩, s)

/-- A line, with `line` of it taken before: the bytes in front of the line feed, unless there
is no room for more, or the stream ends. -/
def getline (s : ByteStream) (room : ℕ) (line : List UInt8) : InputAnswer × ByteStream :=
  let more := (s.rest.take room).takeWhile (· ≠ 0x0a)
  if more.length = room then
    answer { s.take room with failbit := true } (line ++ more) (line.length + room)
  else if more.length < s.rest.length then
    answer (s.take (more.length + 1)) (line ++ more) (line.length + more.length + 1)
  else
    answer { s.take (more.length + 1) with failbit := s.failbit || (line ++ more).length = 0 }
      (line ++ more) (line.length + more.length)

/-- One call on the stream itself. -/
def call (s : ByteStream) : InputCall → InputAnswer × ByteStream
  | .get => (s.take 1).answer (s.rest.take 1) (s.rest.take 1).length
  | .read len => (s.take len).answer (s.rest.take len) (s.rest.take len).length
  | .ignore len => (s.take len).answer [] (s.rest.take len).length
  | .getline maxlen =>
    if maxlen ≤ 1 then answer { s with failbit := true } [] 0 else s.getline (maxlen - 1) []

/-! The four ways in which a line goes on. -/

theorem getline_full (s : ByteStream) (line : List UInt8) :
    s.getline 0 line = answer { s with failbit := true } line line.length := by
  simp [getline, take]

theorem getline_end {s : ByteStream} (h : s.rest = []) (room : ℕ) (line : List UInt8) :
    s.getline (room + 1) line =
      answer ⟨[], true, s.failbit || line.length = 0⟩ line line.length := by
  simp [getline, take, h]

theorem getline_feed {s : ByteStream} {rest : List UInt8} (h : s.rest = 0x0a :: rest) (room : ℕ)
    (line : List UInt8) :
    s.getline (room + 1) line = answer (s.take 1) line (line.length + 1) := by
  simp [getline, h]

/-- One byte and then `n`. -/
theorem take_take {s : ByteStream} {c : UInt8} {rest : List UInt8} (h : s.rest = c :: rest)
    (n : ℕ) : (s.take 1).take n = s.take (n + 1) := by
  simp [take, h]

theorem getline_byte {s : ByteStream} {c : UInt8} {rest : List UInt8} (h : s.rest = c :: rest)
    (hc : c ≠ 0x0a) (room : ℕ) (line : List UInt8) :
    s.getline (room + 1) line = (s.take 1).getline room (line ++ [c]) := by
  have hrest : (s.take 1).rest = rest := by
    rw [take, h]
    rfl
  have hmore : ((c :: rest).take (room + 1)).takeWhile (· ≠ 0x0a) =
      c :: (rest.take room).takeWhile (· ≠ 0x0a) := by
    rw [List.take_succ_cons, List.takeWhile_cons_of_pos (by simpa using hc)]
  have hline (more : List UInt8) : line ++ [c] ++ more = line ++ c :: more := by simp
  have hcount (k : ℕ) : (line ++ [c]).length + k = line.length + (k + 1) := by
    rw [List.length_append, List.length_singleton, Nat.add_right_comm, Nat.add_assoc]
  simp only [getline, hmore, hrest, List.length_cons, h, Nat.add_right_cancel_iff,
    Nat.add_lt_add_iff_right, take_take h, hline, hcount, Nat.add_assoc]
  rfl

end ByteStream

/-! ### The buffer -/

namespace TcpBuffer

/-- What the caller has not been given: the rest of the buffer, then what the socket brings. -/
def pending (t : TcpBuffer) : List UInt8 := t.rbuf.drop t.rbufnxt ++ t.socket.bytes

/-- The buffer is in bounds, and no call of `recv` fails. -/
structure Sound (t : TcpBuffer) : Prop where
  clean : t.socket.Clean
  taken : t.rbufnxt ≤ t.rbuf.length
  bounded : t.rbuf.length ≤ bufsize

theorem sound_start {socket : Socket} (h : socket.Clean) : (start socket).Sound :=
  ⟨h, Nat.le_refl _, Nat.zero_le _⟩

/-- The call has stored `buf` and the next `n` bytes, or what there is of them. -/
structure Takes (t : TcpBuffer) (n : ℕ) (buf : List UInt8) (r : ReadResult) : Prop where
  exception : r.exception = none
  data : r.data = buf ++ t.pending.take n
  pending : r.tcp.pending = t.pending.drop n
  eofbit : r.tcp.eofbit = (t.eofbit || t.pending.length < n)
  sound : r.tcp.Sound
  closed : r.tcp.socket.closed = t.socket.closed

theorem takes_zero {t : TcpBuffer} (ht : t.Sound) (buf : List UInt8) (gcount : ℕ) :
    t.Takes 0 buf ⟨buf, none, { t with gcount := gcount }⟩ := by
  refine ⟨rfl, by simp, rfl, ?_, ⟨ht.clean, ht.taken, ht.bounded⟩, rfl⟩
  simp

/-- At the end of the stream any number of bytes is none. -/
theorem Takes.of_end {t t' : TcpBuffer} (hend : t.Takes 1 [] ⟨[], none, t'⟩) (n : ℕ)
    (buf : List UInt8) (gcount : ℕ) :
    t.Takes (n + 1) buf ⟨buf, none, { t' with gcount := gcount }⟩ := by
  have hnil : t.pending = [] := by
    have hdata := hend.data
    rw [List.nil_append, eq_comm, List.take_eq_nil_iff] at hdata
    exact hdata.resolve_left Nat.one_ne_zero
  have hpending := hend.pending
  have heof := hend.eofbit
  have hsound := hend.sound
  refine ⟨rfl, ?_, ?_, ?_, ⟨hsound.clean, hsound.taken, hsound.bounded⟩, hend.closed⟩
  · rw [hnil, List.take_nil, List.append_nil]
  · rw [hnil, List.drop_nil] at hpending ⊢
    exact hpending
  · rw [hnil] at heof ⊢
    simpa using heof

/-- One byte and then `n`. -/
theorem Takes.trans {t t' : TcpBuffer} {b : UInt8} {n : ℕ} {buf : List UInt8} {r : ReadResult}
    (hone : t.Takes 1 [] ⟨[b], none, t'⟩) (hmore : t'.Takes n (buf ++ [b]) r) :
    t.Takes (n + 1) buf r := by
  have hdata := hone.data
  have hpending := hone.pending
  have heof := hone.eofbit
  have hclosed := hone.closed
  simp only [List.nil_append] at hdata hpending heof hclosed
  cases hsplit : t.pending with
  | nil => simp [hsplit] at hdata
  | cons c rest =>
    rw [hsplit] at hdata hpending heof
    obtain rfl : b = c := by simpa using hdata
    rw [List.drop_one, List.tail_cons] at hpending
    refine ⟨hmore.exception, ?_, ?_, ?_, hmore.sound, hmore.closed.trans hclosed⟩
    · rw [hmore.data, hpending, hsplit, List.take_succ_cons, List.append_assoc]
      rfl
    · rw [hmore.pending, hpending, hsplit, List.drop_succ_cons]
    · rw [hmore.eofbit, heof, hpending, hsplit, List.length_cons]
      simp

theorem get_of_lt {t : TcpBuffer} (h : t.rbufnxt < t.rbuf.length) :
    t.get = some ⟨[t.rbuf[t.rbufnxt]], none, { t with rbufnxt := t.rbufnxt + 1, gcount := 1 }⟩ := by
  simp only [get, if_neg (Nat.not_le.mpr h), List.getElem?_eq_getElem h, Option.toList_some]

theorem takes_of_lt {t : TcpBuffer} (ht : t.Sound) (h : t.rbufnxt < t.rbuf.length) :
    t.Takes 1 []
      ⟨[t.rbuf[t.rbufnxt]], none, { t with rbufnxt := t.rbufnxt + 1, gcount := 1 }⟩ := by
  have hpending : t.pending =
      t.rbuf[t.rbufnxt] :: (t.rbuf.drop (t.rbufnxt + 1) ++ t.socket.bytes) := by
    rw [TcpBuffer.pending, List.drop_eq_getElem_cons h, List.cons_append]
  refine ⟨rfl, ?_, ?_, ?_, ⟨ht.clean, h, ht.bounded⟩, rfl⟩
  · rw [hpending]
    rfl
  · rw [hpending]
    rfl
  · simp [hpending]

/-- `get` takes the next byte, from the buffer or from a socket asked for a new one. -/
theorem get_takes {t : TcpBuffer} (ht : t.Sound) {r : ReadResult} (h : t.get = some r) :
    t.Takes 1 [] r ∧ r.tcp.gcount = r.data.length := by
  by_cases hlt : t.rbufnxt < t.rbuf.length
  · rw [get_of_lt hlt] at h
    cases h
    exact ⟨takes_of_lt ht hlt, rfl⟩
  · have hpending : t.pending = t.socket.bytes := by
      rw [TcpBuffer.pending, List.drop_eq_nil_of_le (Nat.not_lt.mp hlt), List.nil_append]
    simp only [get, if_pos (Nat.not_lt.mp hlt)] at h
    split at h
    · cases h
    · next e socket hrecv =>
      obtain ⟨got, hout, -⟩ := Socket.recv_spec ht.clean (by decide) hrecv
      cases hout
    · next socket hrecv =>
      cases h
      obtain ⟨got, hout, -, hbytes, hclean, hclosed, hend⟩ :=
        Socket.recv_spec ht.clean (by decide) hrecv
      cases hout
      obtain ⟨hnil, -⟩ := hend rfl
      rw [hnil, List.nil_append] at hbytes
      have hnone : t.pending = [] := hpending.trans hnil
      refine ⟨⟨rfl, ?_, ?_, ?_, ⟨hclean, Nat.le_refl _, Nat.zero_le _⟩, hclosed⟩, rfl⟩
      · rw [hnone]
        rfl
      · rw [hnone, TcpBuffer.pending, ← hbytes]
        rfl
      · simp [hnone]
    · next b bs socket hrecv =>
      cases h
      obtain ⟨got, hout, hlen, hbytes, hclean, hclosed, -⟩ :=
        Socket.recv_spec ht.clean (by decide) hrecv
      cases hout
      have hsplit : t.pending = b :: (bs ++ socket.bytes) := hpending.trans hbytes
      refine ⟨⟨rfl, ?_, ?_, ?_, ⟨hclean, ?_, hlen⟩, hclosed⟩, rfl⟩
      · rw [hsplit]
        rfl
      · rw [hsplit]
        rfl
      · simp [hsplit]
      · simp

theorem getLoop_takes {n : ℕ} {t : TcpBuffer} (ht : t.Sound) {buf : List UInt8} {r : ReadResult}
    (h : getLoop n t buf = some r) : t.Takes n buf r ∧ r.tcp.gcount = r.data.length := by
  induction n generalizing t buf with
  | zero =>
    cases h
    exact ⟨takes_zero ht buf _, rfl⟩
  | succ n ih =>
    rw [getLoop] at h
    split at h
    · cases h
    · next data e t' hget => cases (get_takes ht hget).1.exception
    · next t' hget =>
      cases h
      exact ⟨(get_takes ht hget).1.of_end n buf _, rfl⟩
    · next b bs t' hget =>
      obtain ⟨hone, -⟩ := get_takes ht hget
      -- `get` returns one byte at most
      have hbs : bs = [] := by
        have hlen := congrArg List.length hone.data
        simp only [List.nil_append, List.length_cons, List.length_take] at hlen
        exact List.length_eq_zero_iff.mp (by omega)
      subst hbs
      obtain ⟨hmore, hgcount⟩ := ih hone.sound h
      exact ⟨hone.trans hmore, hgcount⟩

/-- The end of the stream shows when less than the rest of the count comes. -/
theorem recvLoop_eofbit {fuel nleft : ℕ} (hfuel : nleft ≤ fuel) {t : TcpBuffer}
    (ht : t.socket.Clean) {buf : List UInt8} {r : ReadResult}
    (h : recvLoop fuel t nleft buf = some r) :
    r.tcp.eofbit = (t.eofbit || t.socket.bytes.length < nleft) ∧ r.tcp.rbufnxt = t.rbufnxt := by
  induction fuel generalizing t nleft buf with
  | zero =>
    obtain rfl : nleft = 0 := by omega
    cases h
    simp
  | succ fuel ih =>
    rw [recvLoop] at h
    split at h
    · next hzero =>
      cases h
      simp [hzero]
    · next hpos =>
      split at h
      · cases h
      · next e socket hrecv =>
        obtain ⟨got, hout, -⟩ := Socket.recv_spec ht (by omega) hrecv
        cases hout
      · next socket hrecv =>
        cases h
        obtain ⟨got, hout, -, -, -, -, hend⟩ := Socket.recv_spec ht (by omega) hrecv
        cases hout
        have hnil := (hend rfl).1
        have hlt : 0 < nleft := by omega
        simp [hnil, hlt]
      · next b bs socket hrecv =>
        obtain ⟨got, hout, hlen, hbytes, hclean, -, -⟩ := Socket.recv_spec ht (by omega) hrecv
        cases hout
        have hfuel' : nleft - (b :: bs).length ≤ fuel := by
          rw [List.length_cons]
          omega
        obtain ⟨heof, hnxt⟩ := ih hfuel' hclean h
        refine ⟨?_, hnxt⟩
        have hiff : socket.bytes.length < nleft - (b :: bs).length ↔
            t.socket.bytes.length < nleft := by
          rw [hbytes, List.length_append]
          omega
        rw [heof, decide_eq_decide.mpr hiff]

/-- `read`, whichever way it goes. -/
theorem read_takes {t : TcpBuffer} (ht : t.Sound) {len : ℕ} {r : ReadResult}
    (h : t.read len = some r) : t.Takes len [] r ∧ r.tcp.gcount = r.data.length := by
  have ht' : ({ t with gcount := 0 } : TcpBuffer).Sound := ⟨ht.clean, ht.taken, ht.bounded⟩
  have hsame : ({ t with gcount := 0 } : TcpBuffer).pending = t.pending := rfl
  simp only [read] at h
  split at h
  · next hzero =>
    subst hzero
    cases h
    exact ⟨takes_zero ht [] 0, rfl⟩
  · split at h
    · next hempty =>
      -- the buffer is empty, and the bytes go straight to the caller
      have hrbuf : t.rbuf = [] := List.length_eq_zero_iff.mp hempty
      have hnxt : t.rbufnxt = 0 := Nat.le_zero.mp (hempty ▸ ht.taken)
      have hpending : t.pending = t.socket.bytes := by
        rw [pending, hrbuf, List.drop_nil, List.nil_append]
      obtain ⟨r', hr', rfl⟩ := Option.map_eq_some_iff.mp h
      obtain ⟨hexc, hdata, hrest, hplain, hclosed, -⟩ :=
        recvLoop_spec (Nat.le_refl len)
          (show ({ t with gcount := 0 } : TcpBuffer).Plain from ⟨hrbuf, ht.clean⟩) hr'
      obtain ⟨heof, hsamenxt⟩ := recvLoop_eofbit (Nat.le_refl len) ht'.clean hr'
      have hzero : r'.tcp.rbufnxt = 0 := hsamenxt.trans hnxt
      rw [hexc]
      refine ⟨⟨rfl, ?_, ?_, ?_, ⟨hplain.clean, ?_, ?_⟩, hclosed⟩, rfl⟩
      · rw [hpending]
        exact hdata
      · rw [hpending, pending, ← hrest]
        simp [hplain.rbuf]
      · rw [hpending]
        exact heof
      · simp [hplain.rbuf, hzero]
      · simp [hplain.rbuf]
    · obtain ⟨htakes, hgcount⟩ := getLoop_takes ht' h
      exact ⟨⟨htakes.exception, htakes.data, htakes.pending, htakes.eofbit, htakes.sound,
        htakes.closed⟩, hgcount⟩

/-! ### On a connection that is closed behind the stream every call returns -/

theorem recv_isSome {socket : Socket} (h : socket.closed = true) (len : ℕ) :
    (socket.recv len).isSome := by
  obtain ⟨incoming, closed⟩ := socket
  cases h
  rcases incoming with - | ⟨b, bs⟩ | - <;> rfl

theorem get_isSome {t : TcpBuffer} (ht : t.socket.closed = true) : t.get.isSome := by
  by_cases hlt : t.rbufnxt < t.rbuf.length
  · rw [get_of_lt hlt]
    rfl
  · simp only [get, if_pos (Nat.not_lt.mp hlt)]
    obtain ⟨⟨out, socket⟩, hrecv⟩ := Option.isSome_iff_exists.mp (recv_isSome ht bufsize)
    rw [hrecv]
    rcases out with e | - | ⟨b, bs⟩ <;> rfl

/-- With a byte to come `get` returns, whether the connection is closed behind it or not. -/
theorem get_isSome_of_pending {t : TcpBuffer} (ht : t.pending ≠ []) : t.get.isSome := by
  by_cases hlt : t.rbufnxt < t.rbuf.length
  · rw [get_of_lt hlt]
    rfl
  · rw [pending, List.drop_eq_nil_of_le (Nat.not_lt.mp hlt), List.nil_append, Socket.bytes] at ht
    simp only [get, if_pos (Nat.not_lt.mp hlt), Socket.recv]
    cases hincoming : t.socket.incoming with
    | nil => simp [hincoming] at ht
    | cons incoming rest =>
      cases incoming with
      | error => rfl
      | data b bs => rfl

theorem getLoop_isSome {n : ℕ} {t : TcpBuffer} (ht : t.Sound) (hclosed : t.socket.closed = true)
    (buf : List UInt8) : (getLoop n t buf).isSome := by
  induction n generalizing t buf with
  | zero => rfl
  | succ n ih =>
    obtain ⟨r, hget⟩ := Option.isSome_iff_exists.mp (get_isSome hclosed)
    obtain ⟨htakes, -⟩ := get_takes ht hget
    rw [getLoop, hget]
    obtain ⟨data, exception, t'⟩ := r
    cases exception with
    | some e => rfl
    | none =>
      cases data with
      | nil => rfl
      | cons b bs => exact ih htakes.sound (htakes.closed.trans hclosed) _

theorem recvLoop_isSome {fuel nleft : ℕ} {t : TcpBuffer} (ht : t.socket.Clean)
    (hclosed : t.socket.closed = true) (buf : List UInt8) :
    (recvLoop fuel t nleft buf).isSome := by
  induction fuel generalizing t nleft buf with
  | zero => rfl
  | succ fuel ih =>
    rw [recvLoop]
    split
    · rfl
    · next hpos =>
      obtain ⟨⟨out, socket⟩, hrecv⟩ := Option.isSome_iff_exists.mp (recv_isSome hclosed nleft)
      obtain ⟨got, rfl, -, -, hclean, hsame, -⟩ := Socket.recv_spec ht (by omega) hrecv
      rw [hrecv]
      cases got with
      | nil => rfl
      | cons b bs => exact ih hclean (hsame.trans hclosed) _

theorem read_isSome {t : TcpBuffer} (ht : t.Sound) (hclosed : t.socket.closed = true) (len : ℕ) :
    (t.read len).isSome := by
  have ht' : ({ t with gcount := 0 } : TcpBuffer).Sound := ⟨ht.clean, ht.taken, ht.bounded⟩
  simp only [read]
  split
  · rfl
  · split
    · rw [Option.isSome_map]
      exact recvLoop_isSome ht'.clean hclosed []
    · exact getLoop_isSome ht' hclosed []

end TcpBuffer

/-! ### The calls -/

namespace TcpInput

/-- What a caller sees of the buffer. -/
def stream (s : TcpInput) : ByteStream := ⟨s.tcp.pending, s.tcp.eofbit, s.failbit⟩

/-- What the buffer must keep so that its calls do what they should. -/
structure Ready (socket : Socket) (s : TcpInput) : Prop where
  sound : s.tcp.Sound
  closed : s.tcp.socket.closed = socket.closed

/-- A call that takes bytes is one that takes them off the stream. -/
theorem answer_of_takes {t : TcpBuffer} {n : ℕ} {r : ReadResult} (h : t.Takes n [] r)
    (failbit : Bool) (data : List UInt8) :
    let s : TcpInput := ⟨t, failbit⟩
    ((answer ⟨r.tcp, failbit⟩ data r.exception).1, stream ⟨r.tcp, failbit⟩) =
      (s.stream.take n).answer data r.tcp.gcount := by
  simp only [answer, ByteStream.answer, ByteStream.take, stream, h.exception, h.eofbit, h.pending]
  rfl

theorem ignore_takes {t : TcpBuffer} (ht : t.Sound) {len : ℕ} {r : ReadResult}
    (h : ignore t len = some r) :
    r.data = [] ∧ t.Takes len [] { r with data := t.pending.take len } ∧
      r.tcp.gcount = (t.pending.take len).length := by
  have ht' : ({ t with gcount := 0 } : TcpBuffer).Sound := ⟨ht.clean, ht.taken, ht.bounded⟩
  simp only [ignore] at h
  split at h
  · next hzero =>
    subst hzero
    cases h
    exact ⟨rfl, TcpBuffer.takes_zero ht [] 0, rfl⟩
  · obtain ⟨r', hr', rfl⟩ := Option.map_eq_some_iff.mp h
    obtain ⟨htakes, hgcount⟩ := TcpBuffer.getLoop_takes ht' hr'
    refine ⟨rfl, ⟨htakes.exception, rfl, htakes.pending, htakes.eofbit, htakes.sound,
      htakes.closed⟩, ?_⟩
    rw [hgcount, htakes.data]
    rfl

theorem getlineLoop_spec {socket : Socket} {room : ℕ} {s s' : TcpInput} {line : List UInt8}
    {a : InputAnswer} (hs : s.Ready socket) (h : getlineLoop room s line = some (a, s')) :
    (a, s'.stream) = s.stream.getline room line ∧ s'.Ready socket := by
  have hcount {t : TcpBuffer} (ht : t.Sound) (hclosed : t.socket.closed = socket.closed)
      (eofbit failbit : Bool) (gcount : ℕ) :
      Ready socket ⟨{ t with eofbit := eofbit, gcount := gcount }, failbit⟩ :=
    ⟨⟨ht.clean, ht.taken, ht.bounded⟩, hclosed⟩
  induction room generalizing s line with
  | zero =>
    cases h
    rw [ByteStream.getline_full]
    exact ⟨rfl, hcount hs.sound hs.closed _ _ _⟩
  | succ room ih =>
    rw [getlineLoop] at h
    split at h
    · cases h
    · next data e t hget => cases (TcpBuffer.get_takes hs.sound hget).1.exception
    · next t hget =>
      obtain ⟨htakes, -⟩ := TcpBuffer.get_takes hs.sound hget
      have hclosed := htakes.closed.trans hs.closed
      cases h
      have hnil : s.stream.rest = [] := by
        have hdata := htakes.data
        rw [List.nil_append, eq_comm, List.take_eq_nil_iff] at hdata
        exact hdata.resolve_left Nat.one_ne_zero
      have hpending : t.pending = [] := by
        rw [htakes.pending]
        exact List.drop_eq_nil_of_le (by rw [show s.tcp.pending = [] from hnil]; exact Nat.zero_le _)
      rw [ByteStream.getline_end hnil]
      refine ⟨?_, hcount htakes.sound hclosed _ _ _⟩
      show (_, (⟨t.pending, _, _⟩ : ByteStream)) = _
      rw [hpending]
      rfl
    · next c cs t hget =>
      obtain ⟨htakes, -⟩ := TcpBuffer.get_takes hs.sound hget
      have hclosed := htakes.closed.trans hs.closed
      have hrest : s.stream.rest = c :: s.stream.rest.tail := by
        have hdata := htakes.data
        rw [List.nil_append] at hdata
        cases hsplit : s.tcp.pending with
        | nil => simp [hsplit] at hdata
        | cons c' rest =>
          rw [hsplit] at hdata
          obtain rfl : c = c' := by simpa using (List.cons.inj hdata).1
          show s.tcp.pending = c :: s.tcp.pending.tail
          rw [hsplit]
          rfl
      have hstream (gcount : ℕ) :
          stream ⟨{ t with gcount := gcount }, s.failbit⟩ = s.stream.take 1 := by
        rw [stream, ByteStream.take]
        exact congrArg₂ (fun rest eofbit => (⟨rest, eofbit, s.failbit⟩ : ByteStream))
          htakes.pending htakes.eofbit
      split at h
      · next hfeed =>
        subst hfeed
        cases h
        rw [ByteStream.getline_feed hrest, ← hstream (line.length + 1)]
        exact ⟨rfl, hcount htakes.sound hclosed _ _ _⟩
      · next hne =>
        rw [ByteStream.getline_byte hrest hne, ← hstream t.gcount]
        exact ih ⟨htakes.sound, hclosed⟩ h

theorem getlineLoop_isSome {room : ℕ} {s : TcpInput} {line : List UInt8} (hs : s.tcp.Sound)
    (hclosed : s.tcp.socket.closed = true) : (getlineLoop room s line).isSome := by
  induction room generalizing s line with
  | zero => rfl
  | succ room ih =>
    obtain ⟨⟨data, exception, t⟩, hget⟩ :=
      Option.isSome_iff_exists.mp (TcpBuffer.get_isSome hclosed)
    obtain ⟨htakes, -⟩ := TcpBuffer.get_takes hs hget
    rw [getlineLoop, hget]
    cases exception with
    | some e => rfl
    | none =>
      cases data with
      | nil => rfl
      | cons c cs =>
        simp only
        split
        · rfl
        · exact ih htakes.sound (htakes.closed.trans hclosed)

/-- With a line feed to come `getline` returns. -/
theorem getlineLoop_isSome_of_feed {room : ℕ} {s : TcpInput} {line : List UInt8}
    (hs : s.tcp.Sound) (hfeed : 0x0a ∈ s.tcp.pending) : (getlineLoop room s line).isSome := by
  induction room generalizing s line with
  | zero => rfl
  | succ room ih =>
    obtain ⟨⟨data, exception, t⟩, hget⟩ := Option.isSome_iff_exists.mp
      (TcpBuffer.get_isSome_of_pending (List.ne_nil_of_mem hfeed))
    obtain ⟨htakes, -⟩ := TcpBuffer.get_takes hs hget
    have hdata : data = s.tcp.pending.take 1 := htakes.data
    have hpending : t.pending = s.tcp.pending.drop 1 := htakes.pending
    rw [getlineLoop, hget]
    cases exception with
    | some e => rfl
    | none =>
      cases hsplit : s.tcp.pending with
      | nil =>
        rw [hsplit] at hfeed
        cases hfeed
      | cons c rest =>
        rw [hsplit] at hdata hpending hfeed
        subst hdata
        simp only [List.take_succ_cons]
        split
        · rfl
        · next hne =>
          apply ih htakes.sound
          rw [hpending]
          exact (List.mem_cons.mp hfeed).resolve_left (Ne.symm hne)

/-! ### Any calls -/

/-- Each call gives what it would give on the stream itself. -/
theorem call_refines (socket : Socket) :
    Service.Refines call ByteStream.call stream (Ready socket) := by
  have hone {s s' : TcpInput} {request : InputCall} {a : InputAnswer} (hs : s.Ready socket)
      (h : s.call request = some (a, s')) :
      (a, s'.stream) = s.stream.call request ∧ s'.Ready socket := by
    cases request with
    | get =>
      obtain ⟨r, hr, heq⟩ := Option.map_eq_some_iff.mp h
      obtain ⟨htakes, hgcount⟩ := TcpBuffer.get_takes hs.sound hr
      cases heq
      have hdata : r.data = s.tcp.pending.take 1 := htakes.data
      refine ⟨(answer_of_takes htakes s.failbit r.data).trans ?_, htakes.sound,
        htakes.closed.trans hs.closed⟩
      rw [hgcount, hdata]
      rfl
    | read len =>
      obtain ⟨r, hr, heq⟩ := Option.map_eq_some_iff.mp h
      obtain ⟨htakes, hgcount⟩ := TcpBuffer.read_takes hs.sound hr
      cases heq
      have hdata : r.data = s.tcp.pending.take len := htakes.data
      refine ⟨(answer_of_takes htakes s.failbit r.data).trans ?_, htakes.sound,
        htakes.closed.trans hs.closed⟩
      rw [hgcount, hdata]
      rfl
    | ignore len =>
      obtain ⟨r, hr, heq⟩ := Option.map_eq_some_iff.mp h
      obtain ⟨hdata, htakes, hgcount⟩ := ignore_takes hs.sound hr
      cases heq
      refine ⟨(answer_of_takes htakes s.failbit _).trans ?_, htakes.sound,
        htakes.closed.trans hs.closed⟩
      rw [hgcount, hdata]
      rfl
    | getline maxlen =>
      have ht : Ready socket ⟨{ s.tcp with gcount := 0 }, s.failbit⟩ :=
        ⟨⟨hs.sound.clean, hs.sound.taken, hs.sound.bounded⟩, hs.closed⟩
      simp only [call, getline] at h
      rw [ByteStream.call]
      split at h
      · next hle =>
        cases h
        rw [if_pos hle]
        exact ⟨rfl, ht.sound, ht.closed⟩
      · next hgt =>
        rw [if_neg hgt]
        exact getlineLoop_spec (s := ⟨{ s.tcp with gcount := 0 }, s.failbit⟩) ht h
  exact ⟨fun hs h => (hone hs h).1, fun hs h => (hone hs h).2⟩

/-- On a closed connection every call returns. -/
theorem call_isSome {socket : Socket} (hclosed : socket.closed = true) {s : TcpInput}
    {request : InputCall} (hs : s.Ready socket) : (s.call request).isSome := by
  have hopen : s.tcp.socket.closed = true := hs.closed.trans hclosed
  cases request with
  | get =>
    rw [call, Option.isSome_map]
    exact TcpBuffer.get_isSome hopen
  | read len =>
    rw [call, Option.isSome_map]
    exact TcpBuffer.read_isSome hs.sound hopen len
  | ignore len =>
    simp only [call, Option.isSome_map, ignore]
    split
    · rfl
    · rw [Option.isSome_map]
      exact TcpBuffer.getLoop_isSome (t := { s.tcp with gcount := 0 })
        ⟨hs.sound.clean, hs.sound.taken, hs.sound.bounded⟩ hopen []
  | getline maxlen =>
    simp only [call, getline]
    split
    · rfl
    · exact getlineLoop_isSome ⟨hs.sound.clean, hs.sound.taken, hs.sound.bounded⟩ hopen

theorem ready_start {socket : Socket} (h : socket.Clean) : (start socket).Ready socket :=
  ⟨TcpBuffer.sound_start h, rfl⟩

/-- For any calls in any order, on any socket whose `recv` does not fail: the answers are those of
the bare stream of bytes, the buffer stays in its bounds, and if the peer closes the connection
none of the calls blocks. How the network has cut the stream makes no difference. -/
theorem answers_of_stream (socket : Socket) (hclean : socket.Clean) (calls : List InputCall) :
    (∀ as s, Service.answers call (start socket) calls = some (as, s) →
      (as, s.stream) = Service.specified ByteStream.call ⟨socket.bytes, false, false⟩ calls ∧
        s.tcp.rbufnxt ≤ s.tcp.rbuf.length ∧ s.tcp.rbuf.length ≤ TcpBuffer.bufsize) ∧
      (socket.closed = true → (Service.answers call (start socket) calls).isSome) := by
  have href := call_refines socket
  have hstart := ready_start hclean
  refine ⟨fun as s h => ?_, fun hclosed => ?_⟩
  · have hready := Service.inv_of_answers href.keeps hstart h
    exact ⟨href.answers_eq hstart h, hready.sound.taken, hready.sound.bounded⟩
  · exact Service.answers_isSome href.keeps (call_isSome hclosed) hstart calls

/-- Two lines and the beginning of a third, in three pieces. -/
def threePieces : Socket := ⟨[.data 0x61 [0x62], .data 0x0a [0x63], .data 0x0a [0x64]], true⟩

theorem answers_of_three_pieces :
    ∃ as s, Service.answers call (start threePieces)
        [.getline 80, .get, .ignore 1, .read 5, .getline 80] = some (as, s) ∧
      as.map (·.data) = [[0x61, 0x62], [0x63], [], [0x64], []] ∧
      (as, s.stream) = Service.specified ByteStream.call ⟨threePieces.bytes, false, false⟩
        [.getline 80, .get, .ignore 1, .read 5, .getline 80] := by
  refine ⟨_, _, rfl, by decide, ?_⟩
  exact ((answers_of_stream threePieces (by simp [Socket.Clean, threePieces]) _).1 _ _ rfl).1

end TcpInput

end LebStudy
