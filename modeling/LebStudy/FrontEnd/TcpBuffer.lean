import Mathlib.Data.List.Basic

/-!
# `kol::TcpBuffer`

A socket is what successive calls of `recv` find on it, so a statement about all
sockets is a statement about all ways in which TCP cuts a stream. `TcpBuffer::read`
gathers bytes until it has as many as were asked for or the stream ends, and tells
a short read from a full one by `gcount` and `eofbit` only.
-/

namespace LebStudy

structure SocketException where
  what : String
  deriving DecidableEq, Repr

/-- What a call of `recv` finds: bytes, at least one of them, or an error. -/
inductive Incoming
  | data (first : UInt8) (rest : List UInt8)
  | error
  deriving DecidableEq, Repr

def Incoming.bytes : Incoming → List UInt8
  | data first rest => first :: rest
  | error => []

/-- A connected socket: what is to come, and whether the peer closes the connection after
it. On a connection that stays open `recv` then blocks. -/
structure Socket where
  incoming : List Incoming
  closed : Bool
  deriving DecidableEq, Repr

namespace Socket

/-- What `recv` has not taken stays in front. -/
def unread (bs : List UInt8) (incoming : List Incoming) : List Incoming :=
  match bs with
  | [] => incoming
  | b :: bs => .data b bs :: incoming

/-- `Socket::recv`: none where the call blocks, no bytes at the end of the stream. -/
def recv (s : Socket) (len : ℕ) : Option (Except SocketException (List UInt8) × Socket) :=
  match s.incoming with
  | [] => if s.closed then some (.ok [], s) else none
  | .error :: rest => some (.error ⟨"Socket::recv error"⟩, { s with incoming := rest })
  | .data b bs :: rest =>
    some (.ok ((b :: bs).take len), { s with incoming := unread ((b :: bs).drop len) rest })

/-- The stream: all bytes to come. -/
def bytes (s : Socket) : List UInt8 := s.incoming.flatMap Incoming.bytes

/-- No call of `recv` fails. -/
def Clean (s : Socket) : Prop := .error ∉ s.incoming

theorem bytes_unread (bs : List UInt8) (incoming : List Incoming) :
    (unread bs incoming).flatMap Incoming.bytes = bs ++ incoming.flatMap Incoming.bytes := by
  cases bs <;> simp [unread, Incoming.bytes]

theorem mem_unread {bs : List UInt8} {incoming : List Incoming} :
    .error ∈ unread bs incoming ↔ .error ∈ incoming := by
  cases bs <;> simp [unread]

/-- On a clean socket `recv` takes bytes off the front of the stream, none only at its end. -/
theorem recv_spec {s s' : Socket} {len : ℕ} {out : Except SocketException (List UInt8)}
    (hs : s.Clean) (hlen : 0 < len) (h : s.recv len = some (out, s')) :
    ∃ got, out = .ok got ∧ got.length ≤ len ∧ s.bytes = got ++ s'.bytes ∧ s'.Clean ∧
      s'.closed = s.closed ∧ (got = [] → s.bytes = [] ∧ s.closed = true) := by
  obtain ⟨incoming, closed⟩ := s
  match incoming with
  | [] =>
    cases closed
    · cases h
    · cases h
      exact ⟨[], rfl, Nat.zero_le _, rfl, hs, rfl, fun _ => ⟨rfl, rfl⟩⟩
  | .error :: rest => exact absurd (List.mem_cons_self) hs
  | .data b bs :: rest =>
    cases h
    refine ⟨(b :: bs).take len, rfl, List.length_take_le _ _, ?_, ?_, rfl, ?_⟩
    · rw [bytes, bytes, bytes_unread, ← List.append_assoc, List.take_append_drop]
      rfl
    · intro hmem
      exact hs (List.mem_cons_of_mem _ (mem_unread.mp hmem))
    · intro hnil
      rw [List.take_eq_nil_iff] at hnil
      obtain hzero | hcons := hnil
      · omega
      · cases hcons

end Socket

/-- `class TcpBuffer`, what its reading side uses: `rbuf` are the `m_rbuflen` bytes of
`m_rbuf`, of which `rbufnxt` have been taken. -/
structure TcpBuffer where
  socket : Socket
  gcount : ℕ
  eofbit : Bool
  rbuf : List UInt8
  rbufnxt : ℕ
  deriving DecidableEq, Repr

/-- What a read leaves behind: the bytes it has stored, the exception it ends with, if it
does, and the buffer. -/
structure ReadResult where
  data : List UInt8
  exception : Option SocketException
  tcp : TcpBuffer
  deriving DecidableEq, Repr

namespace TcpBuffer

/-- `bufsize` -/
def bufsize : ℕ := 1024

/-- `initparams` on a connected socket. -/
def start (socket : Socket) : TcpBuffer where
  socket := socket
  gcount := 0
  eofbit := false
  rbuf := []
  rbufnxt := 0

/-- The loop of `recv_all`. Each turn of it but the last stores a byte or more, so `nbytes`
turns will do; a negative count does not come out of `Socket::recv`, which throws. -/
def recvLoop : ℕ → TcpBuffer → ℕ → List UInt8 → Option ReadResult
  | 0, t, _, buf => some ⟨buf, none, t⟩
  | fuel + 1, t, nleft, buf =>
    if nleft = 0 then some ⟨buf, none, t⟩
    else
      match t.socket.recv nleft with
      | none => none
      | some (.error e, socket) => some ⟨buf, some e, { t with socket := socket }⟩
      | some (.ok [], socket) => some ⟨buf, none, { t with socket := socket, eofbit := true }⟩
      | some (.ok (b :: bs), socket) =>
        recvLoop fuel { t with socket := socket } (nleft - (b :: bs).length) (buf ++ b :: bs)

/-- `TcpBuffer::recv_all` -/
def recvAll (t : TcpBuffer) (nbytes : ℕ) : Option ReadResult := recvLoop nbytes t nbytes []

/-- `TcpBuffer::get`: at most one byte; none at the end of the stream. -/
def get (t : TcpBuffer) : Option ReadResult :=
  let take (t : TcpBuffer) : ReadResult :=
    ⟨(t.rbuf[t.rbufnxt]?).toList, none, { t with rbufnxt := t.rbufnxt + 1, gcount := 1 }⟩
  if t.rbuf.length ≤ t.rbufnxt then
    let t := { t with rbuf := [], rbufnxt := 0 }
    match t.socket.recv bufsize with
    | none => none
    | some (.error e, socket) => some ⟨[], some e, { t with socket := socket }⟩
    | some (.ok [], socket) =>
      some ⟨[], none, { t with socket := socket, gcount := 0, eofbit := true }⟩
    | some (.ok (b :: bs), socket) => some (take { t with socket := socket, rbuf := b :: bs })
  else some (take t)

/-- The loop of `read` over `get`. -/
def getLoop : ℕ → TcpBuffer → List UInt8 → Option ReadResult
  | 0, t, buf => some ⟨buf, none, { t with gcount := buf.length }⟩
  | n + 1, t, buf =>
    match t.get with
    | none => none
    | some ⟨_, some e, t⟩ => some ⟨buf, some e, t⟩
    | some ⟨[], none, t⟩ => some ⟨buf, none, { t with gcount := buf.length }⟩
    | some ⟨b :: _, none, t⟩ => getLoop n t (buf ++ [b])

/-- `TcpBuffer::read` -/
def read (t : TcpBuffer) (len : ℕ) : Option ReadResult :=
  let t := { t with gcount := 0 }
  if len = 0 then some ⟨[], none, t⟩
  else if t.rbuf.length = 0 then
    (t.recvAll len).map fun r =>
      match r.exception with
      | some _ => r
      | none => { r with tcp := { r.tcp with gcount := r.data.length } }
  else getLoop len t []

/-- Only whole reads have been made, and no call of `recv` fails. -/
structure Plain (t : TcpBuffer) : Prop where
  rbuf : t.rbuf = []
  clean : t.socket.Clean

theorem plain_start {socket : Socket} (h : socket.Clean) : (start socket).Plain := ⟨rfl, h⟩

theorem recvLoop_spec {fuel nleft : ℕ} (hfuel : nleft ≤ fuel) {t : TcpBuffer} (ht : t.Plain)
    {buf : List UInt8} {r : ReadResult} (h : recvLoop fuel t nleft buf = some r) :
    r.exception = none ∧ r.data = buf ++ t.socket.bytes.take nleft ∧
      r.tcp.socket.bytes = t.socket.bytes.drop nleft ∧ r.tcp.Plain ∧
      r.tcp.socket.closed = t.socket.closed ∧
      (t.socket.bytes.length < nleft → t.socket.closed = true) := by
  induction fuel generalizing t nleft buf with
  | zero =>
    obtain rfl : nleft = 0 := by omega
    cases h
    simp [ht]
  | succ fuel ih =>
    rw [recvLoop] at h
    split at h
    · next hzero =>
      cases h
      simp [hzero, ht]
    · next hpos =>
      split at h
      · cases h
      · next e socket hrecv =>
        obtain ⟨got, hout, -⟩ := Socket.recv_spec ht.clean (by omega) hrecv
        cases hout
      · next socket hrecv =>
        cases h
        obtain ⟨got, hout, -, hbytes, hclean, hclosed, hend⟩ :=
          Socket.recv_spec ht.clean (by omega) hrecv
        cases hout
        obtain ⟨hnil, hc⟩ := hend rfl
        refine ⟨rfl, by simp [hnil], ?_, ⟨ht.rbuf, hclean⟩, hclosed, fun _ => hc⟩
        rw [hnil, List.nil_append] at hbytes
        rw [hnil, List.drop_nil, ← hbytes]
      · -- at least one byte has come, so the fuel lasts for the rest
        next b bs socket hrecv =>
        obtain ⟨got, hout, hlen, hbytes, hclean, hclosed, -⟩ :=
          Socket.recv_spec ht.clean (by omega) hrecv
        cases hout
        have hplain : ({ t with socket := socket } : TcpBuffer).Plain := ⟨ht.rbuf, hclean⟩
        have hfuel' : nleft - (b :: bs).length ≤ fuel := by
          rw [List.length_cons]
          omega
        obtain ⟨hexc, hdata, hrest, hplain', hclosed', hshort⟩ := ih hfuel' hplain h
        refine ⟨hexc, ?_, ?_, hplain', hclosed'.trans hclosed, ?_⟩
        · rw [hdata, hbytes, List.take_append, List.take_of_length_le hlen, List.append_assoc]
        · rw [hrest, hbytes, List.drop_append, List.drop_of_length_le hlen, List.nil_append]
        · intro hlt
          rw [← hclosed]
          refine hshort ?_
          rw [hbytes, List.length_append] at hlt
          show socket.bytes.length < nleft - (b :: bs).length
          omega

/-- A whole read takes the bytes asked for off the front of the stream, or what is left of
it where the stream ends before. -/
theorem read_spec {t : TcpBuffer} (ht : t.Plain) {len : ℕ} {r : ReadResult}
    (h : t.read len = some r) :
    r.exception = none ∧ r.data = t.socket.bytes.take len ∧
      r.tcp.socket.bytes = t.socket.bytes.drop len ∧ r.tcp.Plain ∧
      r.tcp.socket.closed = t.socket.closed ∧ r.tcp.gcount = r.data.length ∧
      (t.socket.bytes.length < len → t.socket.closed = true) := by
  have ht' : ({ t with gcount := 0 } : TcpBuffer).Plain := ⟨ht.rbuf, ht.clean⟩
  have hrbuf : t.rbuf.length = 0 := by rw [ht.rbuf, List.length_nil]
  rw [read] at h
  simp only [hrbuf, if_true] at h
  split at h
  · next hzero =>
    cases h
    simp [hzero, ht']
  · obtain ⟨r', hr', rfl⟩ := Option.map_eq_some_iff.mp h
    obtain ⟨hexc, hdata, hrest, hplain, hclosed, hshort⟩ := recvLoop_spec (Nat.le_refl len) ht' hr'
    rw [hexc]
    exact ⟨rfl, hdata, hrest, ⟨hplain.rbuf, hplain.clean⟩, hclosed, rfl, hshort⟩

/-- A read that asks for no more than there is to come does not block. -/
theorem recvLoop_isSome_of_le {fuel nleft : ℕ} {t : TcpBuffer} (ht : t.socket.Clean)
    (hle : nleft ≤ t.socket.bytes.length) (buf : List UInt8) :
    (recvLoop fuel t nleft buf).isSome := by
  induction fuel generalizing t nleft buf with
  | zero => rfl
  | succ fuel ih =>
    rw [recvLoop]
    split
    · rfl
    · next hpos =>
      cases hrecv : t.socket.recv nleft with
      | none =>
        -- only an empty stream blocks
        have hnil : t.socket.incoming = [] := by
          rw [Socket.recv] at hrecv
          split at hrecv
          · assumption
          · cases hrecv
          · cases hrecv
        rw [Socket.bytes, hnil, List.flatMap_nil, List.length_nil] at hle
        omega
      | some out =>
        obtain ⟨out, socket⟩ := out
        obtain ⟨got, rfl, -, hbytes, hclean, -⟩ := Socket.recv_spec ht (by omega) hrecv
        cases got with
        | nil => rfl
        | cons b bs =>
          refine ih hclean ?_ _
          rw [hbytes, List.length_append] at hle
          show nleft - (b :: bs).length ≤ socket.bytes.length
          omega

theorem read_isSome_of_le {t : TcpBuffer} (ht : t.Plain) {len : ℕ}
    (hle : len ≤ t.socket.bytes.length) : (t.read len).isSome := by
  have hrbuf : t.rbuf.length = 0 := by rw [ht.rbuf, List.length_nil]
  simp only [read, hrbuf, if_true]
  split
  · rfl
  · rw [Option.isSome_map]
    exact recvLoop_isSome_of_le (t := { t with gcount := 0 }) ht.clean hle []

end TcpBuffer

end LebStudy
