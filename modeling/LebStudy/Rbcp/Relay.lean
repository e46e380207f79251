import LebStudy.Lib.Transition
import LebStudy.Rbcp.Hop

/-!
# The relay

`relay` takes a request of `hopread` or `hopwrite`, makes the direct request out of it in
the same buffer, sends this to the target, and makes the answer out of the reply in
another buffer. Both buffers are static: behind what a turn receives they hold the
bytes of earlier turns, and `buf` as the turn before has rewritten it.
-/

namespace LebStudy

open BigEndian

/-- The IPv4 address and the port of a `struct sockaddr_in`, in host order. -/
structure SockAddr where
  ip : UInt32
  port : UInt16
  deriving DecidableEq, Repr

/-- `RBCP::ip_uint2char` -/
def ipUint2char (ipaddr : UInt32) : String :=
  let byte (n : UInt32) := toString ((ipaddr >>> n) &&& 0xff).toNat
  byte 24 ++ "." ++ byte 16 ++ "." ++ byte 8 ++ "." ++ byte 0

/-- A `getaddrinfo` that knows one address. -/
def localhost (hostname : String) : Option UInt32 :=
  if hostname = "127.0.0.1" then some 0x7f000001 else none

/-- What the sockets do in a turn of the loop. -/
structure RelayInput where
  /-- `recvfrom` at the server's socket: a packet and who has sent it, or -1 -/
  packet : Option (SockAddr × List UInt8)
  /-- `socket` and `connect` succeed in `rbcp.open` -/
  opens : Bool
  /-- `sendto` takes the datagram for the target -/
  sends : Bool
  /-- `recvfrom` at the socket of the hop -/
  reply : Option (List UInt8)

/-- What `relay` does that others can see. The length handed to `sendto` may be negative. -/
inductive RelayEvent
  /-- `rbcp.open` -/
  | opening (ip port : UInt32)
  /-- `rbcp.send` -/
  | hop (target : SockAddr) (len : ℤ) (datagram : List UInt8)
  /-- `serv.send` -/
  | serve (peer : SockAddr) (len : ℤ) (datagram : List UInt8)
  deriving DecidableEq

/-- `relay` before `serv.receive`, or when it has returned. `peer` is whom `serv` sends to. -/
structure Relay where
  buf : Buffer
  rbuf : Buffer
  peer : SockAddr
  returned : Option ℤ

namespace Relay

/-- The size of the arrays `buf` and `rbuf`. `recvfrom` takes packets of up to 2048 bytes all the
same; what lies behind an array is modelled as a part of it. -/
def bufSize : ℕ := 256 + EbcpHeader.size

/-- The static buffers are zero at first. -/
def start (peer : SockAddr) : Relay := ⟨fun _ => 0, fun _ => 0, peer, none⟩

/-- `serv.receive(buf)`, which takes at most 2048 bytes of a packet. -/
def receive (s : Relay) : Option (SockAddr × List UInt8) → ℤ × Relay
  | none => (-1, s)
  | some (peer, packet) =>
    ((packet.take 2048).length, { s with buf := s.buf.store (packet.take 2048), peer := peer })

/-- `RBCP::open` of the relay: the address that `connect` gets. -/
def openHop (getaddrinfo : String → Option UInt32) (hostname : String) (port : UInt32)
    (opens : Bool) : Option SockAddr :=
  match getaddrinfo hostname with
  | none => none
  | some ip => if opens then some ⟨ip, port.toUInt16⟩ else none

/-- `RBCP::send`. A negative length is no length that `sendto` takes. -/
def sent (len : ℤ) (sends : Bool) : ℤ := if 0 ≤ len ∧ sends then len else -1

/-- The request for the target, in place of that of the client. -/
def unwrap (buf : Buffer) : Buffer :=
  -- the loop reads `ebcph->length` at each turn; its byte is in front of what is moved
  Buffer.copyForward BcpHeader.size EbcpHeader.size (buf 3).toNat
    (Function.update buf 0 rbcpVer)

/-- The answer to the client, in place of the reply of the target. -/
def wrap (hopIp hopPort : UInt32) (rbuf : Buffer) : Buffer :=
  let rbuf := rbuf.copyBackward EbcpHeader.size BcpHeader.size (rbuf 3).toNat
  -- the address goes where the payload has been
  let rbuf := rbuf.storeAt BcpHeader.size (beBytes 4 hopIp.toNat)
  let rbuf := rbuf.storeAt (BcpHeader.size + 4) (beBytes 4 hopPort.toNat)
  Function.update rbuf 0 rbcpTypeHop

/-- What follows `rbcp.receive(rbuf)`. -/
def answer (s : Relay) (hopIp hopPort : UInt32) :
    Option (List UInt8) → Relay × List RelayEvent
  | none => ({ s with returned := some (-1) }, [])
  | some reply =>
    let rbuf := s.rbuf.store (reply.take 2048)
    let rlen := (reply.take 2048).length
    if rlen = 0 then ({ s with rbuf := rbuf, returned := some 0 }, [])
    else
      let rbuf := wrap hopIp hopPort rbuf
      let elen := rlen + (EbcpHeader.size - BcpHeader.size)
      ({ s with rbuf := rbuf }, [.serve s.peer elen (rbuf.bytes elen)])

/-- The branch of `RBCP_TYPE_HOP`. -/
def hop (getaddrinfo : String → Option UInt32) (s : Relay) (ndata : ℤ) (i : RelayInput) :
    Relay × List RelayEvent :=
  let h := EbcpHeader.ofBuffer s.buf
  match openHop getaddrinfo (ipUint2char h.destIp) h.destPort i.opens with
  -- `continue`, with the request still in `buf`
  | none => (s, [.opening h.destIp h.destPort])
  | some target =>
    let s := { s with buf := unwrap s.buf }
    let len := ndata - (EbcpHeader.size - BcpHeader.size : ℕ)
    let events := [.opening h.destIp h.destPort, .hop target len (s.buf.bytes len.toNat)]
    if sent len i.sends ≠ len then ({ s with returned := some (-1) }, events)
    else
      let (s, answers) := s.answer h.destIp h.destPort i.reply
      (s, events ++ answers)

/-- A turn of the loop. -/
def turn (getaddrinfo : String → Option UInt32) (s : Relay) (i : RelayInput) :
    Relay × List RelayEvent :=
  let (ndata, s) := s.receive i.packet
  -- after a timeout this is the type of an earlier request, or what became of it
  if s.buf 0 = rbcpVer then (s, [.serve s.peer ndata (s.buf.bytes ndata.toNat)])
  else if s.buf 0 = rbcpTypeHop then s.hop getaddrinfo ndata i
  else (s, [])

/-- The loop, until `relay` returns. -/
def step (getaddrinfo : String → Option UInt32) (s : Relay) (i : RelayInput) : Option Relay :=
  if s.returned = none then some (s.turn getaddrinfo i).1 else none

/-! ### A turn by its cases -/

section Turn

variable {getaddrinfo : String → Option UInt32} {s t : Relay} {i : RelayInput} {ndata : ℤ}
  {target : SockAddr} {packet : List UInt8}

theorem turn_ver (hreceive : s.receive i.packet = (ndata, t)) (htype : t.buf 0 = rbcpVer) :
    s.turn getaddrinfo i = (t, [.serve t.peer ndata (t.buf.bytes ndata.toNat)]) := by
  rw [turn, hreceive]
  exact if_pos htype

theorem turn_hop (hreceive : s.receive i.packet = (ndata, t)) (htype : t.buf 0 = rbcpTypeHop) :
    s.turn getaddrinfo i = t.hop getaddrinfo ndata i := by
  have hver : t.buf 0 ≠ rbcpVer := by
    rw [htype]
    decide
  rw [turn, hreceive]
  exact (if_neg hver).trans (if_pos htype)

theorem turn_other (hreceive : s.receive i.packet = (ndata, t)) (hver : t.buf 0 ≠ rbcpVer)
    (hhop : t.buf 0 ≠ rbcpTypeHop) : s.turn getaddrinfo i = (t, []) := by
  rw [turn, hreceive]
  exact (if_neg hver).trans (if_neg hhop)

theorem hop_unopened
    (hopen : openHop getaddrinfo (ipUint2char (EbcpHeader.ofBuffer s.buf).destIp)
      (EbcpHeader.ofBuffer s.buf).destPort i.opens = none) :
    s.hop getaddrinfo ndata i = (s, [.opening (EbcpHeader.ofBuffer s.buf).destIp
      (EbcpHeader.ofBuffer s.buf).destPort]) := by
  simp only [hop, hopen]

/-- The datagram goes to the target. -/
theorem hop_sent
    (hopen : openHop getaddrinfo (ipUint2char (EbcpHeader.ofBuffer s.buf).destIp)
      (EbcpHeader.ofBuffer s.buf).destPort i.opens = some target)
    (hsent : sent (ndata - (EbcpHeader.size - BcpHeader.size : ℕ)) i.sends =
      ndata - (EbcpHeader.size - BcpHeader.size : ℕ)) :
    s.hop getaddrinfo ndata i =
      (({ s with buf := unwrap s.buf }.answer (EbcpHeader.ofBuffer s.buf).destIp
          (EbcpHeader.ofBuffer s.buf).destPort i.reply).1,
        [.opening (EbcpHeader.ofBuffer s.buf).destIp (EbcpHeader.ofBuffer s.buf).destPort,
          .hop target (ndata - (EbcpHeader.size - BcpHeader.size : ℕ))
            ((unwrap s.buf).bytes (ndata - (EbcpHeader.size - BcpHeader.size : ℕ)).toNat)] ++
          ({ s with buf := unwrap s.buf }.answer (EbcpHeader.ofBuffer s.buf).destIp
            (EbcpHeader.ofBuffer s.buf).destPort i.reply).2) := by
  simp only [hop, hopen, hsent, ne_eq, not_true_eq_false, if_false]

theorem receive_some (s : Relay) (peer : SockAddr) (packet : List UInt8) :
    s.receive (some (peer, packet)) = (((packet.take 2048).length : ℤ),
      { s with buf := s.buf.store (packet.take 2048), peer := peer }) := rfl

/-- The reply goes back to the client. -/
theorem answer_some (s : Relay) (hopIp hopPort : UInt32) (hne : packet ≠ []) :
    s.answer hopIp hopPort (some packet) =
      ({ s with rbuf := wrap hopIp hopPort (s.rbuf.store (packet.take 2048)) },
        [.serve s.peer ((packet.take 2048).length + 8 : ℕ)
          ((wrap hopIp hopPort (s.rbuf.store (packet.take 2048))).bytes
            ((packet.take 2048).length + 8))]) := by
  have hlen : (packet.take 2048).length ≠ 0 := by
    have hpos := List.length_pos_iff.mpr hne
    rw [List.length_take]
    omega
  exact if_neg hlen

end Turn

/-! ### The two moves -/

section Moves

variable {buf rbuf : Buffer} {hopIp hopPort : UInt32} {k : ℕ}

theorem unwrap_zero (buf : Buffer) : unwrap buf 0 = rbcpVer := by
  rw [unwrap, Buffer.copyForward_apply (by decide), if_neg (by simp [BcpHeader.size]),
    Function.update_self]

theorem unwrap_of_lt (hpos : 0 < k) (hk : k < BcpHeader.size) : unwrap buf k = buf k := by
  rw [unwrap, Buffer.copyForward_apply (by decide), if_neg (by omega),
    Function.update_of_ne (by omega)]

theorem unwrap_add (hk : k < (buf 3).toNat) :
    unwrap buf (BcpHeader.size + k) = buf (EbcpHeader.size + k) := by
  rw [unwrap, Buffer.copyForward_apply (by decide), if_pos (by omega), Nat.add_sub_cancel_left,
    Function.update_of_ne (by simp [EbcpHeader.size])]

theorem unwrap_of_le (hk : BcpHeader.size + (buf 3).toNat ≤ k) : unwrap buf k = buf k := by
  have hpos : k ≠ 0 := by
    rw [BcpHeader.size] at hk
    omega
  rw [unwrap, Buffer.copyForward_apply (by decide), if_neg (by omega), Function.update_of_ne hpos]

theorem wrap_zero (rbuf : Buffer) : wrap hopIp hopPort rbuf 0 = rbcpTypeHop := by
  rw [wrap, Function.update_self]

theorem wrap_of_lt (hpos : 0 < k) (hk : k < BcpHeader.size) :
    wrap hopIp hopPort rbuf k = rbuf k := by
  have hsize : BcpHeader.size ≤ EbcpHeader.size := by decide
  rw [wrap, Function.update_of_ne (by omega), Buffer.storeAt_of_lt (by omega),
    Buffer.storeAt_of_lt hk, Buffer.copyBackward_apply hsize, if_neg (by omega)]

theorem wrap_ip (hk : k < 4) :
    wrap hopIp hopPort rbuf (BcpHeader.size + k) = (beBytes 4 hopIp.toNat).getD k 0 := by
  have hpos : BcpHeader.size + k ≠ 0 := by simp [BcpHeader.size]
  rw [wrap, Function.update_of_ne hpos, Buffer.storeAt_of_lt (by omega),
    Buffer.storeAt_add (by rw [beBytes_length]; exact hk)]

theorem wrap_port (hk : k < 4) :
    wrap hopIp hopPort rbuf (BcpHeader.size + 4 + k) = (beBytes 4 hopPort.toNat).getD k 0 := by
  have hpos : BcpHeader.size + 4 + k ≠ 0 := by simp [BcpHeader.size]
  rw [wrap, Function.update_of_ne hpos, Buffer.storeAt_add (by rw [beBytes_length]; exact hk)]

theorem wrap_add (hk : k < (rbuf 3).toNat) :
    wrap hopIp hopPort rbuf (EbcpHeader.size + k) = rbuf (BcpHeader.size + k) := by
  have hsize : EbcpHeader.size = BcpHeader.size + 8 := rfl
  have hpos : EbcpHeader.size + k ≠ 0 := by simp [EbcpHeader.size]
  rw [wrap, Function.update_of_ne hpos, Buffer.storeAt_of_le (by simp; omega),
    Buffer.storeAt_of_le (by simp; omega), Buffer.copyBackward_apply (by omega),
    if_pos (by omega), Nat.add_sub_cancel_left]

theorem wrap_of_le (hk : EbcpHeader.size + (rbuf 3).toNat ≤ k) :
    wrap hopIp hopPort rbuf k = rbuf k := by
  have hsize : EbcpHeader.size = BcpHeader.size + 8 := rfl
  have hpos : k ≠ 0 := by omega
  rw [wrap, Function.update_of_ne hpos, Buffer.storeAt_of_le (by simp; omega),
    Buffer.storeAt_of_le (by simp; omega), Buffer.copyBackward_apply (by omega),
    if_neg (by omega)]

end Moves

end Relay

end LebStudy
