import LebStudy.Rbcp.Header

/-!
# The client of the register protocol

`RBCP::read` and `RBCP::write`, each cut in two where it waits in `receive`: what it
sends, and what it makes of what `receive` returns.
-/

namespace LebStudy

/-- A call of `RBCP::read` or `RBCP::write`. `data` are the `len` bytes to write. -/
inductive RbcpCall
  | read (buf : Buffer) (addr : UInt32) (len : ℤ)
  | write (data : List UInt8) (addr : UInt32)

namespace RbcpCall

/-- The header of the request. `id` takes the low byte of `m_sequence`, `length` that of
`len`. -/
def header (mSequence : ℕ) : RbcpCall → BcpHeader
  | .read _ addr len => ⟨rbcpVer, rbcpCmdRd, UInt8.ofNat mSequence, UInt8.ofInt len, addr⟩
  | .write data addr =>
    ⟨rbcpVer, rbcpCmdWr, UInt8.ofNat mSequence, UInt8.ofNat data.length, addr⟩

/-- The request, unless there are more bytes to write than `sbuf` holds. -/
def request (mSequence : ℕ) : RbcpCall → Option (List UInt8)
  | .read buf addr len => some ((read buf addr len).header mSequence).bytes
  | .write data addr =>
    if data.length < 2048 - BcpHeader.size then
      some (((write data addr).header mSequence).bytes ++ data)
    else none

/-- `read` after `recvfrom`, which failed or put a packet into `buf`: the value that it returns
and `buf`. -/
def readReceived (buf : Buffer) : Option (List UInt8) → ℤ × Buffer
  | none => (-1, buf)
  | some packet =>
    let rlen := packet.length
    let buf := buf.store packet
    if rlen = 0 then (rlen, buf)
    else if BcpHeader.size < rlen then
      (((rlen - BcpHeader.size : ℕ) : ℤ), buf.moveDown BcpHeader.size (rlen - BcpHeader.size))
    else (rlen, buf)

/-- What both `read` and `hopread` do with a packet, behind a header of `size` bytes. -/
def receivedBehind (size : ℕ) (buf : Buffer) : Option (List UInt8) → ℤ × Buffer
  | none => (-1, buf)
  | some packet =>
    let rlen := packet.length
    let buf := buf.store packet
    if rlen = 0 then (rlen, buf)
    else if size < rlen then (((rlen - size : ℕ) : ℤ), buf.moveDown size (rlen - size))
    else (rlen, buf)

theorem readReceived_eq (buf : Buffer) (packet : Option (List UInt8)) :
    readReceived buf packet = receivedBehind BcpHeader.size buf packet := by
  cases packet <;> rfl

section ReceivedBehind

variable {size : ℕ} {buf : Buffer} {packet : List UInt8}

/-- Bytes behind the header: they are returned. -/
theorem receivedBehind_of_lt (h : size < packet.length) :
    ∃ buf', receivedBehind size buf (some packet) = (((packet.length - size : ℕ) : ℤ), buf') ∧
      buf'.bytes (packet.length - size) = packet.drop size := by
  refine ⟨(buf.store packet).moveDown size (packet.length - size), ?_, ?_⟩
  · rw [receivedBehind, if_neg (by omega), if_pos h]
  · have hsplit : size + (packet.length - size) = packet.length := by omega
    rw [Buffer.bytes_moveDown, hsplit, Buffer.bytes_store (Nat.le_refl _), List.take_length]

/-- No bytes behind the header: its own length is returned. -/
theorem receivedBehind_of_le (h : packet.length ≤ size) :
    receivedBehind size buf (some packet) = ((packet.length : ℤ), buf.store packet) := by
  rw [receivedBehind, if_neg (Nat.not_lt.mpr h)]
  by_cases hzero : packet.length = 0 <;> simp [hzero]

end ReceivedBehind

/-- The value that a call returns, and the bytes that a `read` has put into `buf`, as many as
it returns. `recvfrom` takes at most 2048 bytes of a packet. -/
def received (packet : Option (List UInt8)) : RbcpCall → ℤ × List UInt8
  | .read buf _ _ =>
    let (rlen, buf) := readReceived buf (packet.map (List.take 2048))
    (rlen, buf.bytes rlen.toNat)
  | .write _ _ =>
    match packet with
    | none => (-1, [])
    | some packet => ((packet.take 2048).length, [])

def IsRead : RbcpCall → Prop
  | .read _ _ _ => True
  | .write _ _ => False

variable {c : RbcpCall} {k : ℕ} {packet bytes : List UInt8}

/-- A request begins with its header. -/
theorem take_request (h : c.request k = some bytes) :
    bytes.take BcpHeader.size = (c.header k).bytes ∧ BcpHeader.size ≤ bytes.length := by
  cases c with
  | read buf addr len =>
    cases h
    exact ⟨List.take_of_length_le (by simp), by simp⟩
  | write data addr =>
    simp only [request] at h
    split at h
    · cases h
      exact ⟨List.take_left' (by simp), by simp⟩
    · cases h

theorem received_none (c : RbcpCall) : (c.received none).1 = -1 := by cases c <;> rfl

/-- Whatever a packet of any length is, a call returns a positive value for it. -/
theorem received_pos (hne : packet ≠ []) : 0 < (c.received (some packet)).1 := by
  have hlen : 0 < (packet.take 2048).length := by
    simpa using List.length_pos_iff.mpr hne
  cases c with
  | read buf addr len =>
    simp only [received, readReceived, Option.map_some]
    split
    · omega
    · split <;> dsimp only <;> omega
  | write data addr => exact Int.natCast_pos.mpr hlen

/-- What a `read` returns is what follows the header. -/
theorem received_read (hc : c.IsRead) (hlen : BcpHeader.size < packet.length)
    (hle : packet.length ≤ 2048) :
    (c.received (some packet)).2 = packet.drop BcpHeader.size := by
  cases c with
  | write data addr => exact hc.elim
  | read buf addr len =>
    obtain ⟨buf', hreceived, hbytes⟩ := @receivedBehind_of_lt _ buf _ hlen
    rw [received, Option.map_some, List.take_of_length_le hle, readReceived_eq, hreceived]
    exact hbytes

/-- How many bytes a `read` returns: those behind the header, or the whole packet where there
are none. -/
theorem received_read_value (hc : c.IsRead) (hle : packet.length ≤ 2048) :
    (c.received (some packet)).1 =
      if BcpHeader.size < packet.length then ((packet.length - BcpHeader.size : ℕ) : ℤ)
      else packet.length := by
  cases c with
  | write data addr => exact hc.elim
  | read buf addr len =>
    rw [received, Option.map_some, List.take_of_length_le hle, readReceived_eq]
    by_cases hlen : BcpHeader.size < packet.length
    · obtain ⟨buf', hreceived, -⟩ := @receivedBehind_of_lt _ buf _ hlen
      rw [hreceived, if_pos hlen]
    · rw [receivedBehind_of_le (Nat.le_of_not_lt hlen), if_neg hlen]

end RbcpCall

end LebStudy
