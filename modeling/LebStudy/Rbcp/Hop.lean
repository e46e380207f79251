import LebStudy.Rbcp.Client

/-!
# Register calls by way of a relay

`RBCP::hopread` and `RBCP::hopwrite`: the requests of `read` and `write` with the
address of the target behind the header, sent to a relay. As there, each call is cut
in two where it waits in `receive`.
-/

namespace LebStudy

open BigEndian

/-- `struct ebcp_header` of a request and `struct erbcp_header` of its answer: the header of
the register protocol and the target, in host order. -/
structure EbcpHeader extends BcpHeader where
  destIp : UInt32
  destPort : UInt32
  deriving DecidableEq, Repr

/-- `RBCP_TYPE_HOP` -/
def rbcpTypeHop : UInt8 := 0xf1

namespace EbcpHeader

/-- `sizeof(struct ebcp_header)` -/
def size : ℕ := 16

def bytes (h : EbcpHeader) : List UInt8 :=
  h.toBcpHeader.bytes ++ (beBytes 4 h.destIp.toNat ++ beBytes 4 h.destPort.toNat)

/-- The header at the start of a buffer. -/
def ofBuffer (buf : Buffer) : EbcpHeader where
  toBcpHeader := BcpHeader.ofBuffer buf
  destIp := UInt32.ofNat (beNat [buf 8, buf 9, buf 10, buf 11])
  destPort := UInt32.ofNat (beNat [buf 12, buf 13, buf 14, buf 15])

@[simp] theorem bytes_length (h : EbcpHeader) : h.bytes.length = size := by
  simp [bytes, BcpHeader.size, size]

/-- Writing a header and reading it out of the buffer again. -/
theorem ofBuffer_of_holds {buf : Buffer} {h : EbcpHeader} (hbuf : buf.Holds h.bytes) :
    ofBuffer buf = h := by
  obtain ⟨hbcp, hdest⟩ := Buffer.holds_append.mp hbuf
  obtain ⟨hip, hport⟩ := Buffer.holds_append.mp hdest
  rw [Buffer.plus_plus] at hport
  rw [Buffer.Holds, BcpHeader.bytes_length] at hbcp
  rw [Buffer.Holds, beBytes_length, BcpHeader.bytes_length] at hip
  rw [Buffer.Holds, beBytes_length, BcpHeader.bytes_length, beBytes_length] at hport
  have hip' : [buf 8, buf 9, buf 10, buf 11] = beBytes 4 h.destIp.toNat := hip
  have hport' : [buf 12, buf 13, buf 14, buf 15] = beBytes 4 h.destPort.toNat := hport
  rw [ofBuffer, BcpHeader.ofBuffer_eq hbcp, hip', hport', ofNat_beNat_beBytes_uint32,
    ofNat_beNat_beBytes_uint32]

/-- The header is read from the first sixteen bytes. -/
theorem ofBuffer_congr {buf buf' : Buffer} (h : ∀ k < size, buf k = buf' k) :
    ofBuffer buf = ofBuffer buf' := by
  simp (disch := decide) only [ofBuffer, BcpHeader.ofBuffer, h]

end EbcpHeader

/-- The header of the direct request in that of one by way of the relay. -/
def EbcpHeader.direct (h : EbcpHeader) : BcpHeader := { h.toBcpHeader with type := rbcpVer }

/-- The header of the answer to the client, from that of the reply of the target. -/
def BcpHeader.hopped (h : BcpHeader) (destIp destPort : UInt32) : EbcpHeader :=
  ⟨{ h with type := rbcpTypeHop }, destIp, destPort⟩

@[simp] theorem BcpHeader.hopped_destIp (h : BcpHeader) (destIp destPort : UInt32) :
    (h.hopped destIp destPort).destIp = destIp := rfl

@[simp] theorem BcpHeader.hopped_destPort (h : BcpHeader) (destIp destPort : UInt32) :
    (h.hopped destIp destPort).destPort = destPort := rfl

/-- A call of `RBCP::hopread` or `RBCP::hopwrite`: the arguments of the direct call, and the
target. -/
structure HopCall where
  call : RbcpCall
  destIp : UInt32
  destPort : UInt32

namespace HopCall

/-- The header of the request. -/
def header (mSequence : ℕ) (c : HopCall) : EbcpHeader :=
  match c.call with
  | .read _ addr len =>
    ⟨⟨rbcpTypeHop, rbcpCmdRd, UInt8.ofNat mSequence, UInt8.ofInt len, addr⟩, c.destIp,
      c.destPort⟩
  | .write data addr =>
    ⟨⟨rbcpTypeHop, rbcpCmdWr, UInt8.ofNat mSequence, UInt8.ofNat data.length, addr⟩, c.destIp,
      c.destPort⟩

/-- The request, unless there are more bytes to write than `sbuf` holds. -/
def request (mSequence : ℕ) (c : HopCall) : Option (List UInt8) :=
  match c.call with
  | .read _ _ _ => some (c.header mSequence).bytes
  | .write data _ =>
    if data.length < 2048 - EbcpHeader.size then some ((c.header mSequence).bytes ++ data)
    else none

/-- The value that a call returns, and the bytes that a `hopread` has put into `buf`, as many
as it returns. A wrong type or address in the answer is printed, no more. -/
def received (packet : Option (List UInt8)) (c : HopCall) : ℤ × List UInt8 :=
  match c.call with
  | .read buf _ _ =>
    let (rlen, buf) := RbcpCall.receivedBehind EbcpHeader.size buf (packet.map (List.take 2048))
    (rlen, buf.bytes rlen.toNat)
  | .write _ _ =>
    match packet with
    | none => (-1, [])
    | some packet => ((packet.take 2048).length, [])

/-- The header is that of the direct request, but for the type. -/
theorem header_eq (mSequence : ℕ) (c : HopCall) :
    c.header mSequence = (c.call.header mSequence).hopped c.destIp c.destPort := by
  cases c with
  | mk call destIp destPort => cases call <;> rfl

theorem direct_header (mSequence : ℕ) (c : HopCall) :
    (c.header mSequence).direct = c.call.header mSequence := by
  cases c with
  | mk call destIp destPort => cases call <;> rfl

end HopCall

namespace RbcpCall

/-- A header and the bytes behind it: these are returned. -/
theorem receivedBehind_append {size : ℕ} {header payload : List UInt8} (buf : Buffer)
    (hsize : header.length = size) (hne : payload ≠ []) :
    ∃ buf', receivedBehind size buf (some (header ++ payload)) = ((payload.length : ℤ), buf') ∧
      buf'.bytes payload.length = payload := by
  have hpos := List.length_pos_iff.mpr hne
  have hlen : (header ++ payload).length = size + payload.length := by
    rw [List.length_append, hsize]
  obtain ⟨buf', hreceived, hbytes⟩ := @receivedBehind_of_lt size buf (header ++ payload) (by omega)
  rw [hlen, Nat.add_sub_cancel_left] at hreceived hbytes
  exact ⟨buf', hreceived, hbytes.trans (List.drop_left' hsize)⟩

/-- The bytes behind the header of a request. -/
def body : RbcpCall → List UInt8
  | .read _ _ _ => []
  | .write data _ => data

/-- From 1 to 255 registers. -/
def InByte : RbcpCall → Prop
  | .read _ _ len => 1 ≤ len ∧ len ≤ 255
  | .write data _ => 1 ≤ data.length ∧ data.length ≤ 255

variable {c : RbcpCall}

theorem body_length_le (h : c.InByte) : c.body.length ≤ 255 := by
  cases c with
  | read buf addr len => simp [body]
  | write data addr => exact h.2

/-- The length in the header covers the body. -/
theorem body_length_le_header (h : c.InByte) (mSequence : ℕ) :
    c.body.length ≤ (c.header mSequence).length.toNat := by
  cases c with
  | read buf addr len => simp [body]
  | write data addr =>
    have hle : data.length ≤ 255 := h.2
    rw [body, header, UInt8.toNat_ofNat_of_lt' (by simp [UInt8.size]; omega)]

theorem request_eq (h : c.InByte) (mSequence : ℕ) :
    c.request mSequence = some ((c.header mSequence).bytes ++ c.body) := by
  cases c with
  | read buf addr len => rw [body, List.append_nil, request]
  | write data addr =>
    have hle : data.length ≤ 255 := h.2
    rw [body, request, if_pos (by simp [BcpHeader.size]; omega)]

theorem hop_request_eq (h : c.InByte) (mSequence : ℕ) (destIp destPort : UInt32) :
    HopCall.request mSequence ⟨c, destIp, destPort⟩ =
      some ((HopCall.header mSequence ⟨c, destIp, destPort⟩).bytes ++ c.body) := by
  cases c with
  | read buf addr len => rw [body, List.append_nil, HopCall.request]
  | write data addr =>
    have hle : data.length ≤ 255 := h.2
    have hlt : data.length < 2048 - EbcpHeader.size := by
      rw [EbcpHeader.size]
      omega
    exact if_pos hlt

end RbcpCall

end LebStudy
