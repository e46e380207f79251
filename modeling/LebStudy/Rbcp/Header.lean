import LebStudy.Lib.BigEndian
import LebStudy.Lib.Buffer

/-!
# Packets of the register protocol

A packet of RBCP is a header of eight bytes and the registers that it carries.
`read`, `write` and the server build and read packets in buffers that they use
again and again, so that the bytes behind a short packet are those of an earlier
one.
-/

namespace LebStudy

open BigEndian

/-- `struct bcp_header` of a request and `struct rbcp_header` of its reply; the address in
host order. -/
structure BcpHeader where
  type : UInt8
  command : UInt8
  id : UInt8
  length : UInt8
  address : UInt32
  deriving DecidableEq, Repr

def rbcpVer : UInt8 := 0xff
def rbcpCmdWr : UInt8 := 0x80
def rbcpCmdRd : UInt8 := 0xc0

namespace BcpHeader

/-- `sizeof(struct bcp_header)` -/
def size : ℕ := 8

def bytes (h : BcpHeader) : List UInt8 :=
  [h.type, h.command, h.id, h.length] ++ beBytes 4 h.address.toNat

/-- The header at the start of a buffer. -/
def ofBuffer (buf : Buffer) : BcpHeader where
  type := buf 0
  command := buf 1
  id := buf 2
  length := buf 3
  address := UInt32.ofNat (beNat [buf 4, buf 5, buf 6, buf 7])

@[simp] theorem bytes_length (h : BcpHeader) : h.bytes.length = size := by simp [bytes, size]

theorem length_pos {h : BcpHeader} (hne : h.length ≠ 0) : 0 < h.length.toNat := by
  by_contra hzero
  exact hne (UInt8.toNat_inj.mp (by simpa using hzero))

/-- Writing a header and reading it out of the buffer again. -/
theorem ofBuffer_eq {buf : Buffer} {h : BcpHeader} (hbuf : buf.bytes size = h.bytes) :
    ofBuffer buf = h := by
  have haddress : beBytes 4 h.address.toNat = [buf 4, buf 5, buf 6, buf 7] :=
    (congrArg (List.drop 4) hbuf).symm
  have hfirst : [h.type, h.command, h.id, h.length] = [buf 0, buf 1, buf 2, buf 3] :=
    (congrArg (List.take 4) hbuf).symm
  cases h
  simp only [List.cons.injEq, and_true] at hfirst
  obtain ⟨rfl, rfl, rfl, rfl⟩ := hfirst
  simp [ofBuffer, ← haddress]

/-- A packet in a buffer: the header at its front is read. -/
theorem ofBuffer_store (buf : Buffer) (h : BcpHeader) (data : List UInt8) :
    ofBuffer (buf.store (h.bytes ++ data)) = h := by
  refine ofBuffer_eq ?_
  have hheld := (Buffer.holds_append.mp (Buffer.holds_store buf (h.bytes ++ data))).1
  rwa [Buffer.Holds, bytes_length] at hheld

end BcpHeader

end LebStudy
