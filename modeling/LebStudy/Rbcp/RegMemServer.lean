import LebStudy.Rbcp.Registers

/-!
# The other register server

`RBCPServer::server_recv_to_reg_mem` is the loop of the `TEST_SERVER` program written a
second time, without the line that copies the type of the request into the reply. The
first byte of its replies stays what it was at the start of the program.

Before it looks at the command it prints the data of the packet, in a loop up to
`ndata - sizeof(struct bcp_header)`. This is an unsigned number: with a packet that is shorter
than a header the loop runs on behind the buffer until the program crashes.
-/

namespace LebStudy

/-- The bytes that `receive` takes of a datagram. -/
def received (packet : List UInt8) : List UInt8 := packet.take 2048

/-- The header that the datagram brings, if it brings all of it. -/
def ownHeader (packet : List UInt8) : BcpHeader :=
  BcpHeader.ofBuffer (Buffer.store (fun _ => 0) (received packet))

/-- The header in the buffer is that of the datagram, if it has one. -/
theorem ofBuffer_received {packet : List UInt8} (h : BcpHeader.size ≤ (received packet).length)
    (buf : Buffer) :
    BcpHeader.ofBuffer (buf.store (received packet)) = ownHeader packet := by
  have hbytes : (buf.store (received packet)).bytes BcpHeader.size =
      (Buffer.store (fun _ => 0) (received packet)).bytes BcpHeader.size := by
    rw [Buffer.bytes_store h, Buffer.bytes_store h]
  simp only [Buffer.bytes, List.map_inj_left, List.mem_range] at hbytes
  have hsize : BcpHeader.size = 8 := rfl
  simp only [ownHeader, BcpHeader.ofBuffer, hbytes 0 (by omega), hbytes 1 (by omega),
    hbytes 2 (by omega), hbytes 3 (by omega), hbytes 4 (by omega), hbytes 5 (by omega),
    hbytes 6 (by omega), hbytes 7 (by omega)]

/-- `class RBCPServer` with its registers: `regMem` is `m_reg_mem`, `buf` the buffer of the
caller and `rbuf` the static one of `server_recv_to_reg_mem`. `inDump` is set where the thread
does not get out of the loop that prints the data. -/
structure RBCPServer extends TestServer where
  mRegMemSize : UInt32
  inDump : Bool

/-- `ndata - sizeof(struct bcp_header)`, of type `size_t` -/
def dumpBound (ndata : ℕ) : UInt64 := UInt64.ofNat ndata - UInt64.ofNat BcpHeader.size

/-- The loop that prints the data gets to its bound: `i` is an `unsigned int`. -/
def DumpEnds (packet : List UInt8) : Prop := (dumpBound (received packet).length).toNat < 2 ^ 32

instance (packet : List UInt8) : Decidable (DumpEnds packet) :=
  inferInstanceAs (Decidable (_ < _))

theorem received_length (packet : List UInt8) :
    (received packet).length = min 2048 packet.length := List.length_take

/-- It does so if the packet brings a header. -/
theorem dumpEnds_iff {packet : List UInt8} :
    DumpEnds packet ↔ BcpHeader.size ≤ (received packet).length := by
  have hlen : (received packet).length ≤ 2048 := by
    rw [received_length]
    omega
  have hsize : BcpHeader.size = 8 := rfl
  have hn : (UInt64.ofNat (received packet).length).toNat = (received packet).length := by
    rw [UInt64.toNat_ofNat']
    omega
  rw [DumpEnds, dumpBound, UInt64.toNat_sub, hn, hsize, UInt64.toNat_ofNat']
  omega

namespace RBCPServer

/-- `rbcph->address = bcph->address` and the like for all fields but the type. -/
def copyFields (s : RBCPServer) : TestServer :=
  { s.toTestServer with rbuf := s.rbuf.storeAt 1 ((s.buf.bytes BcpHeader.size).drop 1) }

/-- A turn with a packet in `buf`; the loops over the registers are those of the other server. -/
def answer (s : RBCPServer) : RBCPServer :=
  { s with toTestServer := s.copyFields.perform (BcpHeader.ofBuffer s.buf) }

/-- The reply that the turn sends. -/
def reply (s : RBCPServer) : List UInt8 :=
  s.answer.rbuf.bytes (BcpHeader.size + (BcpHeader.ofBuffer s.buf).length.toNat)

/-- `receive(buf)` -/
def receive (s : RBCPServer) (packet : List UInt8) : RBCPServer :=
  { s with toTestServer := s.toTestServer.receive packet }

/-- `server_recv_to_reg_mem` at a packet; it waits for the next where the packet is empty, and
for good where it is still printing an earlier one. -/
def serverRecvToRegMem (s : RBCPServer) (packet : List UInt8) :
    RBCPServer × Option (List UInt8) :=
  if packet = [] ∨ s.inDump = true then (s, none)
  else if DumpEnds packet then ((s.receive packet).answer, some (s.receive packet).reply)
  else ({ s with toTestServer := (s.receive packet).copyFields, inDump := true }, none)

/-- Behind `init_reg_mem`, with the statics as they are at the start of the program. -/
def init (regMem : UInt32 → UInt8) (size : UInt32) (buf : Buffer) : RBCPServer where
  regMem := regMem
  buf := buf
  rbuf := fun _ => 0
  mRegMemSize := size
  inDump := false

theorem serverRecvToRegMem_of_ends {s : RBCPServer} {packet : List UInt8}
    (halive : s.inDump = false) (hends : DumpEnds packet) :
    s.serverRecvToRegMem packet = ((s.receive packet).answer, some (s.receive packet).reply) := by
  have hne : packet ≠ [] := by
    rintro rfl
    exact absurd hends (by decide)
  rw [serverRecvToRegMem, if_neg (by simp [hne, halive]), if_pos hends]

/-- A packet that does not bring a header is not answered, and no register is touched. -/
theorem serverRecvToRegMem_of_not_ends (s : RBCPServer) {packet : List UInt8}
    (hends : ¬ DumpEnds packet) :
    (s.serverRecvToRegMem packet).1.regMem = s.regMem ∧
      (s.serverRecvToRegMem packet).1.rbuf 0 = s.rbuf 0 ∧
      (s.serverRecvToRegMem packet).2 = none := by
  rw [serverRecvToRegMem]
  split
  · exact ⟨rfl, rfl, rfl⟩
  · exact ⟨rfl, rfl, rfl⟩

end RBCPServer

section Turn

variable {s : TestServer} {t : RBCPServer} {packet : List UInt8}

/-- The first byte of a reply is the type that it carries. -/
theorem bytes_head (buf : Buffer) (n : ℕ) :
    (buf.bytes (BcpHeader.size + n)).head? = some (buf 0) := by
  have hlen : 0 < (buf.bytes (BcpHeader.size + n)).length := by
    rw [Buffer.bytes_length]
    exact Nat.add_pos_left (by decide) n
  rw [List.head?_eq_getElem?, List.getElem?_eq_getElem hlen]
  simp [Buffer.bytes]

theorem TestServer.reply_head (s : TestServer) : s.reply.head? = some (s.buf 0) := by
  have hcopied : s.copyHeader.rbuf 0 = s.buf 0 := rfl
  have hanswer : s.answer.rbuf 0 = s.buf 0 := by
    rw [answer, perform_rbuf_of_lt _ (by decide), hcopied]
  rw [TestServer.reply, bytes_head, hanswer]

/-- Nothing writes the first byte of `rbuf`. -/
theorem RBCPServer.answer_rbuf_zero (t : RBCPServer) : t.answer.rbuf 0 = t.rbuf 0 := by
  have hcopied : t.copyFields.rbuf 0 = t.rbuf 0 := rfl
  rw [answer, TestServer.perform_rbuf_of_lt _ (by decide), hcopied]

theorem RBCPServer.reply_head (t : RBCPServer) : t.reply.head? = some (t.rbuf 0) := by
  rw [RBCPServer.reply, bytes_head, answer_rbuf_zero]

/-- With the type in place already, the two copies of the header are the same. -/
theorem copyFields_eq (h : t.rbuf 0 = t.buf 0) : t.copyFields = t.toTestServer.copyHeader := by
  have hrbuf : t.rbuf.storeAt 1 ((t.buf.bytes BcpHeader.size).drop 1) =
      t.rbuf.store (t.buf.bytes BcpHeader.size) := by
    funext i
    cases i with
    | zero => exact h
    | succ i =>
      by_cases hi : i + 1 < BcpHeader.size
      · rw [Buffer.store_of_lt (by simpa using hi), Buffer.storeAt, if_pos (by omega)]
        rw [List.getD_eq_getElem _ _ (by simp; omega)]
        simp
      · rw [Buffer.store_of_le (by simpa using hi), Buffer.storeAt_of_le]
        rw [List.length_drop, Buffer.bytes_length]
        omega
  rw [RBCPServer.copyFields, TestServer.copyHeader, hrbuf]

end Turn

end LebStudy
