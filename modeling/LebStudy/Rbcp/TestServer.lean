import LebStudy.Rbcp.Header
import Mathlib.Logic.Function.Basic

/-!
# The register server

The loop of the `TEST_SERVER` program: it takes a packet, copies the header into
the reply, and reads or writes as many registers as the header asks for, from its
address on. The index into the register memory is a 32-bit number and is not
checked, so the memory is modelled for every such index; the registers are its
first `128 * 128` bytes.
-/

namespace LebStudy

structure TestServer where
  regMem : UInt32 → UInt8
  buf : Buffer
  rbuf : Buffer

namespace TestServer

/-- `rbcph->type = bcph->type` and the like for the other fields: the header of the request,
as it lies in memory. -/
def copyHeader (s : TestServer) : TestServer :=
  { s with rbuf := s.rbuf.store (s.buf.bytes BcpHeader.size) }

/-- `rdata[i] = reg_mem[i + addr]` -/
def readRegister (addr : UInt32) (s : TestServer) (i : ℕ) : TestServer :=
  { s with
    rbuf := Function.update s.rbuf (BcpHeader.size + i) (s.regMem (UInt32.ofNat i + addr)) }

/-- `rdata[i] = reg_mem[i + addr] = data[i]` -/
def writeRegister (addr : UInt32) (s : TestServer) (i : ℕ) : TestServer :=
  let byte := s.buf (BcpHeader.size + i)
  { s with
    regMem := Function.update s.regMem (UInt32.ofNat i + addr) byte
    rbuf := Function.update s.rbuf (BcpHeader.size + i) byte }

/-- What the loop does for the command of a request. -/
def perform (s : TestServer) (h : BcpHeader) : TestServer :=
  let is := List.range h.length.toNat
  let s := if h.command = rbcpCmdRd then is.foldl (readRegister h.address) s else s
  if h.command = rbcpCmdWr then is.foldl (writeRegister h.address) s else s

/-- A turn of the loop with a packet in `buf`. -/
def answer (s : TestServer) : TestServer := s.copyHeader.perform (BcpHeader.ofBuffer s.buf)

/-- The reply that the turn sends. -/
def reply (s : TestServer) : List UInt8 :=
  s.answer.rbuf.bytes (BcpHeader.size + (BcpHeader.ofBuffer s.buf).length.toNat)

/-- `receive(buf)`, which takes at most 2048 bytes of a packet. -/
def receive (s : TestServer) (packet : List UInt8) : TestServer :=
  { s with buf := s.buf.store (packet.take 2048) }

/-- The loop at a packet; an empty one is passed over. -/
def serve (s : TestServer) (packet : List UInt8) : TestServer × Option (List UInt8) :=
  if packet = [] then (s, none)
  else ((s.receive packet).answer, some (s.receive packet).reply)

section Echo

variable {addr : UInt32} {s t : TestServer} {packet reply : List UInt8}

/-- What the steps of the loops keep, the loops keep. -/
theorem perform_keeps {P : TestServer → Prop} {h : BcpHeader}
    (hread : ∀ t, ∀ i < h.length.toNat, P t → P (readRegister h.address t i))
    (hwrite : ∀ t, ∀ i < h.length.toNat, P t → P (writeRegister h.address t i)) (hs : P s) :
    P (s.perform h) := by
  have hloop {f : TestServer → ℕ → TestServer} {n : ℕ} (hf : ∀ t, ∀ i < n, P t → P (f t i))
      {t : TestServer} (ht : P t) : P ((List.range n).foldl f t) := by
    induction n with
    | zero => exact ht
    | succ n ih =>
      rw [List.range_succ, List.foldl_append, List.foldl_cons, List.foldl_nil]
      exact hf _ n (Nat.lt_succ_self n) (ih fun t i hi => hf t i (Nat.lt_succ_of_lt hi))
  simp only [perform]
  split
  · apply hloop hwrite
    split
    · exact hloop hread hs
    · exact hs
  · split
    · exact hloop hread hs
    · exact hs

theorem perform_buf (s : TestServer) (h : BcpHeader) : (s.perform h).buf = s.buf :=
  perform_keeps (P := fun t => t.buf = s.buf) (fun _ _ _ ht => ht) (fun _ _ _ ht => ht) rfl

/-- The registers go behind the header of the reply, as many as the header says. -/
theorem perform_rbuf_outside (s : TestServer) (h : BcpHeader) {j : ℕ}
    (hj : j < BcpHeader.size ∨ BcpHeader.size + h.length.toNat ≤ j) :
    (s.perform h).rbuf j = s.rbuf j := by
  refine perform_keeps (P := fun t => t.rbuf j = s.rbuf j) (fun t i hi ht => ?_)
    (fun t i hi ht => ?_) rfl
  · exact (Function.update_of_ne (by omega) _ _).trans ht
  · exact (Function.update_of_ne (by omega) _ _).trans ht

theorem perform_rbuf_of_lt (h : BcpHeader) {j : ℕ} (hj : j < BcpHeader.size) :
    (s.perform h).rbuf j = s.rbuf j := perform_rbuf_outside s h (.inl hj)

theorem reply_take (s : TestServer) :
    s.reply.take BcpHeader.size = s.buf.bytes BcpHeader.size := by
  rw [reply, Buffer.take_bytes (Nat.le_add_right _ _)]
  calc s.answer.rbuf.bytes BcpHeader.size = s.copyHeader.rbuf.bytes BcpHeader.size :=
        Buffer.bytes_congr fun j hj => perform_rbuf_of_lt _ hj
    _ = s.buf.bytes BcpHeader.size := by
        rw [copyHeader, Buffer.bytes_store (by simp), List.take_of_length_le (by simp)]

/-- The reply begins with the header of the request, and is as long as this says. -/
theorem serve_reply (hlen : BcpHeader.size ≤ packet.length)
    (h : s.serve packet = (t, some reply)) :
    reply.take BcpHeader.size = packet.take BcpHeader.size ∧
      BcpHeader.size ≤ reply.length ∧ reply.length < BcpHeader.size + 256 := by
  unfold serve at h
  split at h
  · cases h
  · cases h
    refine ⟨?_, ?_, ?_⟩
    · rw [reply_take, receive, Buffer.bytes_store, List.take_take]
      · rfl
      · simpa [BcpHeader.size] using hlen
    · simp [TestServer.reply]
    · simp only [TestServer.reply, Buffer.bytes_length]
      exact Nat.add_lt_add_left (UInt8.toNat_lt _) _

end Echo

end TestServer

end LebStudy
