import LebStudy.Rbcp.RegMemServer

/-!
# Which registers a request touches

The loops of the register servers index the register memory with `i + addr`, a 32-bit
number made of the address of the request. Nothing compares it with the size of the
memory: a request stays inside exactly if it neither reads nor writes, asks for no
registers, or ends within the memory. `server_recv_to_reg_mem` does not get to the loops
with a datagram that is shorter than a header.
-/

namespace LebStudy

/-- The indices `i + addr` that the loops use, for reading or for writing. -/
def registerIndices (h : BcpHeader) : List UInt32 :=
  if h.command = rbcpCmdRd ∨ h.command = rbcpCmdWr then
    (List.range h.length.toNat).map fun i => UInt32.ofNat i + h.address
  else []

/-- The request neither reads nor writes, asks for no registers, or ends within the memory. -/
def EndsWithin (size : ℕ) (h : BcpHeader) : Prop :=
  (h.command ≠ rbcpCmdRd ∧ h.command ≠ rbcpCmdWr) ∨ h.length = 0 ∨
    h.address.toNat + h.length.toNat ≤ size

instance (size : ℕ) (h : BcpHeader) : Decidable (EndsWithin size h) :=
  inferInstanceAs (Decidable (_ ∨ _ ∨ _))

/-- All indices are below the size of the memory, and a request that does not end within it
changes no register. -/
structure OnlyRegisters (size : ℕ) (h : BcpHeader) (regMem regMem' : UInt32 → UInt8) : Prop where
  indices : ∀ a ∈ registerIndices h, a.toNat < size
  outside : size < h.address.toNat + h.length.toNat → ∀ a, a.toNat < size → regMem' a = regMem a

/-- These are the indices that a turn uses, with the request in `buf`: a read puts what is there
into the reply, a write puts the bytes of the request there, and all else stays as it is. -/
structure Accesses (h : BcpHeader) (buf : Buffer) (regMem regMem' : UInt32 → UInt8)
    (reply : List UInt8) : Prop where
  reads : h.command = rbcpCmdRd → ∀ i < h.length.toNat,
    reply[BcpHeader.size + i]? = some (regMem (UInt32.ofNat i + h.address))
  writes : h.command = rbcpCmdWr → ∀ i < h.length.toNat,
    regMem' (UInt32.ofNat i + h.address) = buf (BcpHeader.size + i)
  frame : ∀ a ∉ registerIndices h, regMem' a = regMem a

section Turn

variable {size : ℕ} {h : BcpHeader}

/-- An index outside is used by every request that goes past the end: the sum does not wrap
before it gets there. -/
theorem indices_lt_iff (hsize : size < 2 ^ 32) :
    (∀ a ∈ registerIndices h, a.toNat < size) ↔ EndsWithin size h := by
  by_cases hcommand : h.command = rbcpCmdRd ∨ h.command = rbcpCmdWr
  · rw [registerIndices, if_pos hcommand, EndsWithin]
    have haddress := h.address.toNat_lt
    constructor
    · intro hall
      refine .inr ?_
      by_contra hnot
      obtain ⟨hlength, hend⟩ := not_or.mp hnot
      have hpos := BcpHeader.length_pos hlength
      -- the first register behind the memory, or the first one of all
      have hi : size - h.address.toNat < h.length.toNat := by omega
      have hlt := hall _ (List.mem_map_of_mem (List.mem_range.mpr hi))
      rw [TestServer.toNat_index (by omega)] at hlt
      omega
    · intro hwithin a ha
      obtain ⟨i, hi, rfl⟩ := List.mem_map.mp ha
      have hlt := List.mem_range.mp hi
      rcases hwithin with ⟨hrd, hwr⟩ | hzero | hend
      · exact absurd hcommand (not_or.mpr ⟨hrd, hwr⟩)
      · rw [hzero] at hlt
        exact absurd hlt (Nat.not_lt_zero _)
      · rw [TestServer.toNat_index (by omega)]
        omega
  · rw [registerIndices, if_neg hcommand]
    exact iff_of_true (by simp) (.inl (not_or.mp hcommand))

/-- What is not at one of the indices stays as it is. -/
theorem TestServer.perform_frame (s : TestServer) {a : UInt32} (ha : a ∉ registerIndices h) :
    (s.perform h).regMem a = s.regMem a := by
  rw [perform_regMem]
  by_cases hwr : h.command = rbcpCmdWr
  · rw [if_pos hwr]
    refine s.writeLoop_frame fun i hi heq => ha ?_
    rw [registerIndices, if_pos (.inr hwr), heq]
    exact List.mem_map_of_mem (List.mem_range.mpr hi)
  · rw [if_neg hwr]

/-- The write loop goes to each of its indices once, so that what it writes there stays. -/
theorem TestServer.writeLoop_at {addr : UInt32} (s : TestServer) {n : ℕ} (hn : n ≤ 2 ^ 32) {i : ℕ}
    (hi : i < n) :
    ((List.range n).foldl (writeRegister addr) s).regMem (UInt32.ofNat i + addr) =
      s.buf (BcpHeader.size + i) := by
  induction n with
  | zero => omega
  | succ n ih =>
    rw [List.range_succ, List.foldl_append, List.foldl_cons, List.foldl_nil]
    simp only [writeRegister, (writeLoop_rbuf s n).1]
    by_cases hin : i = n
    · rw [hin, Function.update_self]
    · have hne : UInt32.ofNat i + addr ≠ UInt32.ofNat n + addr := by
        intro heq
        have hnat := congrArg UInt32.toNat ((UInt32.add_left_inj addr).mp heq)
        rw [UInt32.toNat_ofNat', UInt32.toNat_ofNat', Nat.mod_eq_of_lt (by omega),
          Nat.mod_eq_of_lt (by omega)] at hnat
        exact hin hnat
      rw [Function.update_of_ne hne]
      exact ih (by omega) (by omega)

/-- What the loops do they do at these indices. -/
theorem TestServer.accesses (s : TestServer) :
    Accesses h s.buf s.regMem (s.perform h).regMem
      ((s.perform h).rbuf.bytes (BcpHeader.size + h.length.toNat)) where
  reads hrd i hi := by
    rw [Buffer.bytes, List.getElem?_map, List.getElem?_range (by omega), Option.map_some,
      perform_rbuf s hi, if_pos hrd]
  writes hwr i hi := by
    have hlen := h.length.toNat_lt
    rw [perform_regMem, if_pos hwr]
    exact s.writeLoop_at (by omega) hi
  frame _ ha := s.perform_frame ha

/-- A request that stays inside does what it does to registers only; one that does not, does not. -/
theorem onlyRegisters_iff (hsize : size < 2 ^ 32) (s : TestServer) :
    OnlyRegisters size h s.regMem (s.perform h).regMem ↔ EndsWithin size h := by
  constructor
  · rintro ⟨hindices, -⟩
    exact (indices_lt_iff hsize).mp hindices
  · intro hwithin
    refine ⟨(indices_lt_iff hsize).mpr hwithin, fun hout a _ => ?_⟩
    -- no index is used
    have hnone : registerIndices h = [] := by
      rcases hwithin with hcommand | hzero | hend
      · exact if_neg (not_or.mpr hcommand)
      · rw [registerIndices, hzero]
        simp
      · omega
    exact s.perform_frame (by rw [hnone]; exact List.not_mem_nil)

end Turn

/-- The header of the request that a server finds in its buffer when it comes to the loops, if it
does. -/
def TestServer.header? (s : TestServer) (packet : List UInt8) : Option BcpHeader :=
  if packet = [] then none else some (BcpHeader.ofBuffer (s.receive packet).buf)

def RBCPServer.header? (s : RBCPServer) (packet : List UInt8) : Option BcpHeader :=
  if s.inDump = false ∧ DumpEnds packet then some (BcpHeader.ofBuffer (s.receive packet).buf)
  else none

/-- For every datagram, whatever the buffers hold: where a server comes to its loops, it touches
only its registers exactly if the request ends within the memory, `128 * 128` bytes and
`m_reg_mem_size`; where it does not, it touches none and sends no reply. -/
theorem registers_iff (packet : List UInt8) :
    (∀ s : TestServer,
      (∀ h ∈ s.header? packet,
        (OnlyRegisters TestServer.regMemSize h s.regMem (s.serve packet).1.regMem ↔
          EndsWithin TestServer.regMemSize h) ∧
        ∃ reply, (s.serve packet).2 = some reply ∧
          Accesses h (s.receive packet).buf s.regMem (s.serve packet).1.regMem reply) ∧
      (s.header? packet = none →
        (s.serve packet).1.regMem = s.regMem ∧ (s.serve packet).2 = none)) ∧
    ∀ s : RBCPServer,
      (∀ h ∈ s.header? packet,
        (OnlyRegisters s.mRegMemSize.toNat h s.regMem (s.serverRecvToRegMem packet).1.regMem ↔
          EndsWithin s.mRegMemSize.toNat h) ∧
        ∃ reply, (s.serverRecvToRegMem packet).2 = some reply ∧
          Accesses h (s.receive packet).buf s.regMem (s.serverRecvToRegMem packet).1.regMem
            reply) ∧
      (s.header? packet = none →
        (s.serverRecvToRegMem packet).1.regMem = s.regMem ∧
          (s.serverRecvToRegMem packet).2 = none) := by
  constructor
  · intro s
    rw [TestServer.header?, TestServer.serve]
    by_cases hpacket : packet = []
    · simp [hpacket]
    · rw [if_neg hpacket, if_neg hpacket]
      refine ⟨fun h hh => ?_, fun hnone => by cases hnone⟩
      obtain rfl := Option.some.inj hh
      exact ⟨onlyRegisters_iff (by decide) (s.receive packet).copyHeader, _, rfl,
        (s.receive packet).copyHeader.accesses⟩
  · intro s
    rw [RBCPServer.header?]
    by_cases hloops : s.inDump = false ∧ DumpEnds packet
    · rw [if_pos hloops, RBCPServer.serverRecvToRegMem_of_ends hloops.1 hloops.2]
      refine ⟨fun h hh => ?_, fun hnone => by cases hnone⟩
      obtain rfl := Option.some.inj hh
      exact ⟨onlyRegisters_iff s.mRegMemSize.toNat_lt (s.receive packet).copyFields, _, rfl,
        (s.receive packet).copyFields.accesses⟩
    · rw [if_neg hloops]
      refine ⟨fun h hh => absurd hh (by simp), fun _ => ?_⟩
      by_cases hdump : s.inDump = true
      · rw [RBCPServer.serverRecvToRegMem, if_pos (.inr hdump)]
        exact ⟨rfl, rfl⟩
      · have hends : ¬ DumpEnds packet := fun hends => hloops ⟨by simpa using hdump, hends⟩
        obtain ⟨hregMem, -, hreply⟩ := s.serverRecvToRegMem_of_not_ends hends
        exact ⟨hregMem, hreply⟩

/-- A read of one register behind the last one. -/
theorem read_past_registers :
    ¬ ∀ (packet : List UInt8) (s : TestServer), ∀ h ∈ s.header? packet,
      OnlyRegisters TestServer.regMemSize h s.regMem (s.serve packet).1.regMem := by
  intro hall
  have honly := hall [0xff, 0xc0, 7, 1, 0, 0, 0x40, 0] ⟨fun _ => 0, fun _ => 0, fun _ => 0⟩
    ⟨0xff, 0xc0, 7, 1, 0x4000⟩ (by decide)
  have hlt := honly.indices 0x4000 (by decide)
  revert hlt
  decide

end LebStudy
