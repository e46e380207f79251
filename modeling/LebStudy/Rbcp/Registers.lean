import LebStudy.Rbcp.Client
import LebStudy.Rbcp.TestServer

/-!
# Writing registers and reading them back

A call of the client and the turn of the server that answers it, with nothing lost
between them. The number of registers travels in one byte of the header, so a
write of more than 255 registers is answered for that number modulo 256, and the
reply to a read of no registers is a bare header, whose length `read` returns.
-/

namespace LebStudy

namespace TestServer

/-- `unsigned int reg_mem_size = 128 * 128` -/
def regMemSize : ℕ := 128 * 128

/-- A call of the client, the server's turn, and the value that the call returns with the
bytes that a `read` has put into its buffer. -/
def exchange (s : TestServer) (mSequence : ℕ) (c : RbcpCall) :
    Option (TestServer × ℤ × List UInt8) :=
  (c.request mSequence).map fun packet =>
    let (s, reply) := s.serve packet
    (s, c.received reply)

/-- A write and the read behind it: the registers take the data, the others stay, and the
read returns the data. -/
def WriteThenRead (s : TestServer) (mSequence : ℕ) (data : List UInt8) (addr : UInt32)
    (buf : Buffer) : Prop :=
  ∃ s₁ w s₂, s.exchange mSequence (.write data addr) = some (s₁, w) ∧
    (∀ i (h : i < data.length), s₁.regMem (UInt32.ofNat i + addr) = data[i]) ∧
    (∀ a, (∀ i < data.length, a ≠ UInt32.ofNat i + addr) → s₁.regMem a = s.regMem a) ∧
    s₁.exchange (mSequence + 1) (.read buf addr data.length) = some (s₂, (data.length : ℤ), data)

/-! ### The loops of the server -/

section Loops

variable {addr : UInt32} {n : ℕ}

theorem toNat_index {i : ℕ} (h : addr.toNat + i < 2 ^ 32) :
    (UInt32.ofNat i + addr).toNat = addr.toNat + i := by
  rw [UInt32.toNat_add, UInt32.toNat_ofNat']
  omega

/-- The registers from `addr` on, as many as `n`, with the bytes of `f` in them. -/
def overwritten (regMem : UInt32 → UInt8) (addr : UInt32) (f : ℕ → UInt8) (n : ℕ) :
    UInt32 → UInt8 := fun a =>
  if addr.toNat ≤ a.toNat ∧ a.toNat < addr.toNat + n then f (a.toNat - addr.toNat) else regMem a

variable {regMem : UInt32 → UInt8} {f : ℕ → UInt8}

theorem overwritten_zero : overwritten regMem addr f 0 = regMem := by
  funext a
  have hnone : ¬ (addr.toNat ≤ a.toNat ∧ a.toNat < addr.toNat + 0) := by omega
  rw [overwritten, if_neg hnone]

theorem overwritten_succ (h : addr.toNat + n < 2 ^ 32) :
    Function.update (overwritten regMem addr f n) (UInt32.ofNat n + addr) (f n) =
      overwritten regMem addr f (n + 1) := by
  funext a
  have hindex := toNat_index h
  by_cases ha : a = UInt32.ofNat n + addr
  · subst ha
    rw [Function.update_self, overwritten, if_pos (by omega), hindex]
    congr 1
    omega
  · have hne : a.toNat ≠ addr.toNat + n := by
      intro heq
      exact ha (UInt32.toNat_inj.mp (heq.trans hindex.symm))
    rw [Function.update_of_ne ha, overwritten, overwritten]
    by_cases hin : addr.toNat ≤ a.toNat ∧ a.toNat < addr.toNat + n
    · rw [if_pos hin, if_pos (by omega)]
    · rw [if_neg hin, if_neg (by omega)]

theorem overwritten_index {i : ℕ} (h : addr.toNat + n ≤ 2 ^ 32) (hi : i < n) :
    overwritten regMem addr f n (UInt32.ofNat i + addr) = f i := by
  have hindex := @toNat_index addr i (by omega)
  rw [overwritten, if_pos (by omega), hindex]
  congr 1
  omega

theorem overwritten_other {a : UInt32} (h : addr.toNat + n ≤ 2 ^ 32)
    (ha : ∀ i < n, a ≠ UInt32.ofNat i + addr) : overwritten regMem addr f n a = regMem a := by
  rw [overwritten]
  by_cases hin : addr.toNat ≤ a.toNat ∧ a.toNat < addr.toNat + n
  · have hindex := @toNat_index addr (a.toNat - addr.toNat) (by omega)
    refine absurd (UInt32.toNat_inj.mp ?_) (ha (a.toNat - addr.toNat) (by omega))
    omega
  · rw [if_neg hin]

/-- The write loop: the registers take the bytes behind the header of the request. -/
theorem writeLoop_spec (s : TestServer) (h : addr.toNat + n ≤ 2 ^ 32) :
    ((List.range n).foldl (writeRegister addr) s).regMem =
        overwritten s.regMem addr (fun i => s.buf (BcpHeader.size + i)) n ∧
      ((List.range n).foldl (writeRegister addr) s).buf = s.buf := by
  induction n with
  | zero => exact ⟨overwritten_zero.symm, rfl⟩
  | succ n ih =>
    obtain ⟨hregMem, hbuf⟩ := ih (by omega)
    rw [List.range_succ, List.foldl_append, List.foldl_cons, List.foldl_nil]
    refine ⟨?_, hbuf⟩
    rw [← overwritten_succ (by omega)]
    simp only [writeRegister, hregMem, hbuf]

/-- The read loop: the registers go behind the header of the reply. -/
theorem readLoop_spec (s : TestServer) (n : ℕ) :
    ((List.range n).foldl (readRegister addr) s).regMem = s.regMem ∧
      ∀ i < n, ((List.range n).foldl (readRegister addr) s).rbuf (BcpHeader.size + i) =
        s.regMem (UInt32.ofNat i + addr) := by
  induction n with
  | zero => exact ⟨rfl, fun i hi => by omega⟩
  | succ n ih =>
    obtain ⟨hregMem, hrbuf⟩ := ih
    rw [List.range_succ, List.foldl_append, List.foldl_cons, List.foldl_nil]
    refine ⟨hregMem, fun i hi => ?_⟩
    by_cases hin : i = n
    · subst hin
      simp only [readRegister, Function.update_self, hregMem]
    · simp only [readRegister]
      rw [Function.update_of_ne (by omega), hrbuf i (by omega)]

end Loops

/-! ### What the loops leave behind -/

section Perform

variable {addr : UInt32} {h : BcpHeader}

/-- The write loop: the reply carries what is written. -/
theorem writeLoop_rbuf (s : TestServer) (n : ℕ) :
    ((List.range n).foldl (writeRegister addr) s).buf = s.buf ∧
      ∀ i < n, ((List.range n).foldl (writeRegister addr) s).rbuf (BcpHeader.size + i) =
        s.buf (BcpHeader.size + i) := by
  induction n with
  | zero => exact ⟨rfl, fun i hi => by omega⟩
  | succ n ih =>
    obtain ⟨hbuf, hrbuf⟩ := ih
    rw [List.range_succ, List.foldl_append, List.foldl_cons, List.foldl_nil]
    refine ⟨hbuf, fun i hi => ?_⟩
    by_cases hin : i = n
    · subst hin
      simp only [writeRegister, Function.update_self, hbuf]
    · simp only [writeRegister]
      rw [Function.update_of_ne (by omega), hrbuf i (by omega)]

/-- The registers behind the write loop depend on the bytes written, and on no others. -/
theorem writeLoop_congr {s t : TestServer} (hmem : s.regMem = t.regMem) (n : ℕ)
    (hdata : ∀ i < n, s.buf (BcpHeader.size + i) = t.buf (BcpHeader.size + i)) :
    ((List.range n).foldl (writeRegister addr) s).regMem =
      ((List.range n).foldl (writeRegister addr) t).regMem := by
  induction n with
  | zero => exact hmem
  | succ n ih =>
    rw [List.range_succ, List.foldl_append, List.foldl_append]
    simp only [List.foldl_cons, List.foldl_nil, writeRegister, (writeLoop_rbuf _ n).1,
      ih fun i hi => hdata i (Nat.lt_succ_of_lt hi), hdata n (Nat.lt_succ_self n)]

/-- What the write loop does not get to stays as it is. -/
theorem writeLoop_frame {a : UInt32} (s : TestServer) {n : ℕ}
    (ha : ∀ i < n, a ≠ UInt32.ofNat i + addr) :
    ((List.range n).foldl (writeRegister addr) s).regMem a = s.regMem a := by
  induction n with
  | zero => rfl
  | succ n ih =>
    rw [List.range_succ, List.foldl_append, List.foldl_cons, List.foldl_nil]
    simp only [writeRegister]
    rw [Function.update_of_ne (ha n (Nat.lt_succ_self n))]
    exact ih fun i hi => ha i (Nat.lt_succ_of_lt hi)

/-- Where the bytes of the reply behind its header come from. -/
theorem perform_rbuf (s : TestServer) {i : ℕ} (hi : i < h.length.toNat) :
    (s.perform h).rbuf (BcpHeader.size + i) =
      if h.command = rbcpCmdRd then s.regMem (UInt32.ofNat i + h.address)
      else if h.command = rbcpCmdWr then s.buf (BcpHeader.size + i)
      else s.rbuf (BcpHeader.size + i) := by
  by_cases hrd : h.command = rbcpCmdRd
  · have hwr : h.command ≠ rbcpCmdWr := by
      rw [hrd]
      decide
    simp only [perform, if_pos hrd, if_neg hwr]
    exact (readLoop_spec s _).2 i hi
  · simp only [perform, if_neg hrd]
    by_cases hwr : h.command = rbcpCmdWr
    · rw [if_pos hwr, if_pos hwr]
      exact (writeLoop_rbuf s _).2 i hi
    · rw [if_neg hwr, if_neg hwr]

/-- The registers behind a request: only a write changes them. -/
theorem perform_regMem (s : TestServer) :
    (s.perform h).regMem =
      if h.command = rbcpCmdWr then
        ((List.range h.length.toNat).foldl (writeRegister h.address) s).regMem
      else s.regMem := by
  by_cases hrd : h.command = rbcpCmdRd
  · have hwr : h.command ≠ rbcpCmdWr := by
      rw [hrd]
      decide
    simp only [perform, if_pos hrd, if_neg hwr]
    exact (readLoop_spec s _).1
  · simp only [perform, if_neg hrd]
    by_cases hwr : h.command = rbcpCmdWr
    · rw [if_pos hwr, if_pos hwr]
    · rw [if_neg hwr, if_neg hwr]

end Perform

/-! ### A turn of the server -/

section Turn

variable {s : TestServer} {h : BcpHeader} {data : List UInt8}

/-- A call whose request is a header and data: the server takes the packet in and answers it. -/
theorem exchange_eq (s : TestServer) {mSequence : ℕ} {c : RbcpCall}
    (hrequest : c.request mSequence = some (h.bytes ++ data))
    (hlen : data.length ≤ 2048 - BcpHeader.size) :
    ∃ t : TestServer, s.exchange mSequence c = some (t.answer, c.received (some t.reply)) ∧
      t.regMem = s.regMem ∧ t.buf = s.buf.store (h.bytes ++ data) ∧
        BcpHeader.ofBuffer t.buf = h := by
  have hsize : BcpHeader.size = 8 := rfl
  have hne : h.bytes ++ data ≠ [] := by
    intro hnil
    have := congrArg List.length hnil
    simp [hsize] at this
  have hbuf : (s.receive (h.bytes ++ data)).buf = s.buf.store (h.bytes ++ data) := by
    rw [receive, List.take_of_length_le]
    rw [List.length_append, BcpHeader.bytes_length]
    omega
  refine ⟨s.receive (h.bytes ++ data), ?_, rfl, hbuf, ?_⟩
  · rw [exchange, hrequest, Option.map_some, serve, if_neg hne]
  · rw [hbuf, BcpHeader.ofBuffer_store]

theorem reply_length (s : TestServer) :
    s.reply.length = BcpHeader.size + (BcpHeader.ofBuffer s.buf).length.toNat := by
  rw [reply, Buffer.bytes_length]

/-- A write request: the registers from its address on take the bytes behind the header. -/
theorem answer_write {addr : UInt32} (hheader : BcpHeader.ofBuffer s.buf = h)
    (hcommand : h.command = rbcpCmdWr) (haddr : h.address = addr)
    (hmem : addr.toNat + h.length.toNat ≤ 2 ^ 32) :
    s.answer.regMem =
      overwritten s.regMem addr (fun i => s.buf (BcpHeader.size + i)) h.length.toNat := by
  have hrd : h.command ≠ rbcpCmdRd := by
    rw [hcommand]
    decide
  rw [answer, hheader, perform, if_neg hrd, if_pos hcommand, haddr]
  exact (writeLoop_spec s.copyHeader hmem).1

/-- A read request: the reply carries the registers behind the header. -/
theorem reply_read {addr : UInt32} (hheader : BcpHeader.ofBuffer s.buf = h)
    (hcommand : h.command = rbcpCmdRd) (haddr : h.address = addr) :
    s.reply.drop BcpHeader.size =
      (List.range h.length.toNat).map fun i => s.regMem (UInt32.ofNat i + addr) := by
  have hwr : h.command ≠ rbcpCmdWr := by
    rw [hcommand]
    decide
  have hanswer : s.answer = (List.range h.length.toNat).foldl (readRegister addr) s.copyHeader := by
    rw [answer, hheader, perform, if_pos hcommand, if_neg hwr, haddr]
  rw [reply, hheader, Buffer.bytes_add, List.drop_left' Buffer.bytes_length, hanswer, Buffer.bytes]
  refine List.map_congr_left fun i hi => ?_
  exact (readLoop_spec s.copyHeader h.length.toNat).2 i (List.mem_range.mp hi)

/-- A write is sent and answered, and the registers from its address on take the data, as many
as the header says. -/
theorem exchange_write (s : TestServer) (mSequence : ℕ) {addr : UInt32}
    (hlen : data.length < 2048 - BcpHeader.size)
    (hmem : addr.toNat + data.length % 256 ≤ 2 ^ 32) :
    ∃ s₁ w, s.exchange mSequence (.write data addr) = some (s₁, w) ∧
      s₁.regMem = overwritten s.regMem addr (fun i => data.getD i 0) (data.length % 256) := by
  obtain ⟨t, hexchange, hregMem, hbuf, hheader⟩ :=
    @exchange_eq _ _ s mSequence (.write data addr) (if_pos hlen) hlen.le
  have hcount : (UInt8.ofNat data.length).toNat = data.length % 256 := UInt8.toNat_ofNat'
  refine ⟨_, _, hexchange, ?_⟩
  have hanswer := @answer_write t _ addr hheader rfl rfl (hcount ▸ hmem)
  rw [hanswer, hregMem]
  show overwritten _ _ _ (UInt8.ofNat data.length).toNat = _
  rw [hcount, hbuf]
  funext a
  rw [overwritten, overwritten]
  by_cases ha : addr.toNat ≤ a.toNat ∧ a.toNat < addr.toNat + data.length % 256
  · -- the data lies behind the header of the packet
    have hlt : a.toNat - addr.toNat < data.length := by omega
    rw [if_pos ha, if_pos ha, Buffer.store, List.getD_append_right _ _ _ _ (by simp),
      BcpHeader.bytes_length, Nat.add_sub_cancel_left, List.getD_eq_getElem _ _ hlt,
      List.getD_eq_getElem _ _ hlt]
  · rw [if_neg ha, if_neg ha]

/-- A read is answered with as many registers as the header says; where these are none, it
returns the length of the header. -/
theorem exchange_read (s : TestServer) (mSequence : ℕ) (buf : Buffer) (addr : UInt32) (n : ℕ) :
    ∃ s' bytes, s.exchange mSequence (.read buf addr n) =
        some (s', if 0 < n % 256 then ((n % 256 : ℕ) : ℤ) else 8, bytes) ∧
      (0 < n % 256 →
        bytes = (List.range (n % 256)).map fun i => s.regMem (UInt32.ofNat i + addr)) := by
  have hrequest : (RbcpCall.read buf addr n).request mSequence =
      some (((RbcpCall.read buf addr n).header mSequence).bytes ++ []) := by
    rw [List.append_nil]
    rfl
  obtain ⟨t, hexchange, hregMem, -, hheader⟩ := s.exchange_eq hrequest (by simp)
  have hcount : ((RbcpCall.read buf addr n).header mSequence).length.toNat = n % 256 := by
    show (UInt8.ofInt n).toNat = n % 256
    rw [UInt8.ofInt, UInt8.toNat_ofNat']
    omega
  have hsize : BcpHeader.size = 8 := rfl
  have hmod : n % 256 < 256 := Nat.mod_lt _ (by decide)
  have hreply : t.reply.length = BcpHeader.size + n % 256 := by
    rw [reply_length, hheader, hcount]
  have hvalue := @RbcpCall.received_read_value (.read buf addr n) t.reply trivial (by omega)
  refine ⟨t.answer, ((RbcpCall.read buf addr n).received (some t.reply)).2, ?_, ?_⟩
  · have hcall : (RbcpCall.received (some t.reply) (.read buf addr n)).1 =
        if 0 < n % 256 then ((n % 256 : ℕ) : ℤ) else 8 := by
      rw [hvalue, hreply]
      by_cases hpos : 0 < n % 256
      · rw [if_pos (by omega), if_pos hpos, Nat.add_sub_cancel_left]
      · rw [if_neg (by omega), if_neg hpos]
        omega
    rw [hexchange, ← hcall]
  · intro hpos
    rw [@RbcpCall.received_read (.read buf addr n) t.reply trivial (by omega) (by omega),
      @reply_read t _ addr hheader rfl rfl, hcount, hregMem]

end Turn

/-- For every register memory: a write and the read behind it are the identity exactly for 1
to 255 registers. -/
theorem writeThenRead_iff (s : TestServer) (mSequence : ℕ) (data : List UInt8) (addr : UInt32)
    (buf : Buffer) (hlen : data.length < 2048 - BcpHeader.size)
    (hmem : addr.toNat + data.length ≤ regMemSize) :
    s.WriteThenRead mSequence data addr buf ↔ 1 ≤ data.length ∧ data.length ≤ 255 := by
  have hsize : regMemSize = 16384 := rfl
  obtain ⟨s₁, w, hwrite, hregMem⟩ := @exchange_write data s mSequence addr hlen (by omega)
  obtain ⟨s₂, bytes, hread, hbytes⟩ := exchange_read s₁ (mSequence + 1) buf addr data.length
  constructor
  · rintro ⟨s₁', w', s₂', hwrite', -, -, hread'⟩
    -- what the read returns is known, and is less than the length, or 8
    obtain ⟨rfl, -⟩ := Prod.mk.inj (Option.some_inj.mp (hwrite.symm.trans hwrite'))
    have hvalue := congrArg (fun r => r.2.1) (Option.some_inj.mp (hread.symm.trans hread'))
    simp only at hvalue
    by_cases hpos : 0 < data.length % 256
    · rw [if_pos hpos] at hvalue
      omega
    · rw [if_neg hpos] at hvalue
      omega
  · rintro ⟨hpos, hle⟩
    have hmod : data.length % 256 = data.length := Nat.mod_eq_of_lt (by omega)
    rw [hmod] at hregMem hread hbytes
    rw [if_pos (by omega)] at hread
    have hwritten : ∀ i (h : i < data.length), s₁.regMem (UInt32.ofNat i + addr) = data[i] := by
      intro i hi
      rw [hregMem, overwritten_index (by omega) hi, List.getD_eq_getElem _ _ hi]
    have hdata : bytes = data := by
      rw [hbytes (by omega)]
      apply List.ext_getElem
      · simp
      · intro i hi hi'
        simp [hwritten i hi']
    refine ⟨s₁, w, s₂, hwrite, hwritten, ?_, hdata ▸ hread⟩
    intro a ha
    rw [hregMem, overwritten_other (by omega) ha]

/-- A server whose memory and buffers are zero. -/
def zeroed : TestServer := ⟨fun _ => 0, fun _ => 0, fun _ => 0⟩

/-- A write of no registers, and a read of none, which returns eight. -/
theorem write_nothing_read_eight :
    ¬ ∀ (s : TestServer) (mSequence : ℕ) (data : List UInt8) (addr : UInt32) (buf : Buffer),
      data.length < 2048 - BcpHeader.size → addr.toNat + data.length ≤ regMemSize →
        s.WriteThenRead mSequence data addr buf := by
  intro h
  obtain ⟨s₁, w, s₂, hwrite, -, -, hread⟩ :=
    h zeroed 0 [] 0 (fun _ => 0) (by decide) (by decide)
  obtain ⟨s₂', bytes, hread', -⟩ := exchange_read s₁ 1 (fun _ => 0) 0 0
  have hvalue : (8 : ℤ) = 0 :=
    congrArg (fun r => r.2.1) (Option.some_inj.mp (hread'.symm.trans hread))
  omega

theorem write_then_read_two :
    zeroed.WriteThenRead 0 [0xaa, 0xbb] 16 (fun _ => 0) :=
  (writeThenRead_iff zeroed 0 [0xaa, 0xbb] 16 (fun _ => 0) (by decide) (by decide)).mpr
    (by decide)

end TestServer

end LebStudy
