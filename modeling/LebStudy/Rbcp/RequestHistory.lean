import LebStudy.Rbcp.RegMemServer

/-!
# What a request takes over from those before it

The receive buffer and the reply buffer of the register servers are used again for every
request. A request gets its answer from its own bytes and the registers alone exactly if
it brings its whole header and, by its command, either reads, or brings all that it
writes, or asks for nothing. With less than a header `server_recv_to_reg_mem` gives no answer,
whatever is in the buffers.
-/

namespace LebStudy

/-! ### Requests that stand for themselves -/

/-- The answer to the request is made of registers, of bytes that it brings, or of nothing. -/
def AnswersItself (h : BcpHeader) (n : ℕ) : Prop :=
  h.command = rbcpCmdRd ∨ h.command = rbcpCmdWr ∧ BcpHeader.size + h.length.toNat ≤ n ∨
    h.length = 0

instance (h : BcpHeader) (n : ℕ) : Decidable (AnswersItself h n) :=
  inferInstanceAs (Decidable (_ ∨ _ ∨ _))

/-- A datagram without bytes, which the server passes over, or a request with its whole header
and its own answer. -/
def SelfContained (packet : List UInt8) : Prop :=
  packet = [] ∨ BcpHeader.size ≤ (received packet).length ∧
    AnswersItself (ownHeader packet) (received packet).length

instance (packet : List UInt8) : Decidable (SelfContained packet) :=
  inferInstanceAs (Decidable (_ ∨ _ ∧ _))

/-- The registers and the reply behind a datagram. -/
def TestServer.outcome (s : TestServer) (packet : List UInt8) :
    (UInt32 → UInt8) × Option (List UInt8) :=
  ((s.serve packet).1.regMem, (s.serve packet).2)

def RBCPServer.outcome (s : RBCPServer) (packet : List UInt8) :
    (UInt32 → UInt8) × Option (List UInt8) :=
  ((s.serverRecvToRegMem packet).1.regMem, (s.serverRecvToRegMem packet).2)

section Turn

variable {packet : List UInt8} {buf buf' : Buffer}

/-- Two states that agree in the registers, in the header of the reply and in what the request
brings end with the same registers and the same reply. -/
theorem perform_congr {u v : TestServer} {h : BcpHeader} {n : ℕ} (hmem : u.regMem = v.regMem)
    (hheader : ∀ j < BcpHeader.size, u.rbuf j = v.rbuf j)
    (hdata : ∀ j < n, BcpHeader.size ≤ j → u.buf j = v.buf j) (hself : AnswersItself h n) :
    (u.perform h).regMem = (v.perform h).regMem ∧
      (u.perform h).rbuf.bytes (BcpHeader.size + h.length.toNat) =
        (v.perform h).rbuf.bytes (BcpHeader.size + h.length.toNat) := by
  -- what a write brings is there for the whole loop
  have hwrite : h.command = rbcpCmdWr → ∀ i < h.length.toNat,
      u.buf (BcpHeader.size + i) = v.buf (BcpHeader.size + i) := by
    intro hwr i hi
    rcases hself with hrd | ⟨-, hn⟩ | hzero
    · rw [hwr] at hrd
      cases hrd
    · exact hdata _ (by omega) (Nat.le_add_right _ _)
    · rw [hzero] at hi
      exact absurd hi (Nat.not_lt_zero _)
  constructor
  · rw [TestServer.perform_regMem, TestServer.perform_regMem]
    by_cases hwr : h.command = rbcpCmdWr
    · rw [if_pos hwr, if_pos hwr]
      exact TestServer.writeLoop_congr hmem _ (hwrite hwr)
    · rw [if_neg hwr, if_neg hwr]
      exact hmem
  · refine Buffer.bytes_congr fun j hj => ?_
    by_cases hlt : j < BcpHeader.size
    · rw [TestServer.perform_rbuf_of_lt _ hlt, TestServer.perform_rbuf_of_lt _ hlt]
      exact hheader j hlt
    · obtain ⟨i, rfl⟩ := Nat.exists_eq_add_of_le (Nat.le_of_not_lt hlt)
      have hi : i < h.length.toNat := by omega
      rw [TestServer.perform_rbuf _ hi, TestServer.perform_rbuf _ hi]
      by_cases hrd : h.command = rbcpCmdRd
      · rw [if_pos hrd, if_pos hrd, hmem]
      · rw [if_neg hrd, if_neg hrd]
        by_cases hwr : h.command = rbcpCmdWr
        · rw [if_pos hwr, if_pos hwr]
          exact hwrite hwr i hi
        · rcases hself with hrd' | ⟨hwr', -⟩ | hzero
          · exact absurd hrd' hrd
          · exact absurd hwr' hwr
          · rw [hzero] at hi
            exact absurd hi (Nat.not_lt_zero _)

/-- A request that does not answer itself gets a byte out of one of the buffers: the first one
behind what it brings, or the first one that is in the reply already. -/
theorem stale_cases {h : BcpHeader} {n : ℕ} (hn : BcpHeader.size ≤ n)
    (hself : ¬ AnswersItself h n) :
    (∃ i < h.length.toNat, BcpHeader.size + i = n ∧
      ∀ u : TestServer, (u.perform h).rbuf n = u.buf n) ∨
    0 < h.length.toNat ∧
      ∀ u : TestServer, (u.perform h).rbuf BcpHeader.size = u.rbuf BcpHeader.size := by
  simp only [AnswersItself, not_or] at hself
  obtain ⟨hrd, hwrite, hlength⟩ := hself
  by_cases hwr : h.command = rbcpCmdWr
  · have hlt : n < BcpHeader.size + h.length.toNat := by
      by_contra hle
      exact hwrite ⟨hwr, by omega⟩
    obtain ⟨i, rfl⟩ := Nat.exists_eq_add_of_le hn
    have hi : i < h.length.toNat := by omega
    refine .inl ⟨i, hi, rfl, fun u => ?_⟩
    rw [TestServer.perform_rbuf u hi, if_neg hrd, if_pos hwr]
  · have hpos := BcpHeader.length_pos hlength
    refine .inr ⟨hpos, fun u => ?_⟩
    have hbyte := TestServer.perform_rbuf u hpos
    rw [if_neg hrd, if_neg hwr] at hbyte
    exact hbyte

/-! ### The two servers as one turn -/

/-- A turn of a server that copies the header of the request by `copy`, with the datagram in its
buffer: the registers and the reply. -/
def turnOutcome (copy : Buffer → Buffer → Buffer) (regMem : UInt32 → UInt8) (buf rbuf : Buffer)
    (packet : List UInt8) : (UInt32 → UInt8) × List UInt8 :=
  let buf := buf.store (received packet)
  let h := BcpHeader.ofBuffer buf
  let s := (⟨regMem, buf, copy rbuf buf⟩ : TestServer).perform h
  (s.regMem, s.rbuf.bytes (BcpHeader.size + h.length.toNat))

/-- `copy` takes over the header, up to its first byte, and leaves the rest of the reply. Of two
contents of the reply that are `Alike`, the first byte comes out the same. -/
structure CopiesHeader (Alike : Buffer → Buffer → Prop) (copy : Buffer → Buffer → Buffer) :
    Prop where
  first : ∀ {rbuf rbuf' buf buf' : Buffer}, Alike rbuf rbuf' → buf 0 = buf' 0 →
    copy rbuf buf 0 = copy rbuf' buf' 0
  header : ∀ (rbuf buf : Buffer) {j : ℕ}, 0 < j → j < BcpHeader.size → copy rbuf buf j = buf j
  behind : ∀ (rbuf buf : Buffer) {j : ℕ}, BcpHeader.size ≤ j → copy rbuf buf j = rbuf j

/-- Two contents that differ in every byte but the first. -/
def filled (byte : UInt8) : Buffer := fun j => if j = 0 then 0 else byte

section Copy

variable {Alike : Buffer → Buffer → Prop} {copy : Buffer → Buffer → Buffer}

theorem turnOutcome_congr (hcopy : CopiesHeader Alike copy) (regMem : UInt32 → UInt8)
    {rbuf rbuf' : Buffer} (halike : Alike rbuf rbuf')
    (hheader : BcpHeader.size ≤ (received packet).length)
    (hself : AnswersItself (ownHeader packet) (received packet).length) :
    turnOutcome copy regMem buf rbuf packet = turnOutcome copy regMem buf' rbuf' packet := by
  have hsize : BcpHeader.size = 8 := rfl
  have hsame : ∀ j < (received packet).length,
      buf.store (received packet) j = buf'.store (received packet) j :=
    fun j hj => Buffer.store_congr hj
  have hheaders : ∀ j < BcpHeader.size, copy rbuf (buf.store (received packet)) j =
      copy rbuf' (buf'.store (received packet)) j := by
    intro j hj
    by_cases hzero : j = 0
    · subst hzero
      exact hcopy.first halike (hsame 0 (by omega))
    · have hpos : 0 < j := Nat.pos_of_ne_zero hzero
      rw [hcopy.header _ _ hpos hj, hcopy.header _ _ hpos hj]
      exact hsame j (by omega)
  obtain ⟨hregMem, hreply⟩ := @perform_congr
    ⟨regMem, buf.store (received packet), copy rbuf (buf.store (received packet))⟩
    ⟨regMem, buf'.store (received packet), copy rbuf' (buf'.store (received packet))⟩
    (ownHeader packet) (received packet).length rfl hheaders (fun j hj _ => hsame j hj) hself
  simp only [turnOutcome, ofBuffer_received hheader]
  rw [hregMem, hreply]

/-- A byte of the reply. -/
theorem turnOutcome_getElem (regMem : UInt32 → UInt8) (buf rbuf : Buffer) (packet : List UInt8)
    {j : ℕ} (hj : j < BcpHeader.size +
      (BcpHeader.ofBuffer (buf.store (received packet))).length.toNat) :
    (turnOutcome copy regMem buf rbuf packet).2[j]? =
      some (((⟨regMem, buf.store (received packet), copy rbuf (buf.store (received packet))⟩ :
        TestServer).perform (BcpHeader.ofBuffer (buf.store (received packet)))).rbuf j) := by
  simp [turnOutcome, Buffer.bytes, List.getElem?_map, List.getElem?_range hj]

/-- A request that stands for itself has the same outcome whatever the buffers hold; one that does
not has another where they hold other bytes. -/
theorem turnOutcome_iff (hcopy : CopiesHeader Alike copy) (halike : Alike (filled 0) (filled 1))
    (regMem : UInt32 → UInt8) (hpacket : packet ≠ []) :
    (∀ buf buf' rbuf rbuf', Alike rbuf rbuf' →
        turnOutcome copy regMem buf rbuf packet = turnOutcome copy regMem buf' rbuf' packet) ↔
      SelfContained packet := by
  have hsize : BcpHeader.size = 8 := rfl
  constructor
  · intro hall
    have heq := congrArg Prod.snd (hall (filled 0) (filled 1) (filled 0) (filled 1) halike)
    refine .inr ?_
    by_cases hheader : BcpHeader.size ≤ (received packet).length
    · refine ⟨hheader, ?_⟩
      by_contra hself
      rcases stale_cases hheader hself with ⟨i, hi, hn, hstale⟩ | ⟨hpos, hstale⟩
      · -- the byte behind the datagram
        have hbyte := congrArg (fun reply => reply[(received packet).length]?) heq
        rw [turnOutcome_getElem _ _ _ _ (by rw [ofBuffer_received hheader]; omega),
          turnOutcome_getElem _ _ _ _ (by rw [ofBuffer_received hheader]; omega),
          ofBuffer_received hheader, ofBuffer_received hheader, hstale, hstale] at hbyte
        simp only [Buffer.store_of_le le_rfl, filled, Option.some.injEq] at hbyte
        rw [if_neg (by omega), if_neg (by omega)] at hbyte
        cases hbyte
      · -- the byte behind the header of the reply
        have hbyte := congrArg (fun reply => reply[BcpHeader.size]?) heq
        rw [turnOutcome_getElem _ _ _ _ (by rw [ofBuffer_received hheader]; omega),
          turnOutcome_getElem _ _ _ _ (by rw [ofBuffer_received hheader]; omega),
          ofBuffer_received hheader, ofBuffer_received hheader, hstale, hstale] at hbyte
        simp only [hcopy.behind _ _ le_rfl, Option.some.injEq] at hbyte
        cases hbyte
    · -- the last byte of the header is not there
      have hlast : ∀ (buf rbuf : Buffer), (turnOutcome copy regMem buf rbuf packet).2[7]? =
          some (buf 7) := by
        intro buf rbuf
        rw [turnOutcome_getElem _ _ _ _ (by omega), TestServer.perform_rbuf_of_lt _ (by omega)]
        show some (copy rbuf _ 7) = _
        rw [hcopy.header _ _ (by omega) (by omega), Buffer.store_of_le (by omega)]
      have hbyte := congrArg (fun reply => reply[7]?) heq
      simp only [hlast, Option.some.injEq] at hbyte
      cases hbyte
  · intro hself buf buf' rbuf rbuf' hrbuf
    obtain ⟨hheader, hself⟩ := hself.resolve_left hpacket
    exact turnOutcome_congr hcopy regMem hrbuf hheader hself

end Copy

/-! ### The two servers -/

theorem testServer_copies : CopiesHeader (fun _ _ => True)
    (fun rbuf buf => rbuf.store (buf.bytes BcpHeader.size)) where
  first _ h := h
  header rbuf buf j _ hj := by
    rw [Buffer.store_of_lt (by simpa using hj)]
    simp [Buffer.bytes]
  behind rbuf buf j hj := Buffer.store_of_le (by simpa using hj)

theorem rbcpServer_copies : CopiesHeader (fun rbuf rbuf' => rbuf 0 = rbuf' 0)
    (fun rbuf buf => rbuf.storeAt 1 ((buf.bytes BcpHeader.size).drop 1)) where
  first h _ := h
  header rbuf buf j hpos hj := by
    have hlen : j - 1 < ((buf.bytes BcpHeader.size).drop 1).length := by
      rw [List.length_drop, Buffer.bytes_length]
      omega
    rw [Buffer.storeAt, if_pos (show 1 ≤ j from hpos), List.getD_eq_getElem _ _ hlen]
    simp only [Buffer.bytes, List.getElem_drop, List.getElem_map, List.getElem_range]
    rw [Nat.add_sub_cancel' hpos]
  behind rbuf buf j hj := by
    have hsize : BcpHeader.size = 8 := rfl
    apply Buffer.storeAt_of_le
    rw [List.length_drop, Buffer.bytes_length]
    omega

theorem testServer_outcome (regMem : UInt32 → UInt8) (buf rbuf : Buffer) (hpacket : packet ≠ []) :
    TestServer.outcome ⟨regMem, buf, rbuf⟩ packet =
      (turnOutcome (fun rbuf buf => rbuf.store (buf.bytes BcpHeader.size)) regMem buf rbuf
        packet).map id some := by
  rw [TestServer.outcome, TestServer.serve, if_neg hpacket]
  rfl

theorem rbcpServer_outcome (regMem : UInt32 → UInt8) (size : UInt32) (buf rbuf : Buffer)
    (hends : DumpEnds packet) :
    RBCPServer.outcome ⟨⟨regMem, buf, rbuf⟩, size, false⟩ packet =
      (turnOutcome (fun rbuf buf => rbuf.storeAt 1 ((buf.bytes BcpHeader.size).drop 1)) regMem buf
        rbuf packet).map id some := by
  rw [RBCPServer.outcome, RBCPServer.serverRecvToRegMem_of_ends rfl hends]
  rfl

theorem map_id_some_inj {α β : Type*} {p q : α × β} :
    p.map id some = q.map id some ↔ p = q := by
  obtain ⟨a, b⟩ := p
  obtain ⟨c, d⟩ := q
  simp

end Turn

/-- For every datagram and any registers: what the `TEST_SERVER` loop replies and does to the
registers is independent of what its buffers hold exactly if the datagram is self-contained. For
`server_recv_to_reg_mem` this is so, among contents of the reply buffer with the same first byte,
exactly if the datagram does not bring a header or its request answers itself. No request
changes that byte; where the first bytes differ, so do the replies. -/
theorem independent_iff (packet : List UInt8) :
    (∀ regMem, (∀ buf buf' rbuf rbuf', TestServer.outcome ⟨regMem, buf, rbuf⟩ packet =
        TestServer.outcome ⟨regMem, buf', rbuf'⟩ packet) ↔ SelfContained packet) ∧
    (∀ regMem size, (∀ buf buf' rbuf rbuf' : Buffer, rbuf 0 = rbuf' 0 →
        RBCPServer.outcome ⟨⟨regMem, buf, rbuf⟩, size, false⟩ packet =
          RBCPServer.outcome ⟨⟨regMem, buf', rbuf'⟩, size, false⟩ packet) ↔
      ((received packet).length < BcpHeader.size ∨
        AnswersItself (ownHeader packet) (received packet).length)) ∧
    ∀ s : RBCPServer, (s.serverRecvToRegMem packet).1.rbuf 0 = s.rbuf 0 ∧
      ∀ reply ∈ (s.serverRecvToRegMem packet).2, reply.head? = some (s.rbuf 0) := by
  refine ⟨fun regMem => ?_, fun regMem size => ?_, fun s => ?_⟩
  · by_cases hpacket : packet = []
    · subst hpacket
      exact iff_of_true (fun _ _ _ _ => rfl) (.inl rfl)
    · rw [← turnOutcome_iff testServer_copies trivial regMem hpacket]
      simp only [testServer_outcome _ _ _ hpacket, map_id_some_inj, forall_true_left]
  · by_cases hends : DumpEnds packet
    · have hpacket : packet ≠ [] := by
        rintro rfl
        exact absurd hends (by decide)
      have hheader := dumpEnds_iff.mp hends
      have hself : SelfContained packet ↔ (received packet).length < BcpHeader.size ∨
          AnswersItself (ownHeader packet) (received packet).length := by
        rw [SelfContained, or_iff_right hpacket, and_iff_right hheader,
          or_iff_right (Nat.not_lt.mpr hheader)]
      rw [← hself, ← turnOutcome_iff rbcpServer_copies rfl regMem hpacket]
      simp only [rbcpServer_outcome _ _ _ _ hends, map_id_some_inj]
    · -- no answer, and the registers as they are
      have hshort : (received packet).length < BcpHeader.size := by
        rwa [← Nat.not_le, ← dumpEnds_iff]
      refine iff_of_true (fun buf buf' rbuf rbuf' _ => ?_) (.inl hshort)
      have hnone (s : RBCPServer) : s.outcome packet = (s.regMem, none) := by
        obtain ⟨hregMem, -, hreply⟩ := s.serverRecvToRegMem_of_not_ends hends
        rw [RBCPServer.outcome, hregMem, hreply]
      rw [hnone, hnone]
  · by_cases hends : DumpEnds packet ∧ s.inDump = false
    · rw [RBCPServer.serverRecvToRegMem_of_ends hends.2 hends.1]
      refine ⟨RBCPServer.answer_rbuf_zero _, ?_⟩
      intro reply hreply
      cases hreply
      exact RBCPServer.reply_head _
    · have hnone : (s.serverRecvToRegMem packet).1.rbuf 0 = s.rbuf 0 ∧
          (s.serverRecvToRegMem packet).2 = none := by
        by_cases hdump : s.inDump = true
        · rw [RBCPServer.serverRecvToRegMem, if_pos (.inr hdump)]
          exact ⟨rfl, rfl⟩
        · have hshort : ¬ DumpEnds packet := fun h => hends ⟨h, by simpa using hdump⟩
          obtain ⟨-, hfirst, hreply⟩ := s.serverRecvToRegMem_of_not_ends hshort
          exact ⟨hfirst, hreply⟩
      refine ⟨hnone.1, fun reply hreply => ?_⟩
      rw [hnone.2] at hreply
      cases hreply

/-- A write of two registers that brings one byte: the second register takes a byte of an earlier
request. -/
theorem short_write_leaks :
    ¬ ∀ (packet : List UInt8) (regMem : UInt32 → UInt8) (buf buf' rbuf rbuf' : Buffer),
      TestServer.outcome ⟨regMem, buf, rbuf⟩ packet =
        TestServer.outcome ⟨regMem, buf', rbuf'⟩ packet := by
  intro h
  have houtcome := h [0xff, 0x80, 7, 2, 0, 0, 0, 1, 0xaa] (fun _ => 0) (fun _ => 0)
    (fun _ => 0xbb) (fun _ => 0) (fun _ => 0)
  have hregister := congrFun (congrArg Prod.fst houtcome) 2
  revert hregister
  decide

end LebStudy
