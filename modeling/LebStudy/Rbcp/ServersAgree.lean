import LebStudy.Rbcp.RegisterBounds

/-!
# The two register servers side by side

Started with the same registers, and given the same requests, the two servers are in the same
state as long as the requests are of type zero: then the one line that
`server_recv_to_reg_mem` lacks makes no difference. At the first other type they send different
replies. All this is about requests that bring a header and end within the memory, since behind
it the two find what happens to be there.
-/

namespace LebStudy

/-- A server takes packet after packet; its replies. -/
def serveAll {σ : Type*} (serve : σ → List UInt8 → σ × Option (List UInt8)) :
    σ → List (List UInt8) → σ × List (List UInt8)
  | s, [] => (s, [])
  | s, packet :: packets =>
    let (s, reply) := serve s packet
    let (s, replies) := serveAll serve s packets
    (s, reply.toList ++ replies)

/-- The registers of the two memories, of `size` bytes each, are the same. -/
def SameRegisters (size : ℕ) (regMem regMem' : UInt32 → UInt8) : Prop :=
  ∀ a, a.toNat < size → regMem a = regMem' a

/-- The two servers send the same replies and end with the same registers. -/
def ServersAgree (size : ℕ) (s : TestServer) (t : RBCPServer) (packets : List (List UInt8)) :
    Prop :=
  (serveAll TestServer.serve s packets).2 = (serveAll RBCPServer.serverRecvToRegMem t packets).2 ∧
    SameRegisters size (serveAll TestServer.serve s packets).1.regMem
      (serveAll RBCPServer.serverRecvToRegMem t packets).1.regMem

/-- The first byte of the packet, its type, is zero. -/
def TypeZero (packet : List UInt8) : Prop := ∀ type ∈ packet.head?, type = 0

instance (packet : List UInt8) : Decidable (TypeZero packet) :=
  inferInstanceAs (Decidable (∀ type ∈ packet.head?, _))

/-- A request with a header that ends within the memory. -/
def InRange (size : ℕ) (packet : List UInt8) : Prop :=
  BcpHeader.size ≤ packet.length ∧ EndsWithin size (ownHeader packet)

instance (size : ℕ) (packet : List UInt8) : Decidable (InRange size packet) :=
  inferInstanceAs (Decidable (_ ∧ _))

/-! ### The loops on memories that differ behind the registers -/

namespace TestServer

variable {h : BcpHeader} {u v : TestServer} {size : ℕ}

/-- The write loop makes no difference where there is none before. -/
theorem writeLoop_congr_at {addr : UInt32} (hbuf : u.buf = v.buf) (n : ℕ) {a : UInt32}
    (ha : u.regMem a = v.regMem a) :
    ((List.range n).foldl (writeRegister addr) u).regMem a =
      ((List.range n).foldl (writeRegister addr) v).regMem a := by
  induction n with
  | zero => exact ha
  | succ n ih =>
    rw [List.range_succ, List.foldl_append, List.foldl_append]
    simp only [List.foldl_cons, List.foldl_nil, writeRegister, (writeLoop_rbuf _ n).1, hbuf]
    by_cases hindex : a = UInt32.ofNat n + addr
    · rw [hindex, Function.update_self, Function.update_self]
    · rw [Function.update_of_ne hindex, Function.update_of_ne hindex]
      exact ih

/-- A request that ends within the memory does not see what lies behind it. -/
theorem perform_within (hsize : size < 2 ^ 32) (hwithin : EndsWithin size h)
    (hbuf : u.buf = v.buf) (hrbuf : u.rbuf = v.rbuf)
    (hmem : SameRegisters size u.regMem v.regMem) :
    (u.perform h).rbuf = (v.perform h).rbuf ∧
      SameRegisters size (u.perform h).regMem (v.perform h).regMem := by
  constructor
  · funext j
    by_cases hfront : j < BcpHeader.size
    · rw [perform_rbuf_of_lt _ hfront, perform_rbuf_of_lt _ hfront, hrbuf]
    by_cases hbehind : BcpHeader.size + h.length.toNat ≤ j
    · rw [perform_rbuf_outside _ _ (.inr hbehind), perform_rbuf_outside _ _ (.inr hbehind), hrbuf]
    obtain ⟨i, rfl⟩ := Nat.exists_eq_add_of_le (Nat.le_of_not_lt hfront)
    have hi : i < h.length.toNat := by omega
    rw [perform_rbuf u hi, perform_rbuf v hi, hbuf, hrbuf]
    by_cases hrd : h.command = rbcpCmdRd
    · have hindex : UInt32.ofNat i + h.address ∈ registerIndices h := by
        rw [registerIndices, if_pos (.inl hrd)]
        exact List.mem_map_of_mem (List.mem_range.mpr hi)
      rw [if_pos hrd, if_pos hrd, hmem _ ((indices_lt_iff hsize).mpr hwithin _ hindex)]
    · rw [if_neg hrd, if_neg hrd]
  · intro a ha
    rw [perform_regMem, perform_regMem]
    by_cases hwr : h.command = rbcpCmdWr
    · rw [if_pos hwr, if_pos hwr]
      exact writeLoop_congr_at hbuf _ (hmem a ha)
    · rw [if_neg hwr, if_neg hwr]
      exact hmem a ha

end TestServer

/-! ### Request by request -/

/-- The servers differ at most in what lies behind their registers, and the type in the reply
buffer is still zero. -/
structure Alike (size : ℕ) (s : TestServer) (t : RBCPServer) : Prop where
  buf : s.buf = t.buf
  rbuf : s.rbuf = t.rbuf
  regMem : SameRegisters size s.regMem t.regMem
  type : t.rbuf 0 = 0
  alive : t.inDump = false

section Turn

variable {size : ℕ} {s : TestServer} {t : RBCPServer} {packet : List UInt8}

/-- The header that a server finds is that of the request. -/
theorem ofBuffer_receive (hlen : BcpHeader.size ≤ packet.length) (s : TestServer) :
    BcpHeader.ofBuffer (s.receive packet).buf = ownHeader packet := by
  have hsize : BcpHeader.size = 8 := rfl
  apply ofBuffer_received
  rw [received_length]
  omega

theorem dumpEnds_of_le (hlen : BcpHeader.size ≤ packet.length) : DumpEnds packet := by
  have hsize : BcpHeader.size = 8 := rfl
  rw [dumpEnds_iff, received_length]
  omega

theorem serve_of_le (hlen : BcpHeader.size ≤ packet.length) (s : TestServer) :
    s.serve packet = ((s.receive packet).answer, some (s.receive packet).reply) := by
  have hne : packet ≠ [] := by
    rintro rfl
    exact absurd hlen (by decide)
  rw [TestServer.serve, if_neg hne]

/-- With the type in place already, the two copies of the header are the same. -/
theorem Alike.copyFields (hst : Alike size s t) (htype : t.buf 0 = 0) :
    t.copyFields.rbuf = s.copyHeader.rbuf := by
  rw [copyFields_eq (hst.type.trans htype.symm)]
  show t.rbuf.store (t.buf.bytes BcpHeader.size) = s.rbuf.store (s.buf.bytes BcpHeader.size)
  rw [hst.buf, hst.rbuf]

/-- On a request of type zero the two turns are the same. -/
theorem Alike.serve (hsize : size < 2 ^ 32) (hst : Alike size s t) (hrange : InRange size packet)
    (htype : TypeZero packet) :
    Alike size (s.serve packet).1 (t.serverRecvToRegMem packet).1 ∧
      (s.serve packet).2 = (t.serverRecvToRegMem packet).2 := by
  obtain ⟨hlen, hwithin⟩ := hrange
  rw [serve_of_le hlen, RBCPServer.serverRecvToRegMem_of_ends hst.alive (dumpEnds_of_le hlen)]
  have hreceive : Alike size (s.receive packet) (t.receive packet) := by
    refine ⟨?_, hst.rbuf, hst.regMem, hst.type, hst.alive⟩
    show s.buf.store _ = t.buf.store _
    rw [hst.buf]
  have hzero : (t.receive packet).buf 0 = 0 := by
    cases packet with
    | nil => exact absurd hlen (by decide)
    | cons byte rest => exact htype byte rfl
  have hheader : BcpHeader.ofBuffer (t.receive packet).buf = ownHeader packet :=
    ofBuffer_receive hlen t.toTestServer
  obtain ⟨hrbuf, hregMem⟩ := TestServer.perform_within (u := (s.receive packet).copyHeader)
    (v := (t.receive packet).copyFields) hsize hwithin hreceive.buf
    (hreceive.copyFields hzero).symm hreceive.regMem
  have hs : (s.receive packet).answer =
      (s.receive packet).copyHeader.perform (ownHeader packet) := by
    rw [TestServer.answer, ofBuffer_receive hlen]
  have ht : (t.receive packet).answer.toTestServer =
      (t.receive packet).copyFields.perform (ownHeader packet) := by
    rw [RBCPServer.answer, hheader]
  refine ⟨⟨?_, ?_, ?_, ?_, hst.alive⟩, ?_⟩
  · rw [hs, ht]
    rw [TestServer.perform_buf, TestServer.perform_buf]
    exact hreceive.buf
  · rw [hs, ht, hrbuf]
  · rw [hs, ht]
    exact hregMem
  · exact (RBCPServer.answer_rbuf_zero _).trans hst.type
  · rw [TestServer.reply, RBCPServer.reply, hs, ht, ofBuffer_receive hlen, hheader, hrbuf]

/-- On a request of another type the replies begin differently. -/
theorem Alike.replies_ne (hst : Alike size s t) (hlen : BcpHeader.size ≤ packet.length)
    (htype : ¬ TypeZero packet) (packets : List (List UInt8)) :
    (serveAll TestServer.serve s (packet :: packets)).2 ≠
      (serveAll RBCPServer.serverRecvToRegMem t (packet :: packets)).2 := by
  intro hreplies
  have hfirst := congrArg (fun replies => replies.head?.bind List.head?) hreplies
  simp only [serveAll, serve_of_le hlen,
    RBCPServer.serverRecvToRegMem_of_ends hst.alive (dumpEnds_of_le hlen), Option.toList_some,
    List.singleton_append, List.head?_cons, Option.bind_some, TestServer.reply_head,
    RBCPServer.reply_head, Option.some.injEq] at hfirst
  cases packet with
  | nil => exact absurd hlen (by decide)
  | cons byte rest =>
    refine htype fun type hmem => ?_
    obtain rfl : byte = type := Option.some.inj hmem
    exact hfirst.trans hst.type

end Turn

/-- From equal register memories, whatever lies behind them, and for any sequence of requests that
bring a header and end within the memory: the two servers send the same replies and end with the
same registers exactly if each request is of type zero. -/
theorem serversAgree_iff (size : UInt32) (regMem regMem' : UInt32 → UInt8) (buf : Buffer)
    (hsame : SameRegisters size.toNat regMem regMem') (packets : List (List UInt8))
    (hrange : ∀ packet ∈ packets, InRange size.toNat packet) :
    ServersAgree size.toNat ⟨regMem, buf, fun _ => 0⟩ (RBCPServer.init regMem' size buf) packets ↔
      ∀ packet ∈ packets, TypeZero packet := by
  -- as long as the types are zero, the servers stay alike
  suffices hall : ∀ s t, Alike size.toNat s t →
      (ServersAgree size.toNat s t packets ↔ ∀ packet ∈ packets, TypeZero packet) from
    hall _ _ ⟨rfl, rfl, hsame, rfl, rfl⟩
  induction packets with
  | nil => exact fun s t hst => iff_of_true ⟨rfl, hst.regMem⟩ (by simp)
  | cons packet packets ih =>
    intro s t hst
    obtain ⟨hpacket, hpackets⟩ := List.forall_mem_cons.mp hrange
    by_cases htype : TypeZero packet
    · obtain ⟨hst', hreply⟩ := hst.serve size.toNat_lt hpacket htype
      rw [List.forall_mem_cons, ← ih hpackets _ _ hst', and_iff_right htype]
      simp only [ServersAgree, serveAll, hreply, List.append_cancel_left_eq]
    · refine iff_of_false ?_ fun hforall => htype (hforall packet List.mem_cons_self)
      rintro ⟨hreplies, -⟩
      exact hst.replies_ne hpacket.1 htype packets hreplies

/-- A read of register 1, of type `RBCP_VER`. -/
theorem servers_differ :
    ¬ ∀ (size : UInt32) (regMem regMem' : UInt32 → UInt8) (buf : Buffer),
      SameRegisters size.toNat regMem regMem' → ∀ packets : List (List UInt8),
        (∀ packet ∈ packets, InRange size.toNat packet) →
          ServersAgree size.toNat ⟨regMem, buf, fun _ => 0⟩ (RBCPServer.init regMem' size buf)
            packets := by
  intro h
  have hagree := h 0x4000 (fun _ => 0) (fun _ => 0) (fun _ => 0) (fun _ _ => rfl)
    [[0xff, 0xc0, 7, 1, 0, 0, 0, 1]] (by decide)
  have hreplies := hagree.1
  revert hreplies
  decide

/-- A write of two registers, a read of three and a command that neither server knows, on memories
that differ behind the registers. -/
theorem serversAgree_of_type_zero :
    ServersAgree 0x4000 ⟨fun _ => 0, fun _ => 0, fun _ => 0⟩
      (RBCPServer.init (fun a => if a.toNat < 0x4000 then 0 else 0xee) 0x4000 fun _ => 0)
      [[0, 0x80, 1, 2, 0, 0, 0, 1, 0xaa, 0xbb], [0, 0xc0, 2, 3, 0, 0, 0, 1],
        [0, 0x11, 3, 2, 0, 0, 0, 1]] :=
  (serversAgree_iff 0x4000 (fun _ => 0) (fun a => if a.toNat < 0x4000 then 0 else 0xee)
    (fun _ => 0) (fun _ ha => (if_pos ha).symm) _ (by decide)).mpr (by simp [TypeZero])

end LebStudy
