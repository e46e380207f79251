import LebStudy.Rbcp.Relay

/-!
# What goes through the relay

The two moves of the relay, each over a whole packet: in front of the same bytes they
put the header of the direct request, and that of the answer to the client. So the
target gets what the direct call sends, and the client gets what the target replies,
from whatever earlier turns have left in the buffers. A reply that is a bare header
makes the difference: `read` and `hopread` return its length, eight bytes and sixteen.
-/

namespace LebStudy

open BigEndian

namespace Relay

/-- A call by way of the relay that opens the target, sends to it and gets its reply: the
target is the one named and gets the request of the direct call, and the client gets what
the direct call returns. -/
def Transparent (getaddrinfo : String → Option UInt32) (s : Relay) (mSequence : ℕ)
    (c : RbcpCall) (destIp : UInt32) (destPort : UInt16) (peer : SockAddr)
    (reply : List UInt8) : Prop :=
  ∃ request direct answer,
    HopCall.request mSequence ⟨c, destIp, destPort.toUInt32⟩ = some request ∧
    c.request mSequence = some direct ∧
    (s.turn getaddrinfo ⟨some (peer, request), true, true, some reply⟩).2 =
      [.opening destIp destPort.toUInt32, .hop ⟨destIp, destPort⟩ direct.length direct,
        .serve peer answer.length answer] ∧
    (c.IsRead → HopCall.received (some answer) ⟨c, destIp, destPort.toUInt32⟩ =
      c.received (some reply)) ∧
    ∀ buf : Buffer, (EbcpHeader.ofBuffer (buf.store answer)).destIp = destIp ∧
      (EbcpHeader.ofBuffer (buf.store answer)).destPort = destPort.toUInt32

/-! ### The packets in the buffers -/

section Packets

variable {buf rbuf : Buffer} {data payload : List UInt8}

/-- Eight bytes with another type in front. -/
theorem bytes_size_eq {buf buf' : Buffer} {type : UInt8} {h : BcpHeader}
    (hbuf : buf.Holds h.bytes) (hzero : buf' 0 = type)
    (hrest : ∀ k, 0 < k → k < BcpHeader.size → buf' k = buf k) :
    buf'.bytes BcpHeader.size = { h with type := type }.bytes := by
  rw [Buffer.Holds, BcpHeader.bytes_length] at hbuf
  have htail : (buf'.bytes BcpHeader.size).tail = (buf.bytes BcpHeader.size).tail := by
    show [buf' 1, buf' 2, buf' 3, buf' 4, buf' 5, buf' 6, buf' 7] =
      [buf 1, buf 2, buf 3, buf 4, buf 5, buf 6, buf 7]
    rw [hrest 1, hrest 2, hrest 3, hrest 4, hrest 5, hrest 6, hrest 7] <;> decide
  have hcons : buf'.bytes BcpHeader.size = buf' 0 :: (buf'.bytes BcpHeader.size).tail := rfl
  rw [hcons, htail, hzero, hbuf]
  rfl

/-- The request to the target: the header without the address, and the same data. -/
theorem unwrap_bytes {h : EbcpHeader} (hbuf : buf.Holds (h.bytes ++ data))
    (hlen : data.length ≤ h.length.toNat) :
    (unwrap buf).bytes (BcpHeader.size + data.length) =
      h.direct.bytes ++ data := by
  obtain ⟨hheader, hdata⟩ := Buffer.holds_append.mp hbuf
  have hlength : buf 3 = h.length :=
    congrArg (fun h => h.length) (EbcpHeader.ofBuffer_of_holds hheader)
  have hfirst := bytes_size_eq (Buffer.holds_append.mp hheader).1 (unwrap_zero buf)
    fun k hpos hk => unwrap_of_lt hpos hk
  have hrest : ((unwrap buf).plus BcpHeader.size).bytes data.length = data := by
    rw [EbcpHeader.bytes_length] at hdata
    refine (Buffer.bytes_congr fun k hk => ?_).trans hdata
    exact unwrap_add (by rw [hlength]; omega)
  rw [Buffer.bytes_add, hfirst, hrest, EbcpHeader.direct]

/-- The answer to the client: the address behind the header, and the same payload. -/
theorem wrap_bytes {h : BcpHeader} {hopIp hopPort : UInt32}
    (hrbuf : rbuf.Holds (h.bytes ++ payload)) (hlen : payload.length ≤ h.length.toNat) :
    (wrap hopIp hopPort rbuf).bytes (EbcpHeader.size + payload.length) =
      (h.hopped hopIp hopPort).bytes ++ payload := by
  obtain ⟨hheader, hpayload⟩ := Buffer.holds_append.mp hrbuf
  have hlength : rbuf 3 = h.length := by
    rw [Buffer.Holds, BcpHeader.bytes_length] at hheader
    exact congrArg (fun h => h.length) (BcpHeader.ofBuffer_eq hheader)
  have hfirst := bytes_size_eq hheader (wrap_zero rbuf)
    fun k hpos hk => @wrap_of_lt _ hopIp hopPort _ hpos hk
  have hip : ((wrap hopIp hopPort rbuf).plus BcpHeader.size).bytes 4 =
      beBytes 4 hopIp.toNat := by
    apply List.ext_getElem
    · simp
    · intro k hk hk'
      simp only [Buffer.bytes, List.getElem_map, List.getElem_range, Buffer.plus]
      exact (wrap_ip (by simpa using hk)).trans (List.getD_eq_getElem _ _ hk')
  have hport : ((wrap hopIp hopPort rbuf).plus (BcpHeader.size + 4)).bytes 4 =
      beBytes 4 hopPort.toNat := by
    apply List.ext_getElem
    · simp
    · intro k hk hk'
      simp only [Buffer.bytes, List.getElem_map, List.getElem_range, Buffer.plus]
      exact (wrap_port (by simpa using hk)).trans (List.getD_eq_getElem _ _ hk')
  -- the payload has been moved up before the address was written over its place
  have hrest : ((wrap hopIp hopPort rbuf).plus EbcpHeader.size).bytes payload.length =
      payload := by
    rw [BcpHeader.bytes_length] at hpayload
    refine (Buffer.bytes_congr fun k hk => ?_).trans hpayload
    exact wrap_add (by rw [hlength]; omega)
  have hsize : EbcpHeader.size = BcpHeader.size + (4 + 4) := rfl
  rw [Buffer.bytes_add, hrest, hsize, Buffer.bytes_add, hfirst, Buffer.bytes_add,
    Buffer.plus_plus, hip, hport]
  rfl

end Packets

/-! ### A turn with a request and a reply -/

section Turn

variable {getaddrinfo : String → Option UInt32} {s : Relay} {peer : SockAddr}
  {data payload : List UInt8}

/-- The answer to the client. -/
theorem answer_reply {rh : BcpHeader} {hopIp hopPort : UInt32}
    (hlength : rh.length.toNat = payload.length) :
    (s.answer hopIp hopPort (some (rh.bytes ++ payload))).2 =
      [.serve s.peer ((rh.hopped hopIp hopPort).bytes ++ payload).length
        ((rh.hopped hopIp hopPort).bytes ++ payload)] := by
  have hsize : BcpHeader.size = 8 := rfl
  have hsize' : EbcpHeader.size = 16 := rfl
  have hlt := rh.length.toNat_lt
  have hlen : (rh.bytes ++ payload).length = BcpHeader.size + payload.length := by
    rw [List.length_append, BcpHeader.bytes_length]
  have htake : (rh.bytes ++ payload).take 2048 = rh.bytes ++ payload :=
    List.take_of_length_le (by omega)
  have hne : rh.bytes ++ payload ≠ [] := by
    intro hnil
    rw [hnil, List.length_nil] at hlen
    omega
  have hwrap := @wrap_bytes _ _ _ hopIp hopPort
    (Buffer.holds_store s.rbuf (rh.bytes ++ payload)) hlength.ge
  have helen : BcpHeader.size + payload.length + 8 = EbcpHeader.size + payload.length := by omega
  rw [answer_some s hopIp hopPort hne, htake, hlen, helen, hwrap, List.length_append,
    EbcpHeader.bytes_length]

/-- What the relay does with a request, and with the reply to it. -/
theorem turn_request {h : EbcpHeader} {rh : BcpHeader} (htype : h.type = rbcpTypeHop)
    (hdata : data.length ≤ 255) (hlen : data.length ≤ h.length.toNat)
    (hquad : getaddrinfo (ipUint2char h.destIp) = some h.destIp)
    (hlength : rh.length.toNat = payload.length) :
    (s.turn getaddrinfo
      ⟨some (peer, h.bytes ++ data), true, true, some (rh.bytes ++ payload)⟩).2 =
      [.opening h.destIp h.destPort,
        .hop ⟨h.destIp, h.destPort.toUInt16⟩ (h.direct.bytes ++ data).length
          (h.direct.bytes ++ data),
        .serve peer ((rh.hopped h.destIp h.destPort).bytes ++ payload).length
          ((rh.hopped h.destIp h.destPort).bytes ++ payload)] := by
  have hsize : BcpHeader.size = 8 := rfl
  have hsize' : EbcpHeader.size = 16 := rfl
  have hndata : (h.bytes ++ data).length = EbcpHeader.size + data.length := by
    rw [List.length_append, EbcpHeader.bytes_length]
  have htake : (h.bytes ++ data).take 2048 = h.bytes ++ data :=
    List.take_of_length_le (by omega)
  have hreceive := receive_some s peer (h.bytes ++ data)
  rw [htake, hndata] at hreceive
  have hholds := Buffer.holds_store s.buf (h.bytes ++ data)
  have hheader := EbcpHeader.ofBuffer_of_holds (Buffer.holds_append.mp hholds).1
  have hzero : s.buf.store (h.bytes ++ data) 0 = rbcpTypeHop :=
    (congrArg (fun h => h.type) hheader).trans htype
  have hcount : ((EbcpHeader.size + data.length : ℕ) : ℤ) -
      (EbcpHeader.size - BcpHeader.size : ℕ) = (BcpHeader.size + data.length : ℕ) := by omega
  have hopen : openHop getaddrinfo (ipUint2char h.destIp) h.destPort true =
      some ⟨h.destIp, h.destPort.toUInt16⟩ := by
    rw [openHop, hquad]
    rfl
  have hsent : sent ((BcpHeader.size + data.length : ℕ) : ℤ) true =
      (BcpHeader.size + data.length : ℕ) := if_pos ⟨Int.natCast_nonneg _, rfl⟩
  have hunwrap := unwrap_bytes hholds hlen
  have hdirect : (h.direct.bytes ++ data).length = BcpHeader.size + data.length := by
    rw [List.length_append, BcpHeader.bytes_length]
  rw [hdirect, turn_hop hreceive hzero, hop_sent (by rw [hheader]; exact hopen)
    (by rw [hcount]; exact hsent), hheader, hcount, Int.toNat_natCast, hunwrap,
    answer_reply hlength]
  rfl

end Turn

/-! ### What the client makes of the answer -/

section Received

variable {c : RbcpCall} {rh : BcpHeader} {payload : List UInt8} {destIp destPort : UInt32}

/-- The payload is returned either way; without one it is the length of the header. -/
theorem received_iff (hc : c.IsRead) (hlength : rh.length.toNat = payload.length) :
    HopCall.received (some ((rh.hopped destIp destPort).bytes ++ payload)) ⟨c, destIp, destPort⟩ =
      c.received (some (rh.bytes ++ payload)) ↔ payload ≠ [] := by
  have hsize : BcpHeader.size = 8 := rfl
  have hsize' : EbcpHeader.size = 16 := rfl
  have hlt := rh.length.toNat_lt
  cases c with
  | write data addr => exact hc.elim
  | read buf addr len =>
    have htake : (rh.bytes ++ payload).take 2048 = rh.bytes ++ payload :=
      List.take_of_length_le (by rw [List.length_append, BcpHeader.bytes_length]; omega)
    have htake' : ((rh.hopped destIp destPort).bytes ++ payload).take 2048 =
        (rh.hopped destIp destPort).bytes ++ payload :=
      List.take_of_length_le (by rw [List.length_append, EbcpHeader.bytes_length]; omega)
    simp only [HopCall.received, RbcpCall.received, Option.map_some, htake, htake',
      RbcpCall.readReceived_eq]
    by_cases hne : payload = []
    · -- both calls return the length of their own header
      subst hne
      have hdirect := @RbcpCall.receivedBehind_of_le BcpHeader.size buf (rh.bytes ++ []) (by simp)
      have hhop := @RbcpCall.receivedBehind_of_le EbcpHeader.size buf
        ((rh.hopped destIp destPort).bytes ++ []) (by simp)
      simp only [hdirect, hhop]
      refine iff_of_false ?_ (fun h => h rfl)
      intro heq
      have hvalue := (Prod.mk.inj heq).1
      simp [hsize, hsize'] at hvalue
    · obtain ⟨buf₁, hdirect, hbytes₁⟩ :=
        RbcpCall.receivedBehind_append buf (BcpHeader.bytes_length rh) hne
      obtain ⟨buf₂, hhop, hbytes₂⟩ :=
        RbcpCall.receivedBehind_append buf (EbcpHeader.bytes_length (rh.hopped destIp destPort)) hne
      simp only [hdirect, hhop, Int.toNat_natCast, hbytes₁, hbytes₂]
      exact iff_of_true trivial hne

end Received

section Transparent

variable {getaddrinfo : String → Option UInt32} {s : Relay} {mSequence : ℕ} {c : RbcpCall}
  {destIp : UInt32} {destPort : UInt16} {peer : SockAddr} {rh : BcpHeader} {payload : List UInt8}

/-- A call by way of the relay, in the terms of the direct one. -/
theorem turn_call (hquad : getaddrinfo (ipUint2char destIp) = some destIp) (hc : c.InByte)
    (hlength : rh.length.toNat = payload.length) :
    ∃ request, HopCall.request mSequence ⟨c, destIp, destPort.toUInt32⟩ = some request ∧
      (s.turn getaddrinfo ⟨some (peer, request), true, true, some (rh.bytes ++ payload)⟩).2 =
        [.opening destIp destPort.toUInt32,
          .hop ⟨destIp, destPort⟩ ((c.header mSequence).bytes ++ c.body).length
            ((c.header mSequence).bytes ++ c.body),
          .serve peer ((rh.hopped destIp destPort.toUInt32).bytes ++ payload).length
            ((rh.hopped destIp destPort.toUInt32).bytes ++ payload)] := by
  have hrequest := RbcpCall.hop_request_eq hc mSequence destIp destPort.toUInt32
  have hheader := HopCall.header_eq mSequence ⟨c, destIp, destPort.toUInt32⟩
  have hturn := @turn_request getaddrinfo s peer c.body payload
    ((c.header mSequence).hopped destIp destPort.toUInt32) rh rfl (RbcpCall.body_length_le hc)
    (RbcpCall.body_length_le_header hc mSequence) hquad hlength
  have hback : ((c.header mSequence).hopped destIp destPort.toUInt32).direct =
      c.header mSequence := by
    rw [← hheader, HopCall.direct_header]
  simp only [hback, BcpHeader.hopped_destIp, BcpHeader.hopped_destPort,
    UInt16.toUInt16_toUInt32] at hturn
  rw [hheader] at hrequest
  exact ⟨_, hrequest, hturn⟩

theorem Transparent.payload_ne_nil
    (h : s.Transparent getaddrinfo mSequence c destIp destPort peer (rh.bytes ++ payload))
    (hquad : getaddrinfo (ipUint2char destIp) = some destIp) (hc : c.InByte)
    (hlength : rh.length.toNat = payload.length) (hread : c.IsRead) : payload ≠ [] := by
  obtain ⟨request, direct, answer, hrequest, -, hturn, hreceived, -⟩ := h
  obtain ⟨request', hrequest', hturn'⟩ := @turn_call _ s mSequence c destIp destPort peer rh payload
    hquad hc hlength
  cases hrequest.symm.trans hrequest'
  rw [hturn'] at hturn
  simp only [List.cons.injEq, RelayEvent.serve.injEq, and_true, true_and] at hturn
  rw [← hturn.2.2] at hreceived
  exact (received_iff hread hlength).mp (hreceived hread)

/-- For every call with 1 to 255 registers and every reply whose length field tells its
payload: the relay is transparent exactly if a `read` gets a payload. -/
theorem transparent_iff (hquad : getaddrinfo (ipUint2char destIp) = some destIp)
    (hc : c.InByte) (hlength : rh.length.toNat = payload.length) :
    s.Transparent getaddrinfo mSequence c destIp destPort peer (rh.bytes ++ payload) ↔
      (c.IsRead → payload ≠ []) := by
  constructor
  · intro h
    exact h.payload_ne_nil hquad hc hlength
  · intro hne
    obtain ⟨request, hrequest, hturn⟩ := @turn_call _ s mSequence c destIp destPort peer rh payload
      hquad hc hlength
    refine ⟨request, _, _, hrequest, RbcpCall.request_eq hc mSequence, hturn,
      fun hread => (received_iff hread hlength).mpr (hne hread), fun buf => ?_⟩
    have hholds := (Buffer.holds_append.mp
      (Buffer.holds_store buf ((rh.hopped destIp destPort.toUInt32).bytes ++ payload))).1
    rw [EbcpHeader.ofBuffer_of_holds hholds]
    exact ⟨rfl, rfl⟩

/-- A target that answers a read with a bare header: `read` returns 8, and `hopread` 16. -/
theorem bare_reply_differs :
    ¬ ∀ (getaddrinfo : String → Option UInt32) (s : Relay) (mSequence : ℕ) (c : RbcpCall)
      (destIp : UInt32) (destPort : UInt16) (peer : SockAddr) (rh : BcpHeader)
      (payload : List UInt8), getaddrinfo (ipUint2char destIp) = some destIp → c.InByte →
        rh.length.toNat = payload.length →
        s.Transparent getaddrinfo mSequence c destIp destPort peer (rh.bytes ++ payload) := by
  intro h
  have htransparent := h localhost (start ⟨0, 0⟩) 0 (.read (fun _ => 0) 1 1) 0x7f000001 4660 ⟨0, 0⟩
    ⟨rbcpVer, rbcpCmdRd, 0, 0, 1⟩ [] (by decide) ⟨by decide, by decide⟩ rfl
  exact htransparent.payload_ne_nil (by decide) ⟨by decide, by decide⟩ rfl trivial rfl

theorem transparent_read_one :
    (start ⟨0, 0⟩).Transparent localhost 0 (.read (fun _ => 0) 1 1) 0x7f000001 4660 ⟨0, 0⟩
      ((BcpHeader.mk rbcpVer rbcpCmdRd 0 1 1).bytes ++ [0xaa]) :=
  (@transparent_iff localhost (start ⟨0, 0⟩) 0 (.read (fun _ => 0) 1 1) 0x7f000001 4660 ⟨0, 0⟩
    ⟨rbcpVer, rbcpCmdRd, 0, 1, 1⟩ [0xaa] (by decide) ⟨by decide, by decide⟩ rfl).mpr
    fun _ => by decide

end Transparent

end Relay

end LebStudy
