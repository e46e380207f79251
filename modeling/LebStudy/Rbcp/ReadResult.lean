import LebStudy.Rbcp.Hop

/-!
# What the read operations return

`RBCP::read`, `RBCP::hopread` and the function `rbcp_read` of the C library take the
header off the reply and leave the payload in `buf`. What they return counts the payload
exactly if there is one, for the first two, and never for the third.
-/

namespace LebStudy

/-- `rbcp_read` after `rbcp_receive`: as `RBCP::read`, but the value is that of `rbcp_receive`
on every path. -/
def rbcpReadReceived (buf : Buffer) : Option (List UInt8) → ℤ × Buffer
  | none => (-1, buf)
  | some packet =>
    let rlen := packet.length
    let buf := buf.store packet
    if BcpHeader.size < rlen then (rlen, buf.moveDown BcpHeader.size (rlen - BcpHeader.size))
    else (rlen, buf)

/-- A call of one of the three read operations. -/
inductive ReadCall
  | read (buf : Buffer) (addr : UInt32) (len : ℤ)
  | hopread (buf : Buffer) (addr : UInt32) (len : ℤ) (destIp destPort : UInt32)
  | rbcpRead (buf : Buffer) (addr : UInt32) (len : ℤ)

/-- A positive value counts the bytes behind the header of the reply, and `buf` begins with
them. The reply is what `recvfrom` hands over of a datagram, at most 2048 bytes. -/
def PayloadOnly (size : ℕ) (reply : Option (List UInt8)) (result : ℤ × List UInt8) : Prop :=
  0 < result.1 → ∃ packet ∈ reply, result.1 = ((packet.take 2048).drop size).length ∧
    result.2 = (packet.take 2048).drop size

/-- No reply until the timeout, or one without bytes. -/
def NoBytes (reply : Option (List UInt8)) : Prop := ∀ packet ∈ reply, packet = []

/-- A reply with bytes behind its header. -/
def HasPayload (size : ℕ) (reply : Option (List UInt8)) : Prop :=
  ∃ packet ∈ reply, size < (packet.take 2048).length

namespace ReadCall

/-- The value that a call returns, and as many bytes of `buf`. -/
def received (reply : Option (List UInt8)) : ReadCall → ℤ × List UInt8
  | .read buf addr len => (RbcpCall.read buf addr len).received reply
  | .hopread buf addr len destIp destPort =>
    HopCall.received reply ⟨.read buf addr len, destIp, destPort⟩
  | .rbcpRead buf _ _ =>
    let (rlen, buf) := rbcpReadReceived buf (reply.map (List.take 2048))
    (rlen, buf.bytes rlen.toNat)

/-- The header that the operation moves the payload over. -/
def headerSize : ReadCall → ℕ
  | .read .. => BcpHeader.size
  | .hopread .. => EbcpHeader.size
  | .rbcpRead .. => BcpHeader.size

/-- `rlen = rlen - sizeof(struct rbcp_header)`, which `rbcp_read` does not have. -/
def TakesOffHeader : ReadCall → Prop
  | .read .. => True
  | .hopread .. => True
  | .rbcpRead .. => False

end ReadCall

section Result

variable {size : ℕ} {reply : Option (List UInt8)} {packet : List UInt8} {result : ℤ × List UInt8}

theorem payloadOnly_of_not_pos (h : ¬ 0 < result.1) : PayloadOnly size reply result :=
  fun hpos => absurd hpos h

theorem payloadOnly_some (hpos : 0 < result.1) : PayloadOnly size (some packet) result ↔
    result.1 = ((packet.take 2048).drop size).length ∧ result.2 = (packet.take 2048).drop size := by
  constructor
  · intro h
    obtain ⟨_, heq, hresult⟩ := h hpos
    cases heq
    exact hresult
  · exact fun hresult _ => ⟨packet, rfl, hresult⟩

theorem hasPayload_some : HasPayload size (some packet) ↔ size < (packet.take 2048).length := by
  simp [HasPayload]

theorem noBytes_some : NoBytes (some packet) ↔ packet = [] := by simp [NoBytes]

theorem noBytes_none : NoBytes none := by simp [NoBytes]

theorem take_length_pos (h : packet ≠ []) : 0 < (packet.take 2048).length := by
  simpa using List.length_pos_iff.mpr h

/-- A value that is not the number of bytes behind the header. -/
theorem not_payloadOnly (hpos : 0 < result.1)
    (hne : result.1 ≠ ((packet.take 2048).length - size : ℕ)) :
    ¬ PayloadOnly size (some packet) result := by
  intro h
  have hcount := ((payloadOnly_some hpos).mp h).1
  rw [List.length_drop] at hcount
  exact hne hcount

/-- `read` and `hopread` return the payload where there is one; else their value is the length of
the reply. -/
theorem receivedBehind_payloadOnly (size : ℕ) (buf : Buffer) (reply : Option (List UInt8)) :
    PayloadOnly size reply
      (let (rlen, buf) := RbcpCall.receivedBehind size buf (reply.map (List.take 2048))
       (rlen, buf.bytes rlen.toNat)) ↔ NoBytes reply ∨ HasPayload size reply := by
  cases reply with
  | none =>
    refine iff_of_true (payloadOnly_of_not_pos ?_) (.inl noBytes_none)
    exact Int.not_lt.mpr (by decide : (-1 : ℤ) ≤ 0)
  | some packet =>
    rw [Option.map_some, noBytes_some, hasPayload_some]
    by_cases hlt : size < (packet.take 2048).length
    · obtain ⟨buf', hreceived, hbytes⟩ := @RbcpCall.receivedBehind_of_lt size buf _ hlt
      refine iff_of_true ?_ (.inr hlt)
      rw [hreceived]
      refine (payloadOnly_some (by dsimp only; omega)).mpr ⟨?_, hbytes⟩
      rw [List.length_drop]
    · rw [RbcpCall.receivedBehind_of_le (Nat.le_of_not_lt hlt)]
      by_cases hnil : packet = []
      · subst hnil
        exact iff_of_true (payloadOnly_of_not_pos (by simp)) (.inl rfl)
      · have hpos := take_length_pos hnil
        refine iff_of_false (not_payloadOnly ?_ ?_) (not_or.mpr ⟨hnil, hlt⟩)
        · dsimp only
          omega
        · dsimp only
          omega

/-- `rbcp_read` counts the header with the payload. -/
theorem rbcpReadReceived_value (buf : Buffer) (packet : List UInt8) :
    (rbcpReadReceived buf (some packet)).1 = packet.length := by
  rw [rbcpReadReceived]
  by_cases hlt : BcpHeader.size < packet.length
  · rw [if_pos hlt]
  · rw [if_neg hlt]

theorem rbcpReadReceived_payloadOnly (buf : Buffer) (reply : Option (List UInt8)) :
    PayloadOnly BcpHeader.size reply
      (let (rlen, buf) := rbcpReadReceived buf (reply.map (List.take 2048))
       (rlen, buf.bytes rlen.toNat)) ↔ NoBytes reply := by
  have hsize : BcpHeader.size = 8 := rfl
  cases reply with
  | none =>
    refine iff_of_true (payloadOnly_of_not_pos ?_) noBytes_none
    exact Int.not_lt.mpr (by decide : (-1 : ℤ) ≤ 0)
  | some packet =>
    rw [Option.map_some, noBytes_some]
    have hvalue := rbcpReadReceived_value buf (packet.take 2048)
    by_cases hnil : packet = []
    · refine iff_of_true (payloadOnly_of_not_pos ?_) hnil
      simp only [hvalue]
      simp [hnil]
    · have hpos := take_length_pos hnil
      refine iff_of_false (not_payloadOnly ?_ ?_) hnil
      · simp only [hvalue]
        omega
      · simp only [hvalue]
        omega

end Result

/-- For every call, whatever `buf` holds, and every reply or timeout: what is returned is payload
only exactly if nothing has come, or the operation takes the header off and bytes follow it. -/
theorem ReadCall.payloadOnly_iff (c : ReadCall) (reply : Option (List UInt8)) :
    PayloadOnly c.headerSize reply (c.received reply) ↔
      NoBytes reply ∨ c.TakesOffHeader ∧ HasPayload c.headerSize reply := by
  cases c with
  | read buf addr len =>
    simp only [received, RbcpCall.received, RbcpCall.readReceived_eq, TakesOffHeader, true_and]
    exact receivedBehind_payloadOnly BcpHeader.size buf reply
  | hopread buf addr len destIp destPort =>
    simp only [TakesOffHeader, true_and]
    exact receivedBehind_payloadOnly EbcpHeader.size buf reply
  | rbcpRead buf addr len =>
    simp only [TakesOffHeader, false_and, or_false]
    exact rbcpReadReceived_payloadOnly buf reply

/-- A reply that is a header and no more: `read` returns 8. -/
theorem ReadCall.header_counted :
    ¬ ∀ (c : ReadCall) (reply : Option (List UInt8)),
      PayloadOnly c.headerSize reply (c.received reply) := by
  intro hall
  obtain ⟨packet, hpacket, hcount, -⟩ := hall (.read (fun _ => 0) 1 1)
    (some [0xff, 0xc1, 7, 1, 0, 0, 0, 1]) (by decide)
  obtain rfl := Option.some.inj hpacket
  revert hcount
  decide

end LebStudy
