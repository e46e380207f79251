import LebStudy.Rbcp.Relay

/-!
# Whether the relay keeps serving

A turn whose request brings its whole header, and whose target answers with a packet
that its own length field covers, reads nothing that an earlier turn has left behind,
so what it does is what a relay does that has just been started. The other turns end
the relay, or act on what is left in its buffers: a timeout on the request before it.
-/

namespace LebStudy

/-- The packet is of one of the two types that the relay knows. -/
def RelayInput.Typed (i : RelayInput) : Prop :=
  ∀ peer packet, i.packet = some (peer, packet) →
    packet.head? = some rbcpVer ∨ packet.head? = some rbcpTypeHop

/-- The target gets its datagram and replies with a header and at most as many bytes as this
says. -/
def RelayInput.Answered (i : RelayInput) : Prop :=
  i.sends = true ∧ ∃ reply, i.reply = some reply ∧ BcpHeader.size ≤ reply.length ∧
    reply.length ≤ BcpHeader.size + (reply.getD 3 0).toNat

/-- The type is the first byte that is stored. -/
theorem RelayInput.Typed.head?_eq {i : RelayInput} (h : i.Typed) {peer : SockAddr}
    {packet : List UInt8} (hpacket : i.packet = some (peer, packet)) (buf : Buffer) :
    packet.head? = some (buf.store packet 0) := by
  cases packet with
  | nil => simpa using h peer [] hpacket
  | cons type rest => rfl

namespace Relay

/-- The relay goes on, a timeout makes it do nothing, and what it does for a request it does
from its start as well. -/
def Serves (getaddrinfo : String → Option UInt32) (s : Relay) (i : RelayInput) : Prop :=
  (s.turn getaddrinfo i).1.returned = none ∧
    (i.packet = none → (s.turn getaddrinfo i).2 = []) ∧
    (i.packet ≠ none →
      ∀ peer, (s.turn getaddrinfo i).2 = ((start peer).turn getaddrinfo i).2)

/-- `rbcp.open` succeeds for the request in `buf`. -/
def Opens (getaddrinfo : String → Option UInt32) (buf : Buffer) (i : RelayInput) : Prop :=
  openHop getaddrinfo (ipUint2char (EbcpHeader.ofBuffer buf).destIp)
    (EbcpHeader.ofBuffer buf).destPort i.opens ≠ none

/-- No timeout finds a request in `buf`, every packet fits into `buf`, and a request to hop
brings its whole header and is answered if the target is opened. -/
def Independent (getaddrinfo : String → Option UInt32) (s : Relay) (i : RelayInput) : Prop :=
  (i.packet = none → s.buf 0 ≠ rbcpVer ∧ s.buf 0 ≠ rbcpTypeHop) ∧
    ∀ peer packet, i.packet = some (peer, packet) → packet.length ≤ bufSize ∧
      (packet.head? = some rbcpTypeHop → EbcpHeader.size ≤ packet.length ∧
        (Opens getaddrinfo (s.buf.store packet) i → i.Answered))

/-! ### Two relays that have received the same -/

section Agree

variable {getaddrinfo : String → Option UInt32} {s t : Relay} {i : RelayInput} {n : ℕ}
  {buf buf' rbuf rbuf' : Buffer} {hopIp hopPort : UInt32} {reply : List UInt8}

/-- The request to the target comes from the request of the client alone. -/
theorem unwrap_congr (h : ∀ k < n, buf k = buf' k) (hn : EbcpHeader.size ≤ n) {k : ℕ}
    (hk : BcpHeader.size + k < n) : unwrap buf k = unwrap buf' k := by
  have hsize : BcpHeader.size = 8 := rfl
  have hsize' : EbcpHeader.size = 16 := rfl
  have hlength := h 3 (by omega)
  by_cases hzero : k = 0
  · rw [hzero, unwrap_zero, unwrap_zero]
  by_cases hheader : k < BcpHeader.size
  · rw [unwrap_of_lt (by omega) hheader, unwrap_of_lt (by omega) hheader, h k (by omega)]
  obtain ⟨j, rfl⟩ := Nat.exists_eq_add_of_le (Nat.le_of_not_lt hheader)
  -- a body shorter than its field says is moved with what lies behind it, out of reach of `k`
  by_cases hmoved : j < (buf 3).toNat
  · rw [unwrap_add hmoved, unwrap_add (hlength ▸ hmoved), h _ (by omega)]
  · have hmoved' : ¬ j < (buf' 3).toNat := hlength ▸ hmoved
    rw [unwrap_of_le (by omega), unwrap_of_le (by omega), h _ (by omega)]

/-- The answer to the client comes from the reply of the target alone, if the length field
covers it. -/
theorem wrap_congr (h : ∀ k < BcpHeader.size + n, rbuf k = rbuf' k)
    (hn : n ≤ (rbuf 3).toNat) {k : ℕ} (hk : k < EbcpHeader.size + n) :
    wrap hopIp hopPort rbuf k = wrap hopIp hopPort rbuf' k := by
  have hsize : BcpHeader.size = 8 := rfl
  have hsize' : EbcpHeader.size = 16 := rfl
  have hlength := h 3 (by omega)
  by_cases hzero : k = 0
  · rw [hzero, wrap_zero, wrap_zero]
  by_cases hheader : k < BcpHeader.size
  · rw [wrap_of_lt (by omega) hheader, wrap_of_lt (by omega) hheader, h k (by omega)]
  obtain ⟨j, rfl⟩ := Nat.exists_eq_add_of_le (Nat.le_of_not_lt hheader)
  by_cases hip : j < 4
  · rw [wrap_ip hip, wrap_ip hip]
  obtain ⟨j, rfl⟩ := Nat.exists_eq_add_of_le (Nat.le_of_not_lt hip)
  rw [← Nat.add_assoc]
  by_cases hport : j < 4
  · rw [wrap_port hport, wrap_port hport]
  obtain ⟨j, rfl⟩ := Nat.exists_eq_add_of_le (Nat.le_of_not_lt hport)
  have hindex : BcpHeader.size + 4 + (4 + j) = EbcpHeader.size + j := by omega
  have hmoved : j < (rbuf 3).toNat := by omega
  rw [hindex, wrap_add hmoved, wrap_add (hlength ▸ hmoved), h _ (by omega)]

theorem answer_congr (hpeer : s.peer = t.peer) (hle : BcpHeader.size ≤ reply.length)
    (hlength : reply.length ≤ BcpHeader.size + (reply.getD 3 0).toNat) :
    (s.answer hopIp hopPort (some reply)).2 = (t.answer hopIp hopPort (some reply)).2 ∧
      (s.answer hopIp hopPort (some reply)).1.returned = s.returned := by
  have hsize : BcpHeader.size = 8 := rfl
  have hlt := (reply.getD 3 0).toNat_lt
  have htake : reply.take 2048 = reply := List.take_of_length_le (by omega)
  have hne : reply ≠ [] := by
    intro hnil
    rw [hnil, List.length_nil] at hle
    omega
  obtain ⟨n, hn⟩ := Nat.exists_eq_add_of_le hle
  have hfield : s.rbuf.store reply 3 = reply.getD 3 0 := by
    rw [Buffer.store_of_lt (by omega), List.getD_eq_getElem _ _ (by omega)]
  have hbytes : (wrap hopIp hopPort (s.rbuf.store reply)).bytes (reply.length + 8) =
      (wrap hopIp hopPort (t.rbuf.store reply)).bytes (reply.length + 8) := by
    apply Buffer.bytes_congr
    intro k hk
    refine @wrap_congr n _ _ _ _ (fun j hj => Buffer.store_congr (by omega)) ?_ k ?_
    · rw [hfield]
      omega
    · rw [EbcpHeader.size]
      omega
  rw [answer_some s hopIp hopPort hne, answer_some t hopIp hopPort hne, htake, hbytes, hpeer]
  exact ⟨rfl, rfl⟩

/-- The branch of a hop, on the same request. -/
theorem hop_congr (hbuf : ∀ k < n, s.buf k = t.buf k) (hn : EbcpHeader.size ≤ n)
    (hpeer : s.peer = t.peer) (hanswered : Opens getaddrinfo s.buf i → i.Answered) :
    (s.hop getaddrinfo n i).2 = (t.hop getaddrinfo n i).2 ∧
      (s.hop getaddrinfo n i).1.returned = s.returned := by
  have hsize : BcpHeader.size = 8 := rfl
  have hsize' : EbcpHeader.size = 16 := rfl
  have hheader : EbcpHeader.ofBuffer s.buf = EbcpHeader.ofBuffer t.buf :=
    EbcpHeader.ofBuffer_congr fun k hk => hbuf k (by omega)
  cases hopen : openHop getaddrinfo (ipUint2char (EbcpHeader.ofBuffer s.buf).destIp)
      (EbcpHeader.ofBuffer s.buf).destPort i.opens with
  | none =>
    rw [hop_unopened hopen, hop_unopened (hheader ▸ hopen), hheader]
    exact ⟨rfl, rfl⟩
  | some target =>
    have hopens : Opens getaddrinfo s.buf i := by
      rw [Opens, hopen]
      exact Option.some_ne_none target
    obtain ⟨hsends, reply, hreply, hle, hlength⟩ := hanswered hopens
    have hlen : (n : ℤ) - (EbcpHeader.size - BcpHeader.size : ℕ) = (n - 8 : ℕ) := by omega
    have hsent : sent ((n : ℤ) - (EbcpHeader.size - BcpHeader.size : ℕ)) i.sends =
        (n : ℤ) - (EbcpHeader.size - BcpHeader.size : ℕ) := by
      rw [hlen]
      exact if_pos ⟨Int.natCast_nonneg _, hsends⟩
    have hbytes : (unwrap s.buf).bytes (n - 8) = (unwrap t.buf).bytes (n - 8) := by
      apply Buffer.bytes_congr
      intro k hk
      exact unwrap_congr hbuf hn (by omega)
    obtain ⟨hevents, hreturned⟩ := @answer_congr { s with buf := unwrap s.buf }
      { t with buf := unwrap t.buf } (EbcpHeader.ofBuffer t.buf).destIp
      (EbcpHeader.ofBuffer t.buf).destPort reply hpeer hle hlength
    rw [hop_sent hopen hsent, hop_sent (hheader ▸ hopen) hsent, hheader, hlen, Int.toNat_natCast,
      hbytes, hreply, hevents]
    exact ⟨rfl, hreturned⟩

/-- The moves stay within the arrays: no length field is above 255. -/
theorem hop_in_bounds {ndata : ℤ} {k : ℕ} (hanswered : Opens getaddrinfo s.buf i → i.Answered)
    (hk : bufSize ≤ k) :
    (s.hop getaddrinfo ndata i).1.buf k = s.buf k ∧
      (s.hop getaddrinfo ndata i).1.rbuf k = s.rbuf k := by
  have hsize : BcpHeader.size = 8 := rfl
  have hsize' : EbcpHeader.size = 16 := rfl
  have hbound : bufSize = 272 := rfl
  have hfield := (s.buf 3).toNat_lt
  have hunwrap : unwrap s.buf k = s.buf k := unwrap_of_le (by omega)
  cases hopen : openHop getaddrinfo (ipUint2char (EbcpHeader.ofBuffer s.buf).destIp)
      (EbcpHeader.ofBuffer s.buf).destPort i.opens with
  | none =>
    rw [hop_unopened hopen]
    exact ⟨rfl, rfl⟩
  | some target =>
    have hopens : Opens getaddrinfo s.buf i := by
      rw [Opens, hopen]
      exact Option.some_ne_none target
    obtain ⟨-, reply, hreply, hle, hlength⟩ := hanswered hopens
    have hcount := (reply.getD 3 0).toNat_lt
    have hne : reply ≠ [] := List.ne_nil_of_length_pos (by omega)
    by_cases hsent : sent (ndata - (EbcpHeader.size - BcpHeader.size : ℕ)) i.sends =
        ndata - (EbcpHeader.size - BcpHeader.size : ℕ)
    · rw [hop_sent hopen hsent, hreply, answer_some _ _ _ hne,
        List.take_of_length_le (by omega)]
      have hrlength := (s.rbuf.store reply 3).toNat_lt
      refine ⟨hunwrap, ?_⟩
      show wrap _ _ (s.rbuf.store reply) k = s.rbuf k
      rw [wrap_of_le (by omega), Buffer.store_of_le (by omega)]
    · simp only [hop, hopen, ne_eq, hsent, not_false_eq_true, if_true]
      exact ⟨hunwrap, trivial⟩

end Agree

/-! ### A turn, and a run -/

section Run

variable {getaddrinfo : String → Option UInt32} {s : Relay} {i : RelayInput} {peer : SockAddr}

/-- A packet that fits is received whole. -/
theorem receive_of_le (s : Relay) (peer : SockAddr) {packet : List UInt8}
    (hfit : packet.length ≤ bufSize) :
    s.receive (some (peer, packet)) =
      ((packet.length : ℤ), { s with buf := s.buf.store packet, peer := peer }) := by
  have hsize : bufSize = 272 := rfl
  rw [receive_some, List.take_of_length_le (by omega)]

/-- What a turn does with a packet in any two relays. -/
theorem turn_congr {t : Relay} {packet : List UInt8} (hpacket : i.packet = some (peer, packet))
    (htyped : i.Typed) (h : s.Independent getaddrinfo i) :
    (s.turn getaddrinfo i).2 = (t.turn getaddrinfo i).2 ∧
      (s.turn getaddrinfo i).1.returned = s.returned := by
  obtain ⟨hfit, hindependent⟩ := h.2 peer _ hpacket
  have hs := receive_of_le s peer hfit
  have ht := receive_of_le t peer hfit
  rw [← hpacket] at hs ht
  cases htyped peer _ hpacket with
  | inl hver =>
    have htype (buf : Buffer) : buf.store packet 0 = rbcpVer :=
      Option.some_inj.mp ((htyped.head?_eq hpacket buf).symm.trans hver)
    rw [turn_ver hs (htype s.buf), turn_ver ht (htype t.buf)]
    refine ⟨?_, rfl⟩
    rw [Int.toNat_natCast, Buffer.bytes_store (Nat.le_refl _), Buffer.bytes_store (Nat.le_refl _)]
  | inr hhop =>
    have htype (buf : Buffer) : buf.store packet 0 = rbcpTypeHop :=
      Option.some_inj.mp ((htyped.head?_eq hpacket buf).symm.trans hhop)
    obtain ⟨hlen, hanswered⟩ := hindependent hhop
    rw [turn_hop hs (htype s.buf), turn_hop ht (htype t.buf)]
    exact hop_congr (fun k hk => Buffer.store_congr hk) hlen rfl hanswered

/-- Under the condition nothing is written behind the arrays. -/
theorem turn_in_bounds (htyped : i.Typed) (h : s.Independent getaddrinfo i) {k : ℕ}
    (hk : bufSize ≤ k) :
    (s.turn getaddrinfo i).1.buf k = s.buf k ∧ (s.turn getaddrinfo i).1.rbuf k = s.rbuf k := by
  cases hpacket : i.packet with
  | none =>
    obtain ⟨hver, hhop⟩ := h.1 hpacket
    have hreceive : s.receive i.packet = (-1, s) := by rw [hpacket, receive]
    rw [@turn_other getaddrinfo s s i (-1) hreceive hver hhop]
    exact ⟨rfl, rfl⟩
  | some received =>
    obtain ⟨peer, packet⟩ := received
    obtain ⟨hfit, hindependent⟩ := h.2 peer packet hpacket
    have hreceive := receive_of_le s peer hfit
    have hstore : s.buf.store packet k = s.buf k := Buffer.store_of_le (Nat.le_trans hfit hk)
    have hzero := htyped.head?_eq hpacket s.buf
    rw [← hpacket] at hreceive
    cases htyped peer packet hpacket with
    | inl hver =>
      have htype : s.buf.store packet 0 = rbcpVer := Option.some_inj.mp (hzero.symm.trans hver)
      rw [turn_ver hreceive htype]
      exact ⟨hstore, rfl⟩
    | inr hhop =>
      have htype : s.buf.store packet 0 = rbcpTypeHop :=
        Option.some_inj.mp (hzero.symm.trans hhop)
      rw [turn_hop hreceive htype]
      obtain ⟨hbuf, hrbuf⟩ := @hop_in_bounds getaddrinfo
        { s with buf := s.buf.store packet, peer := peer } i packet.length k (hindependent hhop).2 hk
      exact ⟨hbuf.trans hstore, hrbuf⟩

/-- What one turn does under the condition. -/
theorem serves_of_independent (hs : s.returned = none) (htyped : i.Typed)
    (h : s.Independent getaddrinfo i) : s.Serves getaddrinfo i := by
  cases hpacket : i.packet with
  | none =>
    obtain ⟨hver, hhop⟩ := h.1 hpacket
    have hreceive : s.receive i.packet = (-1, s) := by rw [hpacket, receive]
    have hturn := @turn_other getaddrinfo s s i (-1) hreceive hver hhop
    refine ⟨?_, ?_, fun hne => absurd hpacket hne⟩
    · rw [hturn]
      exact hs
    · intro _
      rw [hturn]
  | some packet =>
    obtain ⟨peer, packet⟩ := packet
    refine ⟨?_, fun hnone => ?_, fun _ peer' => ?_⟩
    · rw [(turn_congr (t := s) hpacket htyped h).2]
      exact hs
    · cases hpacket.symm.trans hnone
    · exact (turn_congr hpacket htyped h).1

theorem step_returned {t : Relay} (hs : s.returned = none) (htyped : i.Typed)
    (h : s.Independent getaddrinfo i) (hstep : step getaddrinfo s i = some t) :
    t.returned = none := by
  rw [step, if_pos hs] at hstep
  cases hstep
  exact (serves_of_independent hs htyped h).1

/-- For every sequence of packets of the two types, timeouts and failures: as long as no timeout
finds a request in the buffer, every packet fits into it, and every hop brings its whole header
and is answered, the relay keeps serving and treats every request like its first. -/
theorem serves_run (peer : SockAddr) (is : List RelayInput) (htyped : ∀ i ∈ is, i.Typed)
    (h : Transition.Meets (step getaddrinfo) (Independent getaddrinfo) (start peer) is) :
    Transition.Meets (step getaddrinfo) (Serves getaddrinfo) (start peer) is := by
  have hboth : Transition.Meets (step getaddrinfo)
      (fun s i => i.Typed ∧ s.Independent getaddrinfo i) (start peer) is :=
    Transition.meets_and.mpr ⟨Transition.meets_of_forall fun i hi _ => htyped i hi, h⟩
  rw [Transition.meets_iff_forall_split]
  rintro pre i post rfl s hrun
  -- the turns before `i` have kept the relay in its loop
  obtain ⟨hpre, hpost⟩ := Transition.meets_append.mp hboth
  obtain ⟨htype, hindependent⟩ := (hpost s hrun).1
  have hreturned : s.returned = none :=
    Transition.run_invariant_of_meets (I := fun s => s.returned = none) rfl
      (fun t j u ht hj hstep => step_returned ht hj.1 hj.2 hstep) hrun hpre
  exact serves_of_independent hreturned htype hindependent

end Run

/-- A read of one register by way of the relay, from a target at 127.0.0.1. -/
def hopOne (reply : Option (List UInt8)) : RelayInput where
  packet := some (⟨0, 0⟩, [0xf1, 0xc0, 0, 1, 0, 0, 0, 16, 127, 0, 0, 1, 0, 0, 0x12, 0x34])
  opens := true
  sends := true
  reply := reply

/-- A target that does not answer ends the relay. -/
theorem unanswered_returns :
    ¬ ∀ (getaddrinfo : String → Option UInt32) (peer : SockAddr) (is : List RelayInput),
      (∀ i ∈ is, i.Typed) →
        Transition.Meets (step getaddrinfo) (Serves getaddrinfo) (start peer) is := by
  intro h
  have htyped : (hopOne none).Typed := by
    intro peer packet hpacket
    cases hpacket
    exact .inr rfl
  have hserves := h localhost ⟨0, 0⟩ [hopOne none] (by simpa using htyped)
  exact absurd hserves.1.1 (by decide)

/-- The reply to it. -/
def replyOne : List UInt8 := [0xff, 0xc0, 0, 1, 0, 0, 0, 16, 0xaa]

theorem serves_two_reads :
    Transition.Meets (step localhost) (Serves localhost) (start ⟨0, 0⟩)
      [hopOne (some replyOne), hopOne (some replyOne)] := by
  have htyped : (hopOne (some replyOne)).Typed := by
    intro peer packet hpacket
    cases hpacket
    exact .inr rfl
  have hindependent : ∀ s, Independent localhost s (hopOne (some replyOne)) := by
    refine fun s => ⟨fun hnone => absurd hnone (Option.some_ne_none _), ?_⟩
    intro peer packet hpacket
    cases hpacket
    refine ⟨by decide, fun _ => ⟨by decide, fun _ => ?_⟩⟩
    exact ⟨rfl, replyOne, rfl, by decide, by decide⟩
  refine serves_run ⟨0, 0⟩ _ (by simpa using htyped) ⟨hindependent _, fun t _ => ?_⟩
  exact ⟨hindependent t, fun _ _ => trivial⟩

end Relay

end LebStudy
