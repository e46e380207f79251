import LebStudy.Rbcp.Serving

/-!
# Which bytes the relay touches

The arrays of `relay` have 272 bytes, and what is received there may have 2048. The
length fields do no harm: they are bytes, and the moves that they bound stay within the
arrays. So the arrays are overrun exactly by packets of clients above 272 bytes and by
replies of targets above 264, which grow by the eight bytes of the target's address.
-/

namespace LebStudy

namespace Relay

inductive RelayArray
  | buf
  | rbuf
  deriving DecidableEq, Repr

def array (s : Relay) : RelayArray → Buffer
  | .buf => s.buf
  | .rbuf => s.rbuf

/-- A byte that is read or written. -/
abbrev Touch := RelayArray × ℕ

/-! ### The touches of a turn -/

/-- So many bytes from an offset on. -/
def span (a : RelayArray) (offset n : ℕ) : List Touch :=
  (List.range n).map fun k => (a, offset + k)

/-- `hexdump`; a negative length prints nothing. -/
def hexdump (a : RelayArray) (len : ℤ) : List Touch := span a 0 len.toNat

/-- `structdump` -/
def structdump (a : RelayArray) (data : Buffer) (len : ℤ) : List Touch :=
  span a 0 BcpHeader.size ++
    if data 0 ≠ rbcpVer then
      span a BcpHeader.size 8 ++ span a EbcpHeader.size (len - EbcpHeader.size).toNat
    else span a BcpHeader.size (len - BcpHeader.size).toNat

/-- `for (int i = 0 ; i < n ; i++) a[dst + i] = a[src + i]`, where `n` is the byte 3 of the
array and read at each turn. -/
def moveForward (a : RelayArray) (dst src n : ℕ) : List Touch :=
  (List.range n).flatMap (fun i => [(a, 3), (a, src + i), (a, dst + i)]) ++ [(a, 3)]

/-- The same from the last byte on, with an `n` that is read before. -/
def moveBackward (a : RelayArray) (dst src n : ℕ) : List Touch :=
  (List.range n).flatMap fun i => [(a, src + (n - i - 1)), (a, dst + (n - i - 1))]

/-- What follows `rbcp.receive(rbuf)`, with this call. -/
def answerTouches (s : Relay) (hopIp hopPort : UInt32) : Option (List UInt8) → List Touch
  | none => []
  | some reply =>
    let rbuf := s.rbuf.store (reply.take 2048)
    let rlen := (reply.take 2048).length
    let elen := rlen + (EbcpHeader.size - BcpHeader.size)
    span .rbuf 0 rlen ++
      if rlen = 0 then []
      else
        hexdump .rbuf rlen ++
          ((.rbuf, 3) :: moveBackward .rbuf EbcpHeader.size BcpHeader.size (rbuf 3).toNat) ++
          span .rbuf BcpHeader.size 8 ++ [(.rbuf, 0)] ++ hexdump .rbuf elen ++
          structdump .rbuf (wrap hopIp hopPort rbuf) elen ++ span .rbuf 0 elen

/-- The branch of `RBCP_TYPE_HOP`. -/
def hopTouches (getaddrinfo : String → Option UInt32) (s : Relay) (ndata : ℤ) (i : RelayInput) :
    List Touch :=
  let h := EbcpHeader.ofBuffer s.buf
  span .buf BcpHeader.size 8 ++ hexdump .buf ndata ++
    match openHop getaddrinfo (ipUint2char h.destIp) h.destPort i.opens with
    | none => []
    | some _ =>
      let len := ndata - (EbcpHeader.size - BcpHeader.size : ℕ)
      (.buf, 0) :: moveForward .buf BcpHeader.size EbcpHeader.size (s.buf 3).toNat ++
        hexdump .buf len ++ span .buf 0 len.toNat ++
        if sent len i.sends ≠ len then [] else s.answerTouches h.destIp h.destPort i.reply

/-- All that a turn touches, `serv.receive(buf)` first. -/
def touches (getaddrinfo : String → Option UInt32) (s : Relay) (i : RelayInput) : List Touch :=
  let (ndata, t) := s.receive i.packet
  span .buf 0 ndata.toNat ++ [(.buf, 0)] ++
    if t.buf 0 = rbcpVer then span .buf 0 ndata.toNat
    else if t.buf 0 = rbcpTypeHop then t.hopTouches getaddrinfo ndata i
    else []

/-- The touches lie inside the arrays. -/
def Within (l : List Touch) : Prop := ∀ x ∈ l, x.2 < bufSize

/-- The turn reads a reply of a target: it is one for a hop, the target is opened, and what
`rbcp.send` returns is the length of the request. -/
def AwaitsReply (getaddrinfo : String → Option UInt32) (s : Relay) (i : RelayInput) : Prop :=
  let (ndata, t) := s.receive i.packet
  t.buf 0 = rbcpTypeHop ∧ Opens getaddrinfo t.buf i ∧
    sent (ndata - (EbcpHeader.size - BcpHeader.size : ℕ)) i.sends =
      ndata - (EbcpHeader.size - BcpHeader.size : ℕ)

/-- The packet has at most 272 bytes, and a reply that is awaited has at most 264. -/
def Fits (getaddrinfo : String → Option UInt32) (s : Relay) (i : RelayInput) : Prop :=
  (∀ peer packet, i.packet = some (peer, packet) → packet.length ≤ bufSize) ∧
    (s.AwaitsReply getaddrinfo i → ∀ reply, i.reply = some reply →
      reply.length + (EbcpHeader.size - BcpHeader.size) ≤ bufSize)

/-! ### Inside the arrays -/

section Within

variable {a : RelayArray} {k l : List Touch} {x : Touch} {n : ℕ}

theorem within_nil : Within [] := fun _ h => absurd h List.not_mem_nil

theorem within_cons : Within (x :: l) ↔ x.2 < bufSize ∧ Within l := List.forall_mem_cons

theorem within_append : Within (k ++ l) ↔ Within k ∧ Within l := List.forall_mem_append

theorem within_span (a : RelayArray) (offset n : ℕ) :
    Within (span a offset n) ↔ n = 0 ∨ offset + n ≤ bufSize := by
  rw [Within, span, List.forall_mem_map]
  constructor
  · intro h
    by_cases hzero : n = 0
    · exact .inl hzero
    · have hlast := h (n - 1) (List.mem_range.mpr (by omega))
      exact .inr (by omega)
  · intro h j hj
    have hlt := List.mem_range.mp hj
    show offset + j < bufSize
    omega

theorem within_moveForward {dst src : ℕ} (hdst : dst + n ≤ bufSize) (hsrc : src + n ≤ bufSize) :
    Within (moveForward a dst src n) := by
  have hthree : 3 < bufSize := by decide
  refine within_append.mpr ⟨fun x hx => ?_, within_cons.mpr ⟨hthree, within_nil⟩⟩
  obtain ⟨i, hi, hx⟩ := List.mem_flatMap.mp hx
  have hlt := List.mem_range.mp hi
  simp only [List.mem_cons, List.not_mem_nil, or_false] at hx
  rcases hx with rfl | rfl | rfl
  · exact hthree
  · show src + i < bufSize
    omega
  · show dst + i < bufSize
    omega

theorem within_moveBackward {dst src : ℕ} (hdst : dst + n ≤ bufSize) (hsrc : src + n ≤ bufSize) :
    Within (moveBackward a dst src n) := by
  intro x hx
  obtain ⟨i, hi, hx⟩ := List.mem_flatMap.mp hx
  have hlt := List.mem_range.mp hi
  simp only [List.mem_cons, List.not_mem_nil, or_false] at hx
  rcases hx with rfl | rfl
  · show src + (n - i - 1) < bufSize
    omega
  · show dst + (n - i - 1) < bufSize
    omega

theorem within_structdump (data : Buffer) {len : ℤ} (h : len ≤ bufSize) :
    Within (structdump a data len) := by
  have hbound : bufSize = 272 := rfl
  have hsize : BcpHeader.size = 8 := rfl
  have hsize' : EbcpHeader.size = 16 := rfl
  rw [structdump, within_append, within_span]
  refine ⟨.inr (by omega), ?_⟩
  split
  · rw [within_append, within_span, within_span]
    omega
  · rw [within_span]
    omega

theorem within_hexdump (a : RelayArray) {len : ℤ} : Within (hexdump a len) ↔ len ≤ bufSize := by
  rw [hexdump, within_span]
  omega

end Within

section Turn

variable {getaddrinfo : String → Option UInt32} {s : Relay} {i : RelayInput} {ndata : ℤ}
  {hopIp hopPort : UInt32}

/-- The answer is what grows out of the array. -/
theorem within_answerTouches (s : Relay) (hopIp hopPort : UInt32) (reply : Option (List UInt8)) :
    Within (s.answerTouches hopIp hopPort reply) ↔ ∀ bytes, reply = some bytes →
      bytes.length + (EbcpHeader.size - BcpHeader.size) ≤ bufSize := by
  have hbound : bufSize = 272 := rfl
  have hsize : BcpHeader.size = 8 := rfl
  have hsize' : EbcpHeader.size = 16 := rfl
  cases reply with
  | none => exact iff_of_true within_nil fun _ h => nomatch h
  | some bytes =>
    have hlen : (bytes.take 2048).length = min 2048 bytes.length := List.length_take
    simp only [Option.some.injEq, forall_eq']
    rw [answerTouches, within_append, within_span, hlen]
    by_cases hzero : bytes.length = 0
    · rw [if_pos (by omega)]
      exact iff_of_true ⟨.inl (by omega), within_nil⟩ (by omega)
    · have hfield := ((s.rbuf.store (bytes.take 2048)) 3).toNat_lt
      rw [if_neg (by omega)]
      simp only [within_append, within_cons, within_span, within_hexdump]
      constructor
      · rintro ⟨-, -, hserve⟩
        omega
      · intro hfit
        refine ⟨.inr (by omega), ⟨⟨⟨⟨⟨by omega, by omega, ?_⟩, .inr (by omega)⟩, by omega,
          within_nil⟩, by omega⟩, within_structdump _ (by omega)⟩, .inr (by omega)⟩
        exact within_moveBackward (by omega) (by omega)

/-- The request shrinks, so it stays inside the array if it has been received inside. -/
theorem within_hopTouches (getaddrinfo : String → Option UInt32) (s : Relay) (ndata : ℤ)
    (i : RelayInput) :
    Within (s.hopTouches getaddrinfo ndata i) ↔ ndata ≤ bufSize ∧
      (Opens getaddrinfo s.buf i → sent (ndata - (EbcpHeader.size - BcpHeader.size : ℕ)) i.sends =
          ndata - (EbcpHeader.size - BcpHeader.size : ℕ) →
        ∀ reply, i.reply = some reply →
          reply.length + (EbcpHeader.size - BcpHeader.size) ≤ bufSize) := by
  have hbound : bufSize = 272 := rfl
  have hsize : BcpHeader.size = 8 := rfl
  have hsize' : EbcpHeader.size = 16 := rfl
  have hfield := (s.buf 3).toNat_lt
  rw [hopTouches, within_append, within_append, within_span, within_hexdump, Opens]
  cases openHop getaddrinfo (ipUint2char (EbcpHeader.ofBuffer s.buf).destIp)
      (EbcpHeader.ofBuffer s.buf).destPort i.opens with
  | none =>
    constructor
    · rintro ⟨⟨-, hdump⟩, -⟩
      exact ⟨hdump, fun hopens => absurd rfl hopens⟩
    · rintro ⟨hdump, -⟩
      exact ⟨⟨.inr (by omega), hdump⟩, within_nil⟩
  | some target =>
    simp only [List.cons_append, within_cons, within_append, within_hexdump, within_span]
    by_cases hsent : sent (ndata - (EbcpHeader.size - BcpHeader.size : ℕ)) i.sends =
        ndata - (EbcpHeader.size - BcpHeader.size : ℕ)
    · rw [if_neg (not_not.mpr hsent), within_answerTouches]
      constructor
      · rintro ⟨⟨-, hdump⟩, -, -, hanswer⟩
        exact ⟨hdump, fun _ _ => hanswer⟩
      · rintro ⟨hdump, hanswer⟩
        refine ⟨⟨.inr (by omega), hdump⟩, by omega, ⟨⟨?_, by omega⟩, by omega⟩,
          hanswer (Option.some_ne_none target) hsent⟩
        exact within_moveForward (by omega) (by omega)
    · rw [if_pos hsent]
      constructor
      · rintro ⟨⟨-, hdump⟩, -⟩
        exact ⟨hdump, fun _ h => absurd h hsent⟩
      · rintro ⟨hdump, -⟩
        refine ⟨⟨.inr (by omega), hdump⟩, by omega, ⟨⟨?_, by omega⟩, by omega⟩, within_nil⟩
        exact within_moveForward (by omega) (by omega)

theorem receive_le_iff (s : Relay) (packet : Option (SockAddr × List UInt8)) :
    (s.receive packet).1 ≤ bufSize ↔
      ∀ peer bytes, packet = some (peer, bytes) → bytes.length ≤ bufSize := by
  have hbound : bufSize = 272 := rfl
  cases packet with
  | none =>
    refine iff_of_true ?_ fun _ _ h => nomatch h
    rw [receive]
    omega
  | some received =>
    obtain ⟨peer, bytes⟩ := received
    have hlen : (bytes.take 2048).length = min 2048 bytes.length := List.length_take
    rw [receive_some, hlen]
    constructor
    · rintro hle _ _ ⟨⟩
      omega
    · intro h
      have hle := h peer bytes rfl
      omega

/-- A turn stays inside the arrays exactly if what it receives fits. -/
theorem within_touches_iff (getaddrinfo : String → Option UInt32) (s : Relay) (i : RelayInput) :
    Within (s.touches getaddrinfo i) ↔ s.Fits getaddrinfo i := by
  have hbound : bufSize = 272 := rfl
  rw [touches, Fits, ← receive_le_iff s, AwaitsReply]
  generalize s.receive i.packet = received
  obtain ⟨ndata, t⟩ := received
  simp only [within_append, within_span, within_cons]
  by_cases hver : t.buf 0 = rbcpVer
  · have hhop : t.buf 0 ≠ rbcpTypeHop := by
      rw [hver]
      decide
    rw [if_pos hver, within_span]
    constructor
    · rintro ⟨⟨hreceive, -⟩, -⟩
      exact ⟨by omega, fun h => absurd h.1 hhop⟩
    · rintro ⟨hreceive, -⟩
      exact ⟨⟨by omega, by omega, within_nil⟩, by omega⟩
  · rw [if_neg hver]
    by_cases hhop : t.buf 0 = rbcpTypeHop
    · rw [if_pos hhop, within_hopTouches]
      constructor
      · rintro ⟨-, hreceive, hreply⟩
        exact ⟨hreceive, fun h => hreply h.2.1 h.2.2⟩
      · rintro ⟨hreceive, hreply⟩
        exact ⟨⟨by omega, by omega, within_nil⟩, hreceive, fun hopens hsent =>
          hreply ⟨hhop, hopens, hsent⟩⟩
    · rw [if_neg hhop]
      constructor
      · rintro ⟨⟨hreceive, -⟩, -⟩
        exact ⟨by omega, fun h => absurd h.1 hhop⟩
      · rintro ⟨hreceive, -⟩
        exact ⟨⟨by omega, by omega, within_nil⟩, within_nil⟩

end Turn

/-! ### What is not touched -/

section Frame

variable {getaddrinfo : String → Option UInt32} {s : Relay} {i : RelayInput} {ndata : ℤ}
  {hopIp hopPort : UInt32} {buf : Buffer} {k : ℕ}

theorem mem_span {a : RelayArray} {offset n : ℕ} :
    (a, k) ∈ span a offset n ↔ offset ≤ k ∧ k < offset + n := by
  rw [span, List.mem_map]
  constructor
  · rintro ⟨j, hj, heq⟩
    cases heq
    have hlt := List.mem_range.mp hj
    omega
  · rintro ⟨hle, hlt⟩
    exact ⟨k - offset, List.mem_range.mpr (by omega), by rw [Nat.add_sub_cancel' hle]⟩

theorem mem_moveForward {a : RelayArray} {dst src n : ℕ} (h : dst ≤ k ∧ k < dst + n) :
    (a, k) ∈ moveForward a dst src n := by
  refine List.mem_append_left _ (List.mem_flatMap.mpr ⟨k - dst, List.mem_range.mpr (by omega), ?_⟩)
  rw [Nat.add_sub_cancel' h.1]
  exact List.mem_cons_of_mem _ (List.mem_cons_of_mem _ List.mem_cons_self)

theorem mem_moveBackward {a : RelayArray} {dst src n : ℕ} (h : dst ≤ k ∧ k < dst + n) :
    (a, k) ∈ moveBackward a dst src n := by
  have hindex : dst + (n - (n - 1 - (k - dst)) - 1) = k := by omega
  refine List.mem_flatMap.mpr ⟨n - 1 - (k - dst), List.mem_range.mpr (by omega), ?_⟩
  rw [hindex]
  exact List.mem_cons_of_mem _ List.mem_cons_self

/-- The request is made in its own bytes. -/
theorem unwrap_frame (hzero : k ≠ 0)
    (h : ¬ (BcpHeader.size ≤ k ∧ k < BcpHeader.size + (buf 3).toNat)) :
    unwrap buf k = buf k := by
  by_cases hlt : k < BcpHeader.size
  · exact unwrap_of_lt (by omega) hlt
  · exact unwrap_of_le (by omega)

/-- So is the answer. -/
theorem wrap_frame (hzero : k ≠ 0) (hdest : ¬ (BcpHeader.size ≤ k ∧ k < BcpHeader.size + 8))
    (h : ¬ (EbcpHeader.size ≤ k ∧ k < EbcpHeader.size + (buf 3).toNat)) :
    wrap hopIp hopPort buf k = buf k := by
  have hsize : EbcpHeader.size = BcpHeader.size + 8 := rfl
  by_cases hlt : k < BcpHeader.size
  · exact wrap_of_lt (by omega) hlt
  · exact wrap_of_le (by omega)

theorem answer_frame (reply : Option (List UInt8))
    (h : (RelayArray.rbuf, k) ∉ s.answerTouches hopIp hopPort reply) :
    (s.answer hopIp hopPort reply).1.rbuf k = s.rbuf k := by
  cases reply with
  | none => rfl
  | some bytes =>
    rw [answerTouches, List.mem_append, not_or, mem_span] at h
    obtain ⟨hreceive, h⟩ := h
    have hstore : s.rbuf.store (bytes.take 2048) k = s.rbuf k := Buffer.store_of_le (by omega)
    by_cases hzero : (bytes.take 2048).length = 0
    · simp only [answer, if_pos hzero]
      exact hstore
    · rw [if_neg hzero] at h
      simp only [List.mem_append, List.mem_cons, not_or, mem_span] at h
      simp only [answer, if_neg hzero]
      obtain ⟨⟨⟨⟨⟨⟨-, -, hmove⟩, hdest⟩, htype, -⟩, -⟩, -⟩, -⟩ := h
      have hk : k ≠ 0 := fun hk => htype (by rw [hk])
      rw [wrap_frame hk (fun h => hdest (by omega)) fun h => hmove (mem_moveBackward h)]
      exact hstore

theorem answer_buf (s : Relay) (reply : Option (List UInt8)) :
    (s.answer hopIp hopPort reply).1.buf = s.buf := by
  cases reply with
  | none => rfl
  | some bytes =>
    rw [answer]
    split <;> rfl

theorem hop_frame {a : RelayArray} (h : (a, k) ∉ s.hopTouches getaddrinfo ndata i) :
    (s.hop getaddrinfo ndata i).1.array a k = s.array a k := by
  rw [hopTouches, List.mem_append, not_or] at h
  obtain ⟨-, h⟩ := h
  cases hopen : openHop getaddrinfo (ipUint2char (EbcpHeader.ofBuffer s.buf).destIp)
      (EbcpHeader.ofBuffer s.buf).destPort i.opens with
  | none => rw [hop_unopened hopen]
  | some target =>
    simp only [hopen, List.cons_append, List.mem_cons, List.mem_append, not_or] at h
    obtain ⟨htype, ⟨⟨hmove, -⟩, -⟩, hanswer⟩ := h
    by_cases hsent : sent (ndata - (EbcpHeader.size - BcpHeader.size : ℕ)) i.sends =
        ndata - (EbcpHeader.size - BcpHeader.size : ℕ)
    · rw [hop_sent hopen hsent]
      rw [if_neg (not_not.mpr hsent)] at hanswer
      cases a with
      | buf =>
        have hk : k ≠ 0 := fun hk => htype (by rw [hk])
        exact (congrFun (answer_buf _ _) k).trans
          (unwrap_frame hk fun h => hmove (mem_moveForward h))
      | rbuf => exact answer_frame (s := { s with buf := unwrap s.buf }) i.reply hanswer
    · simp only [hop, hopen, ne_eq, hsent, not_false_eq_true, if_true]
      cases a with
      | buf =>
        have hk : k ≠ 0 := fun hk => htype (by rw [hk])
        exact unwrap_frame hk fun h => hmove (mem_moveForward h)
      | rbuf => rfl

theorem receive_frame {a : RelayArray}
    (h : (a, k) ∉ span .buf 0 (s.receive i.packet).1.toNat) :
    (s.receive i.packet).2.array a k = s.array a k := by
  cases hpacket : i.packet with
  | none => rfl
  | some received =>
    cases a with
    | buf =>
      rw [hpacket, receive_some, Int.toNat_natCast, mem_span] at h
      exact Buffer.store_of_le (by omega)
    | rbuf => rfl

/-- A byte that a turn does not touch stays as it is. -/
theorem turn_frame {a : RelayArray} (h : (a, k) ∉ s.touches getaddrinfo i) :
    (s.turn getaddrinfo i).1.array a k = s.array a k := by
  rw [touches, List.mem_append, List.mem_append, not_or, not_or] at h
  obtain ⟨⟨hreceive, -⟩, h⟩ := h
  rw [← receive_frame hreceive]
  cases hreceived : s.receive i.packet with
  | mk ndata t =>
    rw [hreceived] at h
    by_cases hver : t.buf 0 = rbcpVer
    · rw [turn_ver hreceived hver]
    · by_cases hhop : t.buf 0 = rbcpTypeHop
      · rw [if_neg hver, if_pos hhop] at h
        rw [turn_hop hreceived hhop]
        exact hop_frame h
      · rw [turn_other hreceived hver hhop]

end Frame

/-! ### A run -/

/-- The relay stays inside its arrays exactly as long as what it receives fits: for every run
of turns, whatever has been left in the arrays before. A turn changes no byte but those that it
touches. -/
theorem within_run_iff (getaddrinfo : String → Option UInt32) (s : Relay) (is : List RelayInput) :
    (Transition.Meets (step getaddrinfo) (fun s i => Within (s.touches getaddrinfo i)) s is ↔
      Transition.Meets (step getaddrinfo) (Fits getaddrinfo) s is) ∧
    ∀ (t : Relay) (i : RelayInput) (a : RelayArray) (k : ℕ), (a, k) ∉ t.touches getaddrinfo i →
      (t.turn getaddrinfo i).1.array a k = t.array a k :=
  ⟨Transition.meets_congr fun _ t i _ => within_touches_iff getaddrinfo t i,
    fun _ _ _ _ => turn_frame⟩

/-- A packet of 273 bytes. -/
theorem packet_overruns :
    ¬ ∀ (getaddrinfo : String → Option UInt32) (peer : SockAddr) (is : List RelayInput),
      Transition.Meets (step getaddrinfo) (fun s i => Within (s.touches getaddrinfo i))
        (start peer) is := by
  intro h
  have hmeets := h localhost ⟨0, 0⟩ [⟨some (⟨0, 0⟩, List.replicate 273 0), true, true, none⟩]
  have hfits := (within_touches_iff _ _ _).mp (Transition.meets_cons.mp hmeets).1
  have hle := hfits.1 _ _ rfl
  rw [List.length_replicate] at hle
  exact absurd hle (by decide)

end Relay

end LebStudy
