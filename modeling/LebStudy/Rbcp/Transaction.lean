import LebStudy.Lib.Transition
import LebStudy.Rbcp.Client
import LebStudy.Rbcp.TestServer

/-!
# Whose reply answers a call

One client with an open socket, the server, and the network between them, which
loses, repeats, delays and reorders the packets of both directions as it likes. A
reply that comes when its call does not wait for it any more stays in the socket,
and the next call takes it: the header echoes the `id` of the request, but nothing
compares it.
-/

namespace LebStudy

/-- A packet. `origin` is history: the value of `m_sequence` at the call whose request it is, or
whose request it answers. -/
structure Packet where
  origin : ℕ
  bytes : List UInt8
  deriving DecidableEq, Repr

/-- A call that has returned; `reply` is history: the packet that its `receive` has taken. -/
structure RbcpReturn where
  number : ℕ
  call : RbcpCall
  reply : Option Packet
  value : ℤ
  data : List UInt8

/-- What a call returns after `receive`. -/
def RbcpCall.returned (c : RbcpCall) (number : ℕ) (reply : Option Packet) : RbcpReturn :=
  let (value, data) := c.received (reply.map Packet.bytes)
  ⟨number, c, reply, value, data⟩

/-- A call that returns a positive value has been answered by the reply to its own request, with
its `id` and its address, and what a `read` returns is what this reply carries. -/
def RbcpReturn.Own (r : RbcpReturn) : Prop :=
  0 < r.value → ∃ d, r.reply = some d ∧ d.origin = r.number ∧
    d.bytes.take BcpHeader.size = (r.call.header r.number).bytes ∧
    (r.call.IsRead → BcpHeader.size < d.bytes.length → r.data = d.bytes.drop BcpHeader.size)

/-- The client, the network and the server. `waiting` is the call in `receive` with its number,
`socket` what `receive` finds; `calls` and `returned` are history. -/
structure Link where
  mSequence : ℕ
  waiting : Option (ℕ × RbcpCall)
  requests : List Packet
  server : TestServer
  replies : List Packet
  socket : List Packet
  calls : List RbcpCall
  returned : List RbcpReturn

inductive LinkAction
  | call (c : RbcpCall)
  | loseRequest (d : Packet)
  | repeatRequest (d : Packet)
  /-- A request gets to the server, which answers it. -/
  | serve (d : Packet)
  | loseReply (d : Packet)
  | repeatReply (d : Packet)
  /-- A reply gets to the socket of the client. -/
  | deliver (d : Packet)
  /-- `recvfrom` returns the first packet of the socket. -/
  | receive
  /-- `recvfrom` returns -1, at the timeout or otherwise. -/
  | fail

namespace Link

def start (server : TestServer) : Link := ⟨0, none, [], server, [], [], [], []⟩

/-- The call returns after `receive`. -/
def finish (s : Link) (number : ℕ) (c : RbcpCall) (reply : Option Packet) : Link :=
  { s with waiting := none, returned := s.returned ++ [c.returned number reply] }

/-- A call up to `receive`. With too much to write it returns before it sends. -/
def send (s : Link) (c : RbcpCall) : Link :=
  let s' := { s with mSequence := s.mSequence + 1, calls := s.calls ++ [c] }
  match c.request s.mSequence with
  | some bytes =>
    { s' with
      waiting := some (s.mSequence, c)
      requests := s.requests ++ [⟨s.mSequence, bytes⟩] }
  | none => { s' with returned := s.returned ++ [⟨s.mSequence, c, none, -1, []⟩] }

/-- The server takes a request out of the network. -/
def serve (s : Link) (d : Packet) : Link :=
  let (server, reply) := s.server.serve d.bytes
  { s with
    requests := s.requests.erase d
    server := server
    replies := s.replies ++ (reply.map (Packet.mk d.origin)).toList }

def step (s : Link) : LinkAction → Option Link
  | .call c => if s.waiting.isNone then some (s.send c) else none
  | .loseRequest d =>
    if d ∈ s.requests then some { s with requests := s.requests.erase d } else none
  | .repeatRequest d =>
    if d ∈ s.requests then some { s with requests := s.requests ++ [d] } else none
  | .serve d => if d ∈ s.requests then some (s.serve d) else none
  | .loseReply d =>
    if d ∈ s.replies then some { s with replies := s.replies.erase d } else none
  | .repeatReply d =>
    if d ∈ s.replies then some { s with replies := s.replies ++ [d] } else none
  | .deliver d =>
    if d ∈ s.replies then
      some { s with replies := s.replies.erase d, socket := s.socket ++ [d] }
    else none
  | .receive =>
    match s.waiting, s.socket with
    | some (number, c), d :: rest => some ({ s with socket := rest }.finish number c (some d))
    | _, _ => none
  | .fail =>
    match s.waiting with
    | some (number, c) => some (s.finish number c none)
    | none => none

/-- The call that waits is the one with this number. -/
def WaitsFor (s : Link) (number : ℕ) : Prop := s.waiting.map Prod.fst = some number

instance (s : Link) (number : ℕ) : Decidable (s.WaitsFor number) :=
  inferInstanceAs (Decidable (_ = _))

/-- A reply comes when its call waits for it and has none yet, and `recvfrom` does not fail with
a packet in the socket. -/
def InTime (s : Link) : LinkAction → Prop
  | .deliver d => s.WaitsFor d.origin ∧ s.socket = []
  | .fail => s.socket = []
  | _ => True

instance (s : Link) : (a : LinkAction) → Decidable (s.InTime a)
  | .deliver _ => inferInstanceAs (Decidable (_ ∧ _))
  | .fail => inferInstanceAs (Decidable (_ = _))
  | .call _ | .loseRequest _ | .repeatRequest _ | .serve _ | .loseReply _ | .repeatReply _
  | .receive => .isTrue trivial

/-- The socket holds at most the reply to the call that waits. -/
def SocketOwn (s : Link) : Prop :=
  s.socket = [] ∨ ∃ d, s.socket = [d] ∧ s.WaitsFor d.origin

/-! ### The packets under way -/

/-- The packet is the request of the call with its number. -/
def IsRequest (calls : List RbcpCall) (d : Packet) : Prop :=
  ∃ c, calls[d.origin]? = some c ∧ c.request d.origin = some d.bytes

/-- The packet has the header of the request of the call with its number. -/
def IsReply (calls : List RbcpCall) (d : Packet) : Prop :=
  ∃ c, calls[d.origin]? = some c ∧
    d.bytes.take BcpHeader.size = (c.header d.origin).bytes ∧
    BcpHeader.size ≤ d.bytes.length ∧ d.bytes.length ≤ 2048

/-- What always holds: every packet belongs to one of the calls so far, and the call that waits
is the one with its number. -/
structure Sound (s : Link) : Prop where
  sequence : s.mSequence = s.calls.length
  waiting : ∀ number c, s.waiting = some (number, c) → s.calls[number]? = some c
  requests : ∀ d ∈ s.requests, IsRequest s.calls d
  replies : ∀ d ∈ s.replies, IsReply s.calls d
  socket : ∀ d ∈ s.socket, IsReply s.calls d

section Step

variable {s t : Link} {a : LinkAction} {d : Packet} {calls : List RbcpCall} {c : RbcpCall}

theorem getElem?_concat_of_some {k : ℕ} {c' : RbcpCall} (h : calls[k]? = some c') :
    (calls ++ [c])[k]? = some c' := by
  obtain ⟨hk, -⟩ := List.getElem?_eq_some_iff.mp h
  rw [List.getElem?_append_left hk, h]

theorem IsRequest.concat (h : IsRequest calls d) : IsRequest (calls ++ [c]) d :=
  h.imp fun _ hc => ⟨getElem?_concat_of_some hc.1, hc.2⟩

theorem IsReply.concat (h : IsReply calls d) : IsReply (calls ++ [c]) d :=
  h.imp fun _ hc => ⟨getElem?_concat_of_some hc.1, hc.2⟩

theorem IsReply.ne_nil (h : IsReply calls d) : d.bytes ≠ [] := by
  obtain ⟨_, _, _, hlen, _⟩ := h
  intro hnil
  simp [hnil, BcpHeader.size] at hlen

/-- The server answers a request with a reply to it. -/
theorem IsRequest.isReply {server server' : TestServer} {reply : List UInt8}
    (h : IsRequest calls d) (hserve : server.serve d.bytes = (server', some reply)) :
    IsReply calls ⟨d.origin, reply⟩ := by
  obtain ⟨c, hc, hrequest⟩ := h
  obtain ⟨hheader, hlen⟩ := RbcpCall.take_request hrequest
  obtain ⟨htake, hle, hlt⟩ := TestServer.serve_reply hlen hserve
  refine ⟨c, hc, htake.trans hheader, hle, ?_⟩
  simp only [BcpHeader.size] at hlt
  exact (Nat.le_of_lt hlt).trans (by decide)

theorem Sound.send (hs : s.Sound) (c : RbcpCall) : (s.send c).Sound := by
  obtain ⟨hseq, hwaiting, hrequests, hreplies, hsocket⟩ := hs
  have hnew : (s.calls ++ [c])[s.mSequence]? = some c := by simp [hseq]
  unfold Link.send
  split
  · next bytes hbytes =>
    constructor <;> dsimp only
    · simp [hseq]
    · rintro number c' ⟨⟩
      exact hnew
    · intro d hd
      rcases List.mem_append.mp hd with hd | hd
      · exact (hrequests d hd).concat
      · rw [List.mem_singleton.mp hd]
        exact ⟨c, hnew, hbytes⟩
    · exact fun d hd => (hreplies d hd).concat
    · exact fun d hd => (hsocket d hd).concat
  · constructor <;> dsimp only
    · simp [hseq]
    · exact fun number c' h => getElem?_concat_of_some (hwaiting number c' h)
    · exact fun d hd => (hrequests d hd).concat
    · exact fun d hd => (hreplies d hd).concat
    · exact fun d hd => (hsocket d hd).concat

theorem Sound.serve (hs : s.Sound) (hd : d ∈ s.requests) : (s.serve d).Sound := by
  obtain ⟨hseq, hwaiting, hrequests, hreplies, hsocket⟩ := hs
  unfold Link.serve
  constructor <;> dsimp only
  · exact hseq
  · exact hwaiting
  · exact fun e he => hrequests e (List.mem_of_mem_erase he)
  · intro e he
    rcases List.mem_append.mp he with he | he
    · exact hreplies e he
    · obtain ⟨reply, hreply, rfl⟩ := Option.map_eq_some_iff.mp (Option.mem_toList.mp he)
      exact (hrequests d hd).isReply (Prod.ext rfl hreply)
  · exact hsocket

theorem Sound.finish (hs : s.Sound) (number : ℕ) (c : RbcpCall) (reply : Option Packet) :
    (s.finish number c reply).Sound :=
  ⟨hs.sequence, by simp [Link.finish], hs.requests, hs.replies, hs.socket⟩

/-- All that a step can do. The network's own steps are told by what they leave. -/
inductive StepKind (s : Link) : LinkAction → Link → Prop
  | call (c : RbcpCall) (hw : s.waiting = none) : StepKind s (.call c) (s.send c)
  | network {a : LinkAction} (requests replies : List Packet) (hrequests : requests ⊆ s.requests)
      (hreplies : replies ⊆ s.replies) (ha : s.InTime a) :
      StepKind s a { s with requests := requests, replies := replies }
  | serve (d : Packet) (hd : d ∈ s.requests) : StepKind s (.serve d) (s.serve d)
  | deliver (d : Packet) (hd : d ∈ s.replies) :
      StepKind s (.deliver d) { s with replies := s.replies.erase d, socket := s.socket ++ [d] }
  | receive (number : ℕ) (c : RbcpCall) (d : Packet) (rest : List Packet)
      (hw : s.waiting = some (number, c)) (hd : s.socket = d :: rest) :
      StepKind s .receive ({ s with socket := rest }.finish number c (some d))
  | fail (number : ℕ) (c : RbcpCall) (hw : s.waiting = some (number, c)) :
      StepKind s .fail (s.finish number c none)

theorem step_kind (h : s.step a = some t) : StepKind s a t := by
  have hrepeat {l : List Packet} {d : Packet} (hd : d ∈ l) : l ++ [d] ⊆ l :=
    List.append_subset.mpr ⟨List.Subset.refl l, by simpa using hd⟩
  cases a with
  | call c =>
    obtain ⟨hw, h⟩ := Option.ite_none_right_eq_some.mp h
    cases h
    exact .call c (Option.isNone_iff_eq_none.mp hw)
  | loseRequest d =>
    obtain ⟨hd, h⟩ := Option.ite_none_right_eq_some.mp h
    cases h
    exact .network _ _ List.erase_subset (List.Subset.refl _) trivial
  | repeatRequest d =>
    obtain ⟨hd, h⟩ := Option.ite_none_right_eq_some.mp h
    cases h
    exact .network _ _ (hrepeat hd) (List.Subset.refl _) trivial
  | serve d =>
    obtain ⟨hd, h⟩ := Option.ite_none_right_eq_some.mp h
    cases h
    exact .serve d hd
  | loseReply d =>
    obtain ⟨hd, h⟩ := Option.ite_none_right_eq_some.mp h
    cases h
    exact .network _ _ (List.Subset.refl _) List.erase_subset trivial
  | repeatReply d =>
    obtain ⟨hd, h⟩ := Option.ite_none_right_eq_some.mp h
    cases h
    exact .network _ _ (List.Subset.refl _) (hrepeat hd) trivial
  | deliver d =>
    obtain ⟨hd, h⟩ := Option.ite_none_right_eq_some.mp h
    cases h
    exact .deliver d hd
  | receive =>
    simp only [step] at h
    split at h
    · next number c d rest hw hd =>
      cases h
      exact .receive number c d rest hw hd
    · cases h
  | fail =>
    simp only [step] at h
    split at h
    · next number c hw =>
      cases h
      exact .fail number c hw
    · cases h

theorem Sound.step (hs : s.Sound) (h : s.step a = some t) : t.Sound := by
  cases step_kind h with
  | call c => exact hs.send c
  | network requests replies hrequests hreplies =>
    exact ⟨hs.sequence, hs.waiting, fun d hd => hs.requests d (hrequests hd),
      fun d hd => hs.replies d (hreplies hd), hs.socket⟩
  | serve d hd => exact hs.serve hd
  | deliver d hd =>
    refine ⟨hs.sequence, hs.waiting, hs.requests,
      fun e he => hs.replies e (List.mem_of_mem_erase he), fun e he => ?_⟩
    rcases List.mem_append.mp he with he | he
    · exact hs.socket e he
    · rw [List.mem_singleton.mp he]
      exact hs.replies d hd
  | receive number c d rest hw hd =>
    have hrest : Sound { s with socket := rest } :=
      ⟨hs.sequence, hs.waiting, hs.requests, hs.replies,
        fun e he => hs.socket e (hd ▸ List.mem_cons_of_mem d he)⟩
    exact hrest.finish number c (some d)
  | fail number c => exact hs.finish number c none

/-! ### Replies in time -/

/-- Every call so far has got its own reply, and the socket holds no other. -/
structure Answered (s : Link) : Prop where
  returned : ∀ r ∈ s.returned, r.Own
  socket : s.SocketOwn

/-- The reply to the call that waits is its own. -/
theorem IsReply.own {number : ℕ} (hreply : IsReply calls d) (hc : calls[number]? = some c)
    (hnumber : d.origin = number) : (c.returned number (some d)).Own := by
  obtain ⟨c', hc', htake, -, hle⟩ := hreply
  subst hnumber
  cases hc.symm.trans hc'
  intro _
  exact ⟨d, rfl, rfl, htake, fun hread hlen => RbcpCall.received_read hread hlen hle⟩

/-- A reply to another call is never its own. -/
theorem IsReply.not_own {number : ℕ} (hreply : IsReply calls d) (hnumber : d.origin ≠ number) :
    ¬ (c.returned number (some d)).Own := by
  intro hown
  obtain ⟨e, he, horigin, -⟩ := hown (RbcpCall.received_pos hreply.ne_nil)
  cases he
  exact hnumber horigin

theorem own_of_value {r : RbcpReturn} (hr : r.value = -1) : r.Own := fun h => by
  rw [hr] at h
  exact absurd h (by decide)

theorem forall_returned_concat {r : RbcpReturn} (hs : ∀ r ∈ s.returned, r.Own) (hr : r.Own) :
    ∀ r' ∈ s.returned ++ [r], r'.Own := by
  intro r' hr'
  rcases List.mem_append.mp hr' with hr' | hr'
  · exact hs r' hr'
  · rw [List.mem_singleton.mp hr']
    exact hr

theorem SocketOwn.eq_nil (h : s.SocketOwn) (hw : s.waiting = none) : s.socket = [] := by
  rcases h with hempty | ⟨d, -, hd⟩
  · exact hempty
  · simp [WaitsFor, hw] at hd

/-- A packet that comes is the only one awaited exactly if it comes in time. -/
theorem socketOwn_deliver_iff {replies : List Packet} :
    SocketOwn { s with replies := replies, socket := s.socket ++ [d] } ↔
      s.InTime (.deliver d) := by
  constructor
  · rintro (hempty | ⟨e, he, hwaits⟩)
    · simp at hempty
    · obtain ⟨hnil, hde⟩ := List.append_inj' (he.trans (List.nil_append [e]).symm) rfl
      cases hde
      exact ⟨hwaits, hnil⟩
  · rintro ⟨hwaits, hempty⟩
    exact .inr ⟨d, by simp [hempty], hwaits⟩

theorem Answered.step (hsound : s.Sound) (hs : s.Answered) (htime : s.InTime a)
    (h : s.step a = some t) : t.Answered := by
  obtain ⟨hreturned, hsocket⟩ := hs
  cases step_kind h with
  | call c hw =>
    have hempty := hsocket.eq_nil hw
    unfold send
    split
    · exact ⟨hreturned, .inl hempty⟩
    · exact ⟨forall_returned_concat hreturned (own_of_value rfl), .inl hempty⟩
  | network | serve => exact ⟨hreturned, hsocket⟩
  | deliver d hd => exact ⟨hreturned, socketOwn_deliver_iff.mpr htime⟩
  | receive number c d rest hw hd =>
    rcases hsocket with hempty | ⟨e, he, hwaits⟩
    · simp [hempty] at hd
    · cases he.symm.trans hd
      have hnumber : d.origin = number := by simpa [WaitsFor, hw] using hwaits.symm
      have hreply := hsound.socket d (by simp [hd])
      refine ⟨forall_returned_concat hreturned ?_, .inl rfl⟩
      exact hreply.own (hsound.waiting number c hw) hnumber
  | fail number c hw =>
    exact ⟨forall_returned_concat hreturned (own_of_value (RbcpCall.received_none c)),
      .inl htime⟩

/-- What is not in time leaves a packet in the socket that is not awaited. -/
theorem not_answered_of_not_inTime (htime : ¬ s.InTime a) (h : s.step a = some t) :
    ¬ t.Answered := by
  rintro ⟨-, hsocket⟩
  cases step_kind h with
  | call | serve | receive => exact htime trivial
  | network _ _ _ _ ha => exact htime ha
  | deliver d hd => exact htime (socketOwn_deliver_iff.mp hsocket)
  | fail number c hw => exact htime (hsocket.eq_nil rfl)

/-- A packet that is not awaited stays in the socket until a call takes it for its reply. -/
theorem not_answered_step (hsound : s.Sound) (hs : ¬ s.Answered) (h : s.step a = some t) :
    ¬ t.Answered := by
  intro ht
  refine hs ?_
  obtain ⟨hreturned, hsocket⟩ := ht
  cases step_kind h with
  | call c hw =>
    -- the packets in the socket belong to calls that have been made, not to this one
    have hold {d : Packet} (hd : d ∈ s.socket) : d.origin ≠ s.mSequence := by
      obtain ⟨c', hc', -⟩ := hsound.socket d hd
      obtain ⟨hlt, -⟩ := List.getElem?_eq_some_iff.mp hc'
      rw [hsound.sequence]
      omega
    unfold send at hreturned hsocket
    split at hsocket
    · next hrequest =>
      simp only [hrequest] at hreturned
      refine ⟨hreturned, ?_⟩
      rcases hsocket with hempty | ⟨d, hd, hwaits⟩
      · exact .inl hempty
      · have horigin : d.origin = s.mSequence := by simpa [WaitsFor] using hwaits.symm
        exact absurd horigin (hold (by simp at hd; simp [hd]))
    · next hrequest =>
      simp only [hrequest] at hreturned
      exact ⟨fun r hr => hreturned r (List.mem_append_left _ hr), hsocket⟩
  | network | serve => exact ⟨hreturned, hsocket⟩
  | deliver d hd => exact ⟨hreturned, .inl (socketOwn_deliver_iff.mp hsocket).2⟩
  | receive number c d rest hw hd =>
    refine ⟨fun r hr => hreturned r (List.mem_append_left _ hr), .inr ⟨d, ?_, ?_⟩⟩
    · rw [hd]
      exact congrArg (d :: ·) (hsocket.eq_nil rfl)
    · have hlast := hreturned _ (List.mem_append_right _ (List.mem_singleton_self _))
      by_contra hwaits
      refine (hsound.socket d (by simp [hd])).not_own (fun horigin => hwaits ?_) hlast
      simp [WaitsFor, hw, horigin]
  | fail number c hw =>
    exact ⟨fun r hr => hreturned r (List.mem_append_left _ hr), .inl (hsocket.eq_nil rfl)⟩

end Step

/-! ### Runs -/

theorem sound_start (server : TestServer) : (start server).Sound := by
  constructor <;> simp [start]

theorem answered_start (server : TestServer) : (start server).Answered :=
  ⟨by simp [start], .inl rfl⟩

/-- Every call of a run is answered by its own reply, and no other is left in the socket, if and
only if every reply that comes does so in time. -/
theorem answered_iff_in_time (server : TestServer) (actions : List LinkAction) (s : Link)
    (hrun : Transition.run step (start server) actions = some s) :
    s.Answered ↔ Transition.Meets step InTime (start server) actions := by
  have hinit : (start server).Sound ∧ (start server).Answered :=
    ⟨sound_start server, answered_start server⟩
  have hnext : ∀ (s : Link) (a : LinkAction) (t : Link), s.Sound ∧ s.Answered → s.InTime a →
      s.step a = some t → t.Sound ∧ t.Answered :=
    fun _ _ _ hs ha h => ⟨hs.1.step h, hs.2.step hs.1 ha h⟩
  constructor
  · intro hs
    have hor := Transition.meets_or (B := fun s : Link => s.Sound ∧ ¬ s.Answered) hinit hnext
      (fun _ _ _ hs ha h => ⟨hs.1.step h, not_answered_of_not_inTime ha h⟩)
      (fun _ _ _ hs h => ⟨hs.1.step h, not_answered_step hs.1 hs.2 h⟩) hrun
    rcases hor with ⟨hmeets, -⟩ | ⟨-, hnot⟩
    · exact hmeets
    · exact absurd hs hnot
  · intro hmeets
    exact (Transition.run_invariant_of_meets (I := fun s : Link => s.Sound ∧ s.Answered)
      hinit hnext hrun hmeets).2

/-- A server whose registers hold their own addresses. -/
def countingServer : TestServer := ⟨fun i => UInt8.ofNat i.toNat, fun _ => 0, fun _ => 0⟩

/-- The request of a call that reads register 1, and the reply to it. -/
def readRequest : Packet := ⟨0, [0xff, 0xc0, 0, 1, 0, 0, 0, 1]⟩
def readReply : Packet := ⟨0, [0xff, 0xc0, 0, 1, 0, 0, 0, 1, 1]⟩

/-- A read of register 1 times out before its reply comes, and the read of register 2 after it
takes this reply and returns 1. -/
theorem late_reply_taken :
    ¬ ∀ (server : TestServer) (actions : List LinkAction) (s : Link),
      Transition.run step (start server) actions = some s → ∀ r ∈ s.returned, r.Own := by
  intro h
  have hown := h countingServer [.call (.read (fun _ => 0) 1 1), .serve readRequest, .fail,
    .deliver readReply, .call (.read (fun _ => 0) 2 1), .receive] _ rfl
    ⟨1, .read (fun _ => 0) 2 1, some readReply, 1, [1]⟩ (List.mem_of_getElem? (i := 1) rfl)
  obtain ⟨d, hd, horigin, -⟩ := hown (by decide)
  cases hd
  exact absurd horigin (by decide)

/-- The same two reads, of which the first gets its reply in time and the second none. -/
def readsInTime : List LinkAction :=
  [.call (.read (fun _ => 0) 1 1), .serve readRequest, .deliver readReply, .receive,
    .call (.read (fun _ => 0) 2 1), .fail]

theorem answered_reads_in_time :
    ∃ s, Transition.run step (start countingServer) readsInTime = some s ∧ s.Answered := by
  refine ⟨_, rfl, ?_⟩
  exact (answered_iff_in_time countingServer readsInTime _ rfl).mpr (by decide)

end Link

end LebStudy
