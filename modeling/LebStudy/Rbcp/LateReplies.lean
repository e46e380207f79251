import LebStudy.Rbcp.Transaction

/-!
# What a timeout leaves behind

On a network that loses, repeats and reorders nothing the replies come in the order of the calls. A
call that does not wait for its reply leaves it to the next one, and from then on every call takes
the reply to an earlier one: as many calls before it as have got none.
-/

namespace LebStudy

/-- The call has got as far as its request. -/
def RbcpReturn.sent (r : RbcpReturn) : Bool := (r.call.request r.number).isSome

namespace Link

/-- The network hands over what was sent first, and loses and repeats nothing. -/
def InOrder (s : Link) : LinkAction → Prop
  | .loseRequest _ | .repeatRequest _ | .loseReply _ | .repeatReply _ => False
  | .serve d => s.requests.head? = some d
  | .deliver d => s.replies.head? = some d
  | .call _ | .receive | .fail => True

instance (s : Link) : (a : LinkAction) → Decidable (s.InOrder a)
  | .loseRequest _ | .repeatRequest _ | .loseReply _ | .repeatReply _ => .isFalse id
  | .serve _ => inferInstanceAs (Decidable (_ = _))
  | .deliver _ => inferInstanceAs (Decidable (_ = _))
  | .call _ | .receive | .fail => .isTrue trivial

/-- The calls that have returned after a request. -/
def asked (s : Link) : List RbcpReturn := s.returned.filter RbcpReturn.sent

/-- How many of the first `i` of them have got no reply. -/
def failures (s : Link) (i : ℕ) : ℕ := (s.asked.take i).countP fun r => r.reply.isNone

/-- The calls that have sent a request. -/
def numbers (s : Link) : List ℕ := s.asked.map RbcpReturn.number ++ s.waiting.toList.map Prod.fst

/-- From the first reply taken to the last request sent. -/
def packets (s : Link) : List Packet :=
  s.asked.filterMap RbcpReturn.reply ++ (s.socket ++ (s.replies ++ s.requests))

/-- The packets are those of the calls, in order. -/
structure Queued (s : Link) : Prop where
  order : s.numbers = s.packets.map Packet.origin
  increasing : s.numbers.Pairwise (· < ·)
  pending : ∀ number c, s.waiting = some (number, c) → (c.request number).isSome
  call : ∀ r ∈ s.asked, s.calls[r.number]? = some r.call
  taken : ∀ r ∈ s.asked, ∀ d, r.reply = some d → IsReply s.calls d
  result : ∀ r ∈ s.asked, r = r.call.returned r.number r.reply

section Step

variable {s t : Link} {a : LinkAction} {d : Packet} {c : RbcpCall} {number : ℕ}

/-- All that a step can do on such a network. -/
inductive OrderedStep (s : Link) : Link → Prop
  | call (c : RbcpCall) (hw : s.waiting = none) : OrderedStep s (s.send c)
  | serve (d : Packet) (rest : List Packet) (hd : s.requests = d :: rest) :
      OrderedStep s (s.serve d)
  | deliver (d : Packet) (rest : List Packet) (hd : s.replies = d :: rest) :
      OrderedStep s { s with replies := rest, socket := s.socket ++ [d] }
  | receive (number : ℕ) (c : RbcpCall) (d : Packet) (rest : List Packet)
      (hw : s.waiting = some (number, c)) (hd : s.socket = d :: rest) :
      OrderedStep s ({ s with socket := rest }.finish number c (some d))
  | fail (number : ℕ) (c : RbcpCall) (hw : s.waiting = some (number, c)) :
      OrderedStep s (s.finish number c none)

theorem orderedStep (ha : s.InOrder a) (h : s.step a = some t) : s.OrderedStep t := by
  cases a with
  | call c =>
    obtain ⟨hw, h⟩ := Option.ite_none_right_eq_some.mp h
    cases h
    exact .call c (Option.isNone_iff_eq_none.mp hw)
  | loseRequest | repeatRequest | loseReply | repeatReply => exact ha.elim
  | serve d =>
    obtain ⟨-, h⟩ := Option.ite_none_right_eq_some.mp h
    cases h
    obtain ⟨rest, hrest⟩ := List.head?_eq_some_iff.mp ha
    exact .serve d rest hrest
  | deliver d =>
    obtain ⟨-, h⟩ := Option.ite_none_right_eq_some.mp h
    cases h
    obtain ⟨rest, hrest⟩ := List.head?_eq_some_iff.mp ha
    rw [hrest, List.erase_cons_head]
    exact .deliver d rest hrest
  | receive =>
    simp only [step] at h
    split at h
    · next number c d rest hw hd =>
      cases h
      exact .receive number c d rest hw hd
    · cases h
  | fail =>
    simp only [step] at h
    split at h
    · next number c hw =>
      cases h
      exact .fail number c hw
    · cases h

/-! ### What a step does to the numbers and the packets -/

theorem asked_finish {reply : Option Packet} (hsent : (c.request number).isSome) :
    (s.finish number c reply).asked = s.asked ++ [c.returned number reply] := by
  rw [asked, finish, List.filter_append]
  congr 1
  exact List.filter_cons_of_pos hsent

theorem asked_send : (s.send c).asked = s.asked := by
  unfold send
  split
  · rfl
  · next hrequest =>
    have hnot : ¬ RbcpReturn.sent ⟨s.mSequence, c, none, -1, []⟩ = true := by
      simp [RbcpReturn.sent, hrequest]
    rw [asked, List.filter_append, List.filter_cons_of_neg hnot]
    exact List.append_nil _

theorem number_lt (hs : s.Sound) (hq : s.Queued) : ∀ k ∈ s.numbers, k < s.mSequence := by
  have hlt : ∀ {k : ℕ} {c : RbcpCall}, s.calls[k]? = some c → k < s.mSequence := by
    intro k c hc
    obtain ⟨hlt, -⟩ := List.getElem?_eq_some_iff.mp hc
    rw [hs.sequence]
    exact hlt
  intro k hk
  obtain hk | hk := List.mem_append.mp hk
  · obtain ⟨r, hr, rfl⟩ := List.mem_map.mp hk
    exact hlt (hq.call r hr)
  · obtain ⟨⟨number, c⟩, hw, rfl⟩ := List.mem_map.mp hk
    exact hlt (hs.waiting number c (Option.mem_toList.mp hw))

theorem Queued.send (hs : s.Sound) (hq : s.Queued) (hw : s.waiting = none) (c : RbcpCall) :
    (s.send c).Queued := by
  have hlt := number_lt hs hq
  have hcalls : (s.send c).calls = s.calls ++ [c] := by
    unfold Link.send
    split <;> rfl
  have hnumbers : s.asked.map RbcpReturn.number = s.numbers := by
    rw [numbers, hw]
    exact (List.append_nil _).symm
  have hold : ∀ r ∈ s.asked, (s.send c).calls[r.number]? = some r.call := by
    intro r hr
    rw [hcalls]
    exact getElem?_concat_of_some (hq.call r hr)
  have htaken : ∀ r ∈ s.asked, ∀ d, r.reply = some d → IsReply (s.send c).calls d := by
    intro r hr d hd
    rw [hcalls]
    exact (hq.taken r hr d hd).concat
  rw [← asked_send (s := s) (c := c)] at hold htaken
  refine ⟨?_, ?_, ?_, hold, htaken, ?_⟩
  · rw [numbers, packets, asked_send, hnumbers]
    have horder := hq.order
    rw [packets] at horder
    unfold Link.send
    split
    · simp [horder]
    · simp [horder, hw]
  · rw [numbers, asked_send, hnumbers]
    unfold Link.send
    split
    · refine List.pairwise_append.mpr ⟨hq.increasing, List.pairwise_singleton _ _, ?_⟩
      intro k hk k' hk'
      rw [List.mem_singleton.mp hk']
      exact hlt k hk
    · simpa [hw] using hq.increasing
  · unfold Link.send
    split
    · next hrequest =>
      rintro number c' ⟨⟩
      simp [hrequest]
    · exact hq.pending
  · rw [asked_send]
    exact hq.result

theorem Queued.serve {rest : List Packet} (hs : s.Sound) (hq : s.Queued)
    (hd : s.requests = d :: rest) : (s.serve d).Queued := by
  have hrequest := hs.requests d (hd ▸ List.mem_cons_self)
  have hne : d.bytes ≠ [] := by
    obtain ⟨c, -, hbytes⟩ := hrequest
    obtain ⟨-, hlen⟩ := RbcpCall.take_request hbytes
    intro hnil
    simp [hnil, BcpHeader.size] at hlen
  refine ⟨?_, hq.increasing, hq.pending, hq.call, hq.taken, hq.result⟩
  have horder := hq.order
  rw [packets, hd] at horder
  have hserve : s.server.serve d.bytes =
      ((s.server.receive d.bytes).answer, some (s.server.receive d.bytes).reply) := if_neg hne
  rw [packets, Link.serve, hserve, hd, List.erase_cons_head]
  exact horder.trans (by simp [asked])

theorem Queued.finish (hq : s.Queued) (reply : Option Packet) (socket : List Packet)
    (hs : s.Sound) (hw : s.waiting = some (number, c))
    (hsocket : s.socket = reply.toList ++ socket) :
    ({ s with socket := socket }.finish number c reply).Queued := by
  have hasked : ({ s with socket := socket }.finish number c reply).asked =
      s.asked ++ [c.returned number reply] := asked_finish (hq.pending number c hw)
  have hmem : ∀ r ∈ ({ s with socket := socket }.finish number c reply).asked,
      r ∈ s.asked ∨ r = c.returned number reply := by
    intro r hr
    rw [hasked] at hr
    exact (List.mem_append.mp hr).imp_right List.mem_singleton.mp
  have hnumbers : ({ s with socket := socket }.finish number c reply).numbers = s.numbers := by
    rw [numbers, numbers, hasked, hw]
    simp [Link.finish, RbcpCall.returned]
  refine ⟨?_, hnumbers ▸ hq.increasing, by simp [Link.finish], ?_, ?_, ?_⟩
  · rw [hnumbers, hq.order, packets, packets, hasked, hsocket]
    cases reply <;> simp [Link.finish, RbcpCall.returned]
  · intro r hr
    obtain hr | rfl := hmem r hr
    · exact hq.call r hr
    · exact hs.waiting number c hw
  · intro r hr d hd
    obtain hr | rfl := hmem r hr
    · exact hq.taken r hr d hd
    · have hreply : reply = some d := hd
      exact hs.socket d (by simp [hsocket, hreply])
  · intro r hr
    obtain hr | rfl := hmem r hr
    · exact hq.result r hr
    · rfl

theorem Queued.step (hs : s.Sound) (hq : s.Queued) (ha : s.InOrder a) (h : s.step a = some t) :
    t.Queued := by
  cases orderedStep ha h with
  | call c hw => exact hq.send hs hw c
  | serve d rest hd => exact hq.serve hs hd
  | deliver d rest hd =>
    refine ⟨?_, hq.increasing, hq.pending, hq.call, hq.taken, hq.result⟩
    have horder := hq.order
    rw [packets, hd] at horder
    rw [packets]
    exact horder.trans (by simp [asked])
  | receive number c d rest hw hd => exact hq.finish (some d) rest hs hw hd
  | fail number c hw => exact hq.finish none s.socket hs hw rfl

end Step

/-! ### Runs -/

theorem queued_start (server : TestServer) : (start server).Queued := by
  constructor <;> simp [start, numbers, packets, asked]

/-- The place of what an element is mapped to: one less for each element before it without. -/
theorem getElem?_filterMap {α β : Type*} {f : α → Option β} {l : List α} {i : ℕ} {x : α} {y : β}
    (hx : l[i]? = some x) (hy : f x = some y) :
    (l.filterMap f)[i - (l.take i).countP fun x => (f x).isNone]? = some y := by
  obtain ⟨hi, hget⟩ := List.getElem?_eq_some_iff.mp hx
  have hcount : ((l.take i).filterMap f).length =
      i - (l.take i).countP fun x => (f x).isNone := by
    have hall := (l.take i).length_eq_countP_add_countP fun x => (f x).isNone
    have hrest : ((l.take i).countP fun x => decide ¬ (f x).isNone = true) =
        (l.take i).countP fun x => (f x).isSome := by
      congr 1
      funext x
      cases f x <;> rfl
    rw [List.length_take_of_le (Nat.le_of_lt hi), hrest] at hall
    rw [List.length_filterMap_eq_countP]
    omega
  have hsplit : l = l.take i ++ x :: l.drop (i + 1) := by
    rw [← hget, ← List.drop_eq_getElem_cons hi, List.take_append_drop]
  rw [← hcount]
  nth_rewrite 1 [hsplit]
  rw [List.filterMap_append, List.getElem?_append_right (Nat.le_refl _), Nat.sub_self,
    List.filterMap_cons_some hy]
  rfl

/-- A reply is that to the call as many calls back as have got none. -/
theorem Queued.origin {s : Link} (hq : s.Queued) {i : ℕ} {r : RbcpReturn} {d : Packet}
    (hr : s.asked[i]? = some r) (hd : r.reply = some d) :
    ∃ r', s.asked[i - s.failures i]? = some r' ∧ d.origin = r'.number := by
  obtain ⟨hi, -⟩ := List.getElem?_eq_some_iff.mp hr
  have hlt : i - s.failures i < s.asked.length := Nat.lt_of_le_of_lt (Nat.sub_le _ _) hi
  refine ⟨s.asked[i - s.failures i], List.getElem?_eq_getElem hlt, ?_⟩
  have hplace : s.packets[i - s.failures i]? = some d := by
    have htaken := getElem?_filterMap hr hd
    obtain ⟨hshort, -⟩ := List.getElem?_eq_some_iff.mp htaken
    rw [packets]
    exact (List.getElem?_append_left hshort).trans htaken
  have horder := congrArg (·[i - s.failures i]?) hq.order
  simp only [numbers, List.getElem?_map, hplace] at horder
  rw [List.getElem?_append_left (by simpa using hlt), List.getElem?_map,
    List.getElem?_eq_getElem hlt] at horder
  exact (Option.some.inj horder).symm

/-- In order: once calls have got no reply, every call that gets one gets that to the call as many
calls back, with its header; so a call is answered by its own reply exactly if none before it has
gone without. -/
theorem own_iff_no_failures (server : TestServer) (actions : List LinkAction) (s : Link)
    (hrun : Transition.run step (start server) actions = some s)
    (hmeets : Transition.Meets step InOrder (start server) actions)
    (i : ℕ) (r : RbcpReturn) (d : Packet)
    (hr : s.asked[i]? = some r) (hd : r.reply = some d) :
    (∃ r', s.asked[i - s.failures i]? = some r' ∧ d.origin = r'.number ∧
      d.bytes.take BcpHeader.size = (r'.call.header r'.number).bytes) ∧
    (r.Own ↔ s.failures i = 0) := by
  have hinit : (start server).Sound ∧ (start server).Queued :=
    ⟨sound_start server, queued_start server⟩
  obtain ⟨-, hq⟩ := Transition.run_invariant_of_meets (I := fun s : Link => s.Sound ∧ s.Queued)
    hinit (fun _ _ _ hs ha h => ⟨hs.1.step h, hs.2.step hs.1 ha h⟩) hrun hmeets
  have hmem := List.mem_of_getElem? hr
  have hreply := hq.taken r hmem d hd
  have hcall := hq.call r hmem
  have hresult := hq.result r hmem
  rw [hd] at hresult
  obtain ⟨r', hr', horigin⟩ := hq.origin hr hd
  constructor
  · obtain ⟨c, hc, hheader, -⟩ := hreply
    rw [horigin, hq.call r' (List.mem_of_getElem? hr')] at hc
    cases hc
    rw [horigin] at hheader
    exact ⟨r', hr', horigin, hheader⟩
  · rw [hresult]
    constructor
    · intro hown
      by_contra hfailed
      have hback : i - s.failures i < i := by
        have hle : s.failures i ≤ i :=
          List.countP_le_length.trans ((List.length_take_le _ _))
        omega
      refine hreply.not_own ?_ hown
      rw [horigin]
      obtain ⟨hi, hget⟩ := List.getElem?_eq_some_iff.mp hr
      obtain ⟨hi', hget'⟩ := List.getElem?_eq_some_iff.mp hr'
      have hincreasing := (List.pairwise_append.mp hq.increasing).1
      have hless := List.pairwise_iff_getElem.mp hincreasing _ _ (by simpa using hi')
        (by simpa using hi) hback
      simp only [List.getElem_map, hget, hget'] at hless
      exact Nat.ne_of_lt hless
    · intro hnone
      rw [hnone, Nat.sub_zero, hr] at hr'
      cases hr'
      exact hreply.own hcall horigin

/-- The first of two reads times out, and the second gets what register 1 holds. -/
def readsLate : List LinkAction :=
  [.call (.read (fun _ => 0) 1 1), .serve readRequest, .fail, .deliver readReply,
    .call (.read (fun _ => 0) 2 1), .receive]

theorem own_iff_no_failures_late :
    ∃ s, Transition.run step (start countingServer) readsLate = some s ∧
      ∃ r, s.asked[1]? = some r ∧ r.reply = some readReply ∧ r.data = [1] ∧ ¬ r.Own := by
  refine ⟨_, rfl, ⟨1, .read (fun _ => 0) 2 1, some readReply, 1, [1]⟩, rfl, rfl, rfl, ?_⟩
  have hown := (own_iff_no_failures countingServer readsLate _ rfl (by decide) 1
    ⟨1, .read (fun _ => 0) 2 1, some readReply, 1, [1]⟩ readReply rfl rfl).2
  intro h
  exact absurd (hown.mp h) (by decide)

end Link

end LebStudy
