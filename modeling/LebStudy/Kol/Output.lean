import LebStudy.FrontEnd.TcpBuffer
import LebStudy.Lib.Service
import Mathlib.Data.List.Induction

/-!
# The sending side of `kol::TcpBuffer`

`put` collects bytes, `write` sends the collected ones and then its own. As long as no call
of `send` fails, what the peer gets and what is still collected are together what has been
written. When `send` throws, `m_sbufnxt` is left as it is, and the next `flush` sends the
collected bytes from their beginning again, those that had got through with them.
-/

namespace LebStudy

/-- How a call of `send` goes: it takes up to so many bytes, or returns an error. -/
inductive SendOutcome
  | accepts (n : ℕ)
  | error
  deriving DecidableEq, Repr

/-- The sending side: `sbuf` are the `m_sbufnxt` bytes of `m_sbuf`, `wire` what the peer is
sent. The calls of `send` go as `outcome` says, from `sends` on. -/
structure TcpOutput where
  outcome : ℕ → SendOutcome
  sends : ℕ
  wire : List UInt8
  sbuf : List UInt8
  badbit : Bool
  closed : Bool

/-- The calls of the sending side. -/
inductive OutputCall
  | put (c : UInt8)
  | write (buf : List UInt8)
  | flush
  | close
  deriving DecidableEq, Repr

/-- The bytes that a call hands over. -/
def OutputCall.written : OutputCall → List UInt8
  | .put c => [c]
  | .write buf => buf
  | .flush => []
  | .close => []

namespace TcpOutput

/-- `initparams` on a connected socket. -/
def start (outcome : ℕ → SendOutcome) : TcpOutput where
  outcome := outcome
  sends := 0
  wire := []
  sbuf := []
  badbit := false
  closed := false

/-- `Socket::send`; on a closed socket the call fails. -/
def send (s : TcpOutput) (buf : List UInt8) : Except SocketException ℕ × TcpOutput :=
  let e : SocketException := ⟨"Socket::send error"⟩
  if s.closed then (.error e, s)
  else
    match s.outcome s.sends with
    | .error => (.error e, { s with sends := s.sends + 1 })
    | .accepts n =>
      (.ok (min n buf.length), { s with sends := s.sends + 1, wire := s.wire ++ buf.take n })

/-- The loop of `send_all`. Each turn but the last sends a byte or more. -/
def sendLoop : ℕ → TcpOutput → List UInt8 → Option SocketException × TcpOutput
  | 0, s, _ => (none, s)
  | fuel + 1, s, buf =>
    if buf = [] then (none, s)
    else
      match s.send buf with
      | (.error e, s) => (some e, s)
      | (.ok 0, s) => (none, { s with badbit := true })
      | (.ok (n + 1), s) => sendLoop fuel s (buf.drop (n + 1))

/-- `TcpBuffer::send_all` -/
def sendAll (s : TcpOutput) (buf : List UInt8) : Option SocketException × TcpOutput :=
  sendLoop buf.length s buf

/-- The send buffer goes out. After an exception `m_sbufnxt` is what it was. -/
def sendBuffered (s : TcpOutput) : Option SocketException × TcpOutput :=
  match s.sendAll s.sbuf with
  | (some e, s) => (some e, s)
  | (none, s) => (none, { s with sbuf := [] })

/-- `TcpBuffer::flush` -/
def flush (s : TcpOutput) : Option SocketException × TcpOutput :=
  if s.sbuf = [] then (none, s) else s.sendBuffered

/-- `TcpBuffer::put` -/
def put (s : TcpOutput) (c : UInt8) : Option SocketException × TcpOutput :=
  let store (s : TcpOutput) : TcpOutput :=
    if s.badbit then s else { s with sbuf := s.sbuf ++ [c] }
  if TcpBuffer.bufsize ≤ s.sbuf.length then
    match s.sendBuffered with
    | (some e, s) => (some e, s)
    | (none, s) => (none, store s)
  else (none, store s)

/-- `TcpBuffer::write` -/
def write (s : TcpOutput) (buf : List UInt8) : Option SocketException × TcpOutput :=
  if buf = [] then (none, s)
  else
    match s.flush with
    | (some e, s) => (some e, s)
    | (none, s) => s.sendAll buf

/-- `TcpBuffer::close` -/
def close (s : TcpOutput) : Option SocketException × TcpOutput :=
  match s.flush with
  | (some e, s) => (some e, s)
  | (none, s) => (none, { s with closed := true })

/-- One call. -/
def call (s : TcpOutput) : OutputCall → Option SocketException × TcpOutput
  | .put c => s.put c
  | .write buf => s.write buf
  | .flush => s.flush
  | .close => s.close

/-- Any calls, and how each of them ends. -/
def calls : TcpOutput → List OutputCall → List (Option SocketException) × TcpOutput :=
  Service.specified call

/-! ### Sending -/

/-- The call has sent the front of `buf`, all of it unless something has failed, and has
touched nothing else. -/
structure Sends (s : TcpOutput) (buf : List UInt8)
    (out : Option SocketException × TcpOutput) : Prop where
  wire : ∃ n, out.2.wire = s.wire ++ buf.take n
  whole : out.1 = none → out.2.badbit = false → out.2.wire = s.wire ++ buf
  bad : s.badbit = true → out.2.badbit = true
  sbuf : out.2.sbuf = s.sbuf
  closed : out.2.closed = s.closed

theorem Sends.refl (s : TcpOutput) (e : Option SocketException) (he : e ≠ none) (sends : ℕ)
    (buf : List UInt8) : s.Sends buf (e, { s with sends := sends }) := by
  exact ⟨⟨0, by simp⟩, fun hnone => absurd hnone he, id, rfl, rfl⟩

theorem sendLoop_sends {fuel : ℕ} {buf : List UInt8} (hfuel : buf.length ≤ fuel) (s : TcpOutput) :
    s.Sends buf (sendLoop fuel s buf) := by
  have hnil (fuel : ℕ) (s : TcpOutput) : s.Sends [] (sendLoop fuel s []) := by
    cases fuel <;> exact ⟨⟨0, by simp [sendLoop]⟩, fun _ _ => by simp [sendLoop], id, rfl, rfl⟩
  induction fuel generalizing s buf with
  | zero =>
    obtain rfl : buf = [] := List.length_eq_zero_iff.mp (Nat.le_zero.mp hfuel)
    exact hnil 0 s
  | succ fuel ih =>
    by_cases hbuf : buf = []
    · subst hbuf
      exact hnil _ s
    · have hpos : 0 < buf.length := List.length_pos_iff.mpr hbuf
      rw [sendLoop, if_neg hbuf, send]
      by_cases hclosed : s.closed = true
      · rw [if_pos hclosed]
        exact Sends.refl s _ (Option.some_ne_none _) s.sends buf
      · rw [if_neg hclosed]
        cases houtcome : s.outcome s.sends with
        | error => exact Sends.refl s _ (Option.some_ne_none _) _ buf
        | accepts n =>
          cases n with
          | zero =>
            -- `nsend <= 0`
            simp only [Nat.zero_min]
            exact ⟨⟨0, rfl⟩, fun _ hbad => (by cases hbad), fun _ => rfl, rfl, rfl⟩
          | succ n =>
            obtain ⟨k, hk⟩ : ∃ k, min (n + 1) buf.length = k + 1 :=
              Nat.exists_eq_succ_of_ne_zero (by omega)
            have htake : buf.take (n + 1) = buf.take (k + 1) := by
              rw [← hk, List.take_eq_take_min]
            simp only [hk, htake]
            have hfuel' : (buf.drop (k + 1)).length ≤ fuel := by
              rw [List.length_drop]
              omega
            have hrest := ih hfuel'
              { s with sends := s.sends + 1, wire := s.wire ++ buf.take (k + 1) }
            obtain ⟨⟨m, hm⟩, hwhole, hbad, hsbuf, hsame⟩ := hrest
            refine ⟨⟨k + 1 + m, ?_⟩, fun hnone hgood => ?_, hbad, hsbuf, hsame⟩
            · have happ : buf.take (k + 1 + m) = buf.take (k + 1) ++ (buf.drop (k + 1)).take m :=
                List.take_add
              rw [happ, ← List.append_assoc]
              exact hm
            · rw [hwhole hnone hgood, List.append_assoc, List.take_append_drop]

theorem sendAll_sends (s : TcpOutput) (buf : List UInt8) : s.Sends buf (s.sendAll buf) :=
  sendLoop_sends (Nat.le_refl _) s

/-- What has been written is on the wire or in the buffer, and nothing has failed. -/
structure Holds (s : TcpOutput) (written : List UInt8) : Prop where
  bytes : s.wire ++ s.sbuf = written
  bounded : s.sbuf.length ≤ TcpBuffer.bufsize
  good : s.badbit = false

/-- A call that adds `buf` behind `written`. Unless `send` has taken nothing, the wire is a
prefix of these; and if the call returns, all is on the wire or in the buffer. -/
structure Adds (written buf : List UInt8) (out : Option SocketException × TcpOutput) : Prop where
  wire : out.2.badbit = false → out.2.wire <+: written ++ buf
  holds : out.1 = none → out.2.badbit = false → out.2.Holds (written ++ buf)

theorem sendBuffered_adds {s : TcpOutput} {written : List UInt8} (hs : s.Holds written) :
    Adds written [] s.sendBuffered ∧
      (s.sendBuffered.1 = none → s.sendBuffered.2.sbuf = []) ∧
        (s.sendBuffered.1 ≠ none → s.sendBuffered.2.sbuf = s.sbuf) := by
  obtain ⟨⟨n, hwire⟩, hwhole, -, hsbuf, -⟩ := s.sendAll_sends s.sbuf
  have hprefix : (s.sendAll s.sbuf).2.wire <+: written := by
    rw [hwire, ← hs.bytes]
    exact (List.prefix_append_right_inj _).mpr (List.take_prefix n _)
  rw [sendBuffered]
  generalize s.sendAll s.sbuf = out at *
  obtain ⟨e, s'⟩ := out
  have hfront : s'.wire <+: written ++ [] := by
    rw [List.append_nil]
    exact hprefix
  cases e with
  | some e =>
    exact ⟨⟨fun _ => hfront, fun hnone => (by cases hnone)⟩, fun hnone => (by cases hnone),
      fun _ => hsbuf⟩
  | none =>
    refine ⟨⟨fun _ => hfront, fun _ hgood => ⟨?_, Nat.zero_le _, hgood⟩⟩, fun _ => rfl,
      fun h => absurd rfl h⟩
    show s'.wire ++ [] = written ++ []
    rw [hwhole rfl hgood, hs.bytes]

theorem flush_adds {s : TcpOutput} {written : List UInt8} (hs : s.Holds written) :
    Adds written [] s.flush ∧ (s.flush.1 = none → s.flush.2.sbuf = []) ∧
      (s.flush.1 ≠ none → s.flush.2.sbuf = s.sbuf) := by
  rw [flush]
  split
  · next hnil =>
    refine ⟨⟨fun _ => ?_, fun _ _ => ?_⟩, fun _ => hnil, fun h => absurd rfl h⟩
    · rw [← hs.bytes, hnil]
      simp
    · rw [List.append_nil]
      exact hs
  · exact sendBuffered_adds hs

/-- Once the buffer has gone out, or has room, the byte goes into it, unless `bad()`. -/
theorem put_adds {s : TcpOutput} {written : List UInt8} (hs : s.Holds written) (c : UInt8) :
    Adds written [c] (s.put c) := by
  have hstore {t : TcpOutput} (ht : t.Holds written) (hroom : t.sbuf.length < TcpBuffer.bufsize) :
      Adds written [c]
        (none, if t.badbit then t else { t with sbuf := t.sbuf ++ [c] }) := by
    rw [if_neg (by simp [ht.good])]
    refine ⟨fun _ => ?_, fun _ _ => ⟨?_, ?_, ht.good⟩⟩
    · rw [← ht.bytes, List.append_assoc]
      exact List.prefix_append _ _
    · rw [← ht.bytes, List.append_assoc]
    · rw [List.length_append, List.length_singleton]
      exact hroom
  rw [put]
  split
  · obtain ⟨hadds, hempty, -⟩ := sendBuffered_adds hs
    generalize s.sendBuffered = out at *
    obtain ⟨e, t⟩ := out
    cases e with
    | some e =>
      refine ⟨fun hgood => ?_, fun hnone => (by cases hnone)⟩
      have hwire := hadds.wire hgood
      rw [List.append_nil] at hwire
      exact hwire.trans (List.prefix_append _ _)
    | none =>
      cases hbad : t.badbit with
      | true =>
        have hkept : (if t.badbit then t else { t with sbuf := t.sbuf ++ [c] }).badbit = true := by
          rw [if_pos hbad, hbad]
        exact ⟨fun hgood => absurd (hkept.symm.trans hgood) (by simp),
          fun _ hgood => absurd (hkept.symm.trans hgood) (by simp)⟩
      | false =>
        have ht : t.Holds written := by
          have hholds := hadds.holds rfl hbad
          rwa [List.append_nil] at hholds
        exact hstore ht (by rw [hempty rfl]; decide)
  · next hroom => exact hstore hs (Nat.lt_of_not_le hroom)

theorem write_adds {s : TcpOutput} {written : List UInt8} (hs : s.Holds written)
    (buf : List UInt8) : Adds written buf (s.write buf) := by
  rw [write]
  split
  · next hnil =>
    subst hnil
    refine ⟨fun _ => ?_, fun _ _ => by rw [List.append_nil]; exact hs⟩
    rw [List.append_nil, ← hs.bytes]
    exact List.prefix_append _ _
  · obtain ⟨hadds, hempty, -⟩ := flush_adds hs
    generalize s.flush = out at *
    obtain ⟨e, t⟩ := out
    cases e with
    | some e =>
      refine ⟨fun hgood => ?_, fun hnone => (by cases hnone)⟩
      have hwire := hadds.wire hgood
      rw [List.append_nil] at hwire
      exact hwire.trans (List.prefix_append _ _)
    | none =>
      obtain ⟨⟨n, hwire⟩, hwhole, hbad, hsbuf, -⟩ := t.sendAll_sends buf
      have hgone : t.sbuf = [] := hempty rfl
      -- the flush before has gone well, for `badbit` stays
      have hsent (hgood : (t.sendAll buf).2.badbit = false) : t.wire = written := by
        have ht : t.badbit = false := by
          cases hflush : t.badbit with
          | false => rfl
          | true => exact absurd ((hbad hflush).symm.trans hgood) (by simp)
        have hholds := hadds.holds rfl ht
        rw [List.append_nil] at hholds
        have hbytes := hholds.bytes
        rwa [hgone, List.append_nil] at hbytes
      refine ⟨fun hgood => ?_, fun hnone hgood => ⟨?_, ?_, hgood⟩⟩
      · show (t.sendAll buf).2.wire <+: written ++ buf
        rw [hwire, hsent hgood]
        exact (List.prefix_append_right_inj _).mpr (List.take_prefix n _)
      · show (t.sendAll buf).2.wire ++ (t.sendAll buf).2.sbuf = written ++ buf
        rw [hwhole hnone hgood, hsent hgood, hsbuf, hgone, List.append_nil]
      · show (t.sendAll buf).2.sbuf.length ≤ TcpBuffer.bufsize
        rw [hsbuf, hgone]
        exact Nat.zero_le _

theorem close_adds {s : TcpOutput} {written : List UInt8} (hs : s.Holds written) :
    Adds written [] s.close := by
  obtain ⟨hadds, -⟩ := flush_adds hs
  rw [close]
  generalize s.flush = out at *
  obtain ⟨e, t⟩ := out
  cases e with
  | some e => exact ⟨hadds.wire, hadds.holds⟩
  | none =>
    refine ⟨hadds.wire, fun hnone hgood => ?_⟩
    have ht := hadds.holds hnone hgood
    exact ⟨ht.bytes, ht.bounded, ht.good⟩

theorem call_adds {s : TcpOutput} {written : List UInt8} (hs : s.Holds written) (c : OutputCall) :
    Adds written c.written (s.call c) := by
  cases c with
  | put c => exact put_adds hs c
  | write buf => exact write_adds hs buf
  | flush => exact (flush_adds hs).1
  | close => exact close_adds hs

/-! ### Over any calls -/

/-- `badbit` stays. -/
theorem bad_call {s : TcpOutput} (h : s.badbit = true) (c : OutputCall) :
    (s.call c).2.badbit = true := by
  have hbuffered : s.sendBuffered.2.badbit = true := by
    have hbad := (s.sendAll_sends s.sbuf).bad h
    rw [sendBuffered]
    generalize s.sendAll s.sbuf = out at *
    obtain ⟨- | e, t⟩ := out <;> exact hbad
  have hflush : s.flush.2.badbit = true := by
    rw [flush]
    split
    · exact h
    · exact hbuffered
  cases c with
  | flush => exact hflush
  | close =>
    rw [call, close]
    generalize s.flush = out at *
    obtain ⟨- | e, t⟩ := out <;> exact hflush
  | write buf =>
    rw [call, write]
    split
    · exact h
    · generalize s.flush = out at *
      obtain ⟨- | e, t⟩ := out
      · exact (t.sendAll_sends buf).bad hflush
      · exact hflush
  | put c =>
    rw [call, put]
    split
    · generalize s.sendBuffered = out at *
      obtain ⟨- | e, t⟩ := out
      · simp only [show t.badbit = true from hbuffered, if_true]
      · exact hbuffered
    · simp only [h, if_true]

theorem calls_concat (s : TcpOutput) (cs : List OutputCall) (c : OutputCall) :
    s.calls (cs ++ [c]) =
      ((s.calls cs).1 ++ [((s.calls cs).2.call c).1], ((s.calls cs).2.call c).2) :=
  Service.specified_concat s cs c

theorem good_of_call {s : TcpOutput} {c : OutputCall} (h : (s.call c).2.badbit = false) :
    s.badbit = false := by
  cases hbad : s.badbit with
  | false => rfl
  | true => exact absurd ((bad_call hbad c).symm.trans h) (by simp)

section Run

variable {outcome : ℕ → SendOutcome} {cs : List OutputCall} {es : List (Option SocketException)}
  {s t u : TcpOutput} {c : OutputCall} {e : Option SocketException}

/-- As long as the calls return and `send` takes something, nothing is lost, doubled or out of
order. -/
theorem holds_of_calls (hcalls : (start outcome).calls cs = (es, s)) (hreturn : ∀ e ∈ es, e = none)
    (hgood : s.badbit = false) : s.Holds (cs.flatMap OutputCall.written) := by
  induction cs using List.reverseRecOn generalizing es s with
  | nil =>
    cases hcalls
    exact ⟨rfl, Nat.zero_le _, rfl⟩
  | append_singleton cs c ih =>
    rw [calls_concat] at hcalls
    cases hcalls
    obtain ⟨hbefore, hlast⟩ := List.forall_mem_append.mp hreturn
    have hadds := call_adds (ih rfl hbefore (good_of_call hgood)) c
    rw [List.flatMap_append, List.flatMap_singleton]
    exact hadds.holds (hlast _ (List.mem_singleton_self _)) hgood

/-- For any calls that have returned and one more, however the network takes the bytes: while
`send` takes something, the peer is sent a prefix of what has been written, also where the last
call throws. If it returns, the rest is in the buffer, and behind a `close` or a `flush` nothing
is left there. -/
theorem calls_deliver (outcome : ℕ → SendOutcome) (cs : List OutputCall) (c : OutputCall)
    (hcalls : (start outcome).calls cs = (es, s))
    (hreturn : ∀ e ∈ es, e = none) (hcall : s.call c = (e, t)) (hgood : t.badbit = false) :
    t.wire <+: (cs ++ [c]).flatMap OutputCall.written ∧
      (e = none → t.wire ++ t.sbuf = (cs ++ [c]).flatMap OutputCall.written ∧
        t.sbuf.length ≤ TcpBuffer.bufsize ∧
        (c = .close ∨ c = .flush → t.wire = (cs ++ [c]).flatMap OutputCall.written)) := by
  have hbefore : s.badbit = false := good_of_call (c := c) (by rw [hcall]; exact hgood)
  have hs := holds_of_calls hcalls hreturn hbefore
  have hadds := call_adds hs c
  rw [hcall] at hadds
  rw [List.flatMap_append, List.flatMap_singleton]
  refine ⟨hadds.wire hgood, ?_⟩
  rintro rfl
  have hholds := hadds.holds rfl hgood
  refine ⟨hholds.bytes, hholds.bounded, fun hc => ?_⟩
  -- both empty the buffer
  have hempty : t.sbuf = [] := by
    obtain ⟨-, hflush, -⟩ := flush_adds hs
    rcases hc with rfl | rfl
    · rw [call, close] at hcall
      generalize s.flush = out at *
      obtain ⟨- | e, t'⟩ := out
      · cases hcall
        exact hflush rfl
      · cases hcall
    · rw [call] at hcall
      rw [hcall] at hflush
      exact hflush rfl
  have hbytes := hholds.bytes
  rwa [hempty, List.append_nil] at hbytes

/-- A `flush` that throws leaves the buffer as it is, of which it has sent some front. -/
theorem flush_thrown {s t : TcpOutput} {e : SocketException} (h : s.flush = (some e, t)) :
    s.sbuf ≠ [] ∧ t.sbuf = s.sbuf ∧ ∃ n, t.wire = s.wire ++ s.sbuf.take n := by
  have hfull : s.sbuf ≠ [] := by
    intro hnil
    rw [flush, if_pos hnil] at h
    cases h
  obtain ⟨hwire, -, -, hsbuf, -⟩ := s.sendAll_sends s.sbuf
  rw [flush, if_neg hfull, sendBuffered] at h
  generalize s.sendAll s.sbuf = out at *
  obtain ⟨- | e', t'⟩ := out
  · cases h
  · cases h
    exact ⟨hfull, hsbuf, hwire⟩

/-- A `flush` that does not throw sends all of it. -/
theorem flush_whole {t u : TcpOutput} (h : t.flush = (none, u)) (hgood : u.badbit = false) :
    u.wire = t.wire ++ t.sbuf := by
  rw [flush] at h
  split at h
  · next hnil =>
    cases h
    rw [hnil, List.append_nil]
  · have hwhole := (t.sendAll_sends t.sbuf).whole
    rw [sendBuffered] at h
    generalize t.sendAll t.sbuf = out at *
    obtain ⟨- | e, u'⟩ := out
    · cases h
      exact hwhole rfl hgood
    · cases h

/-- A `flush` that has thrown, and another that does not: the buffer is sent from its beginning.
What the first attempt has sent of it, some front, arrives a second time, so that the peer gets
what has been written exactly if that is nothing. -/
theorem flush_again_iff (outcome : ℕ → SendOutcome) (cs : List OutputCall)
    (hcalls : (start outcome).calls cs = (es, s))
    (hreturn : ∀ e ∈ es, e = none) (hgood : s.badbit = false)
    (hthrown : ∃ e, s.call .flush = (some e, t)) (hagain : t.call .flush = (none, u))
    (hstill : u.badbit = false) :
    (∃ n, t.wire = s.wire ++ s.sbuf.take n ∧
      cs.flatMap OutputCall.written = s.wire ++ s.sbuf ∧
      u.wire = s.wire ++ s.sbuf.take n ++ s.sbuf) ∧
    (u.wire = cs.flatMap OutputCall.written ↔ t.wire = s.wire) := by
  have hs := holds_of_calls hcalls hreturn hgood
  obtain ⟨e, hthrown⟩ := hthrown
  obtain ⟨-, hsbuf, n, hfront⟩ := flush_thrown hthrown
  have hwire : u.wire = t.wire ++ s.sbuf := by
    rw [← hsbuf]
    exact flush_whole hagain hstill
  refine ⟨⟨n, hfront, hs.bytes.symm, by rw [hwire, hfront]⟩, ?_⟩
  rw [hwire, ← hs.bytes]
  exact List.append_left_inj _

end Run

/-- The second call of `send` fails, the others take a byte at a time. -/
def failsAtSecond (k : ℕ) : SendOutcome := if k = 1 then .error else .accepts 1

def twoBytes : List OutputCall := [.put 0x61, .put 0x62]

/-- The second byte of the buffer fails: the peer has got the first. -/
theorem calls_deliver_failsAtSecond :
    ∃ s e t, (start failsAtSecond).calls twoBytes = ([none, none], s) ∧
      s.call .flush = (e, t) ∧ e ≠ none ∧ t.wire = [0x61] ∧
      t.wire <+: (twoBytes ++ [OutputCall.flush]).flatMap OutputCall.written := by
  refine ⟨_, _, _, rfl, rfl, by decide, rfl, ?_⟩
  exact (calls_deliver failsAtSecond twoBytes .flush rfl (by decide) rfl rfl).1

/-- Flushed again, it gets the first a second time. -/
theorem flush_again_failsAtSecond :
    ∃ s t u, (start failsAtSecond).calls twoBytes = ([none, none], s) ∧
      (∃ e, s.call .flush = (some e, t)) ∧ t.call .flush = (none, u) ∧
      u.wire = [0x61, 0x61, 0x62] ∧
      (∃ n, t.wire = s.wire ++ s.sbuf.take n ∧ u.wire = s.wire ++ s.sbuf.take n ++ s.sbuf) ∧
      u.wire ≠ twoBytes.flatMap OutputCall.written := by
  refine ⟨_, _, _, rfl, ⟨_, rfl⟩, rfl, rfl, ?_⟩
  obtain ⟨⟨n, hfront, -, hwire⟩, hiff⟩ :=
    flush_again_iff failsAtSecond twoBytes rfl (by decide) rfl ⟨_, rfl⟩ rfl rfl
  exact ⟨⟨n, hfront, hwire⟩, fun h => absurd (hiff.mp h) (by decide)⟩

end TcpOutput

end LebStudy
