import LebStudy.FrontEnd.Recbe
import LebStudy.Kol.Output
import LebStudy.Lib.Transition
import Mathlib.Data.List.Nodup

/-!
# The front-end emulator

`drecbe` stands in for a front-end: it waits for a connection and writes a record for each
trigger, until a write fails. The records of a connection are numbered from zero, the triggers
go on over all connections. With `--drop` some triggers are lost on purpose. What a peer can
make out of the bytes it is sent are the records written, the last of them perhaps missing.
-/

namespace LebStudy

open BigEndian

namespace Drecbe

/-- What one turn of the inner loop meets from outside: the number that the publisher sends,
whether `rand() % 100000 < 10`, and `time(NULL)`. -/
structure Turn where
  external : ℤ
  loses : Bool
  time : UInt16
  deriving DecidableEq, Repr

/-- A connection, and the records with which `sock.write` has been called. -/
structure Link where
  sock : TcpOutput
  records : List RecbeRecord

/-- Where `send_data` stands. -/
inductive Pc
  | accept
  | connected (link : Link)
  | ended

/-- What happens next. -/
inductive Action
  /-- `server.accept()` returns a connection on which `send` goes as `outcome` says. -/
  | accept (outcome : ℕ → SendOutcome)
  | acceptFails
  | turn (turn : Turn)

end Drecbe

open Drecbe in
/-- The process `drecbe`. The last three fields are history: the connections that it has closed,
the numbers that `get_trig` has got, and those printed behind `#M lost Trig`. -/
structure Drecbe where
  id : ℤ
  gLoseTrig : Bool
  gExtTrig : Bool
  trigNum : ℕ
  gNsent : UInt16
  pc : Pc
  links : List Link
  taken : List ℤ
  lost : List ℤ

namespace Drecbe

/-- `send_data`, before the first `accept`. -/
def start (id : ℤ) (gLoseTrig gExtTrig : Bool) : Drecbe where
  id := id
  gLoseTrig := gLoseTrig
  gExtTrig := gExtTrig
  trigNum := 0
  gNsent := 0
  pc := .accept
  links := []
  taken := []
  lost := []

/-- The part of `get_trig` under `if (g_lose_trig)`. -/
def drop (s : Drecbe) (turn : Turn) (retval : ℤ) : ℤ :=
  if s.gLoseTrig && turn.loses then -1 * retval else retval

/-- `get_trig`; none where the counter would overflow. -/
def getTrig (s : Drecbe) (turn : Turn) : Option (ℤ × Drecbe) :=
  if s.gExtTrig then
    some (s.drop turn turn.external, { s with taken := s.taken ++ [turn.external] })
  else if s.trigNum < 2 ^ 31 - 1 then
    some (s.drop turn s.trigNum,
      { s with trigNum := s.trigNum + 1, taken := s.taken ++ [(s.trigNum : ℤ)] })
  else none

/-- The 96 words behind the header. -/
def dummyWords : List ℕ :=
  (List.range 48).map (· + 0xa0) ++ (List.range 48).map (0x1000 ||| ·)

def dummyBody : List UInt8 := dummyWords.flatMap (beBytes 2)

theorem dummyBody_length : dummyBody.length = 192 := by
  have hwords : dummyWords.length = 96 := by decide
  rw [dummyBody, List.length_flatMap]
  simp [hwords]

/-- `gen_dummy` into a buffer that is large enough. -/
def genDummy (id trigNum : ℤ) (gNsent time : UInt16) : RecbeRecord where
  header := ⟨0x22, UInt8.ofInt id, gNsent, time, 192, UInt32.ofInt trigNum⟩
  body := dummyBody
  body_length := dummyBody_length

/-- `sock.close(); g_nsent = 0; break` -/
def hangUp (s : Drecbe) (link : Link) : Drecbe :=
  { s with
    pc := .accept, gNsent := 0, links := s.links ++ [{ link with sock := link.sock.close.2 }] }

/-- A record goes out. -/
def send (s : Drecbe) (link : Link) (r : RecbeRecord) : Drecbe :=
  let out := link.sock.write r.bytes
  let link : Link := ⟨out.2, link.records ++ [r]⟩
  match out.1 with
  | some _ => s.hangUp link
  | none => { s with pc := .connected link, gNsent := s.gNsent + 1 }

/-- The inner loop of `send_data`, once. -/
def turn (s : Drecbe) (link : Link) (turn : Turn) : Option Drecbe :=
  if link.sock.badbit then some (s.hangUp link)
  else
    (s.getTrig turn).map fun (trigNum, s) =>
      if 0 ≤ trigNum then s.send link (genDummy s.id trigNum s.gNsent turn.time)
      else { s with lost := s.lost ++ [-1 * trigNum] }

/-- The outer loop goes on; none where an action does not apply. -/
def step (s : Drecbe) : Action → Option Drecbe
  | .accept outcome =>
    match s.pc with
    | .accept => some { s with pc := .connected ⟨.start outcome, []⟩ }
    | .connected _ | .ended => none
  | .acceptFails =>
    match s.pc with
    | .accept => some { s with pc := .ended }
    | .connected _ | .ended => none
  | .turn turn =>
    match s.pc with
    | .connected link => s.turn link turn
    | .accept | .ended => none

/-- The connection that is open. -/
def openLinks (s : Drecbe) : List Link :=
  match s.pc with
  | .connected link => [link]
  | .accept | .ended => []

/-- All connections, in order. -/
def allLinks (s : Drecbe) : List Link := s.links ++ s.openLinks

/-- All records, in order. -/
def records (s : Drecbe) : List RecbeRecord := s.allLinks.flatMap Link.records

/-! ### What a step can do -/

/-- What a step does: a connection begins or ends, or a trigger is lost, or written. -/
inductive StepKind (s t : Drecbe) : Action → Prop
  | accept (outcome : ℕ → SendOutcome) (hs : s.pc = .accept)
      (ht : t = { s with pc := .connected ⟨.start outcome, []⟩ }) : StepKind s t (.accept outcome)
  | acceptFails (hs : s.pc = .accept) (ht : t = { s with pc := .ended }) :
      StepKind s t .acceptFails
  | hangUp (link : Link) (turn : Turn) (hs : s.pc = .connected link)
      (hbad : link.sock.badbit = true) (ht : t = s.hangUp link) : StepKind s t (.turn turn)
  | lose (link : Link) (turn : Turn) (trigNum : ℤ) (s' : Drecbe) (hs : s.pc = .connected link)
      (hgood : link.sock.badbit = false)
      (htrig : s.getTrig turn = some (trigNum, s')) (hneg : trigNum < 0)
      (ht : t = { s' with lost := s.lost ++ [-1 * trigNum] }) : StepKind s t (.turn turn)
  | send (link : Link) (turn : Turn) (trigNum : ℤ) (s' : Drecbe) (hs : s.pc = .connected link)
      (hgood : link.sock.badbit = false)
      (htrig : s.getTrig turn = some (trigNum, s')) (hpos : 0 ≤ trigNum)
      (ht : t = s'.send link (genDummy s.id trigNum s.gNsent turn.time)) :
      StepKind s t (.turn turn)

/-- `get_trig` takes one number, and returns it or, where triggers may be lost, its negative. -/
theorem getTrig_eq_some {s s' : Drecbe} {turn : Turn} {trigNum : ℤ}
    (h : s.getTrig turn = some (trigNum, s')) :
    ∃ k, s' = { s with trigNum := s'.trigNum, taken := s.taken ++ [k] } ∧
      (trigNum = k ∨ s.gLoseTrig = true ∧ trigNum = -k) ∧
      (s.gExtTrig = true → k = turn.external) ∧
      (s.gExtTrig = false → k = s.trigNum ∧ s'.trigNum = s.trigNum + 1 ∧
        s.trigNum < 2 ^ 31 - 1) := by
  have hdrop (k : ℤ) : s.drop turn k = k ∨ s.gLoseTrig = true ∧ s.drop turn k = -k := by
    rw [drop]
    split
    · next hlose =>
      obtain ⟨hlose, -⟩ := Bool.and_eq_true_iff.mp hlose
      right
      exact ⟨hlose, neg_one_mul k⟩
    · left
      rfl
  rw [getTrig] at h
  split at h
  · next hext =>
    cases h
    exact ⟨turn.external, rfl, hdrop _, fun _ => rfl, fun hint => by simp [hext] at hint⟩
  · next hext =>
    split at h
    · next hlt =>
      cases h
      exact ⟨s.trigNum, rfl, hdrop _, fun hint => absurd hint hext, fun _ => ⟨rfl, rfl, hlt⟩⟩
    · cases h

theorem step_kind {s t : Drecbe} {a : Action} (h : s.step a = some t) : StepKind s t a := by
  cases a with
  | accept outcome =>
    rw [step] at h
    cases hpc : s.pc <;> rw [hpc] at h <;> cases h
    exact .accept outcome hpc rfl
  | acceptFails =>
    rw [step] at h
    cases hpc : s.pc <;> rw [hpc] at h <;> cases h
    exact .acceptFails hpc rfl
  | turn turn =>
    rw [step] at h
    cases hpc : s.pc with
    | accept | ended =>
      rw [hpc] at h
      cases h
    | connected link =>
      rw [hpc] at h
      simp only [Drecbe.turn] at h
      split at h
      · next hbad =>
        cases h
        exact .hangUp link turn hpc hbad rfl
      · next hgood =>
        rw [Bool.not_eq_true] at hgood
        obtain ⟨⟨trigNum, s'⟩, htrig, rfl⟩ := Option.map_eq_some_iff.mp h
        obtain ⟨k, hs', -⟩ := getTrig_eq_some htrig
        have hid : s'.id = s.id := by rw [hs']
        have hnsent : s'.gNsent = s.gNsent := by rw [hs']
        have hlost : s'.lost = s.lost := by rw [hs']
        simp only
        split
        · next hpos =>
          rw [hid, hnsent]
          exact .send link turn trigNum s' hpc hgood htrig hpos rfl
        · next hneg =>
          rw [hlost]
          exact .lose link turn trigNum s' hpc hgood htrig (by omega) rfl

/-! ### What is on the wire -/

/-- The records are those of `gen_dummy`, numbered from zero, and all of them but perhaps the
last are on the wire whole. -/
structure Link.Framed (id : ℤ) (l : Link) : Prop where
  made : ∀ k r, l.records[k]? = some r →
    ∃ trigNum time, 0 ≤ trigNum ∧ r = genDummy id trigNum (UInt16.ofNat k) time
  written : l.sock.wire <+: l.records.flatMap RecbeRecord.bytes
  whole : l.records.dropLast.flatMap RecbeRecord.bytes <+: l.sock.wire

/-- On the open connection all records are out while nothing has failed. -/
structure Link.Open (id : ℤ) (gNsent : UInt16) (l : Link) : Prop where
  framed : l.Framed id
  sbuf : l.sock.sbuf = []
  nsent : gNsent = UInt16.ofNat l.records.length
  good : l.sock.badbit = false → l.sock.wire = l.records.flatMap RecbeRecord.bytes

theorem Link.Open.start (id : ℤ) (outcome : ℕ → SendOutcome) :
    (⟨.start outcome, []⟩ : Link).Open id 0 :=
  ⟨⟨fun k r h => by simp at h, List.prefix_rfl, List.prefix_rfl⟩, rfl, rfl, fun _ => rfl⟩

/-- Nothing is in the send buffer, so `close` does not throw, and sends nothing. -/
theorem Link.Open.close {id : ℤ} {gNsent : UInt16} {l : Link} (h : l.Open id gNsent) :
    l.sock.close = (none, { l.sock with closed := true }) := by
  rw [TcpOutput.close, TcpOutput.flush, if_pos h.sbuf]

theorem Link.Open.write {id : ℤ} {gNsent : UInt16} {l : Link} (h : l.Open id gNsent)
    (r : RecbeRecord) : l.sock.Sends r.bytes (l.sock.write r.bytes) := by
  have hne : r.bytes ≠ [] := by
    intro hnil
    have hlen := r.bytes_length
    rw [hnil, RecbeHeader.size] at hlen
    simp at hlen
    omega
  rw [TcpOutput.write, if_neg hne, TcpOutput.flush, if_pos h.sbuf]
  exact l.sock.sendAll_sends r.bytes

/-- The next record goes behind the others, whether or not all of it gets out. -/
theorem Link.Open.send {id trigNum : ℤ} {gNsent time : UInt16} {l : Link} (h : l.Open id gNsent)
    (hgood : l.sock.badbit = false) (htrig : 0 ≤ trigNum) {r : RecbeRecord}
    (hr : r = genDummy id trigNum gNsent time) {e : Option SocketException} {sock : TcpOutput}
    (hwrite : l.sock.write r.bytes = (e, sock)) :
    (⟨sock, l.records ++ [r]⟩ : Link).Framed id ∧ sock.sbuf = [] ∧
      (e = none → (⟨sock, l.records ++ [r]⟩ : Link).Open id (gNsent + 1)) := by
  obtain ⟨⟨n, hwire⟩, hwhole, -, hsbuf, -⟩ := h.write r
  rw [hwrite] at hwire hwhole hsbuf
  simp only at hwire hwhole hsbuf
  rw [h.good hgood] at hwire hwhole
  have hframed : (⟨sock, l.records ++ [r]⟩ : Link).Framed id := by
    refine ⟨fun k r' hk => ?_, ?_, ?_⟩
    · rcases Nat.lt_or_ge k l.records.length with hlt | hge
      · rw [List.getElem?_append_left hlt] at hk
        exact h.framed.made k r' hk
      · rw [List.getElem?_append_right hge, List.getElem?_singleton] at hk
        split at hk
        · next hlast =>
          obtain rfl := Option.some.inj hk
          obtain rfl : k = l.records.length := by omega
          exact ⟨trigNum, time, htrig, by rw [hr, h.nsent]⟩
        · cases hk
    · rw [hwire, List.flatMap_append, List.flatMap_singleton]
      exact (List.prefix_append_right_inj _).mpr (List.take_prefix n _)
    · rw [List.dropLast_concat, hwire]
      exact List.prefix_append _ _
  refine ⟨hframed, hsbuf.trans h.sbuf, fun hnone => ⟨hframed, hsbuf.trans h.sbuf, ?_, fun hstill => ?_⟩⟩
  · rw [h.nsent, List.length_append, List.length_singleton, UInt16.ofNat_add]
    rfl
  · rw [hwhole hnone hstill, List.flatMap_append, List.flatMap_singleton]

theorem Link.Framed.closed {id : ℤ} {l : Link} (h : l.Framed id) (hsbuf : l.sock.sbuf = []) :
    ({ l with sock := l.sock.close.2 } : Link).Framed id := by
  have hclose : l.sock.close.2 = { l.sock with closed := true } := by
    rw [TcpOutput.close, TcpOutput.flush, if_pos hsbuf]
  rw [hclose]
  exact ⟨h.made, h.written, h.whole⟩

/-- The connections, closed or open. -/
structure Wired (id : ℤ) (s : Drecbe) : Prop where
  id_eq : s.id = id
  left : ∀ l ∈ s.links, l.Framed id
  opened : ∀ l, s.pc = .connected l → l.Open id s.gNsent
  idle : s.pc = .accept → s.gNsent = 0

theorem Wired.hangUp {id : ℤ} {s : Drecbe} (hs : s.Wired id) {link : Link}
    (hlink : link.Framed id) (hsbuf : link.sock.sbuf = []) : (s.hangUp link).Wired id where
  id_eq := hs.id_eq
  left l hl := by
    rcases List.mem_append.mp hl with hl | hl
    · exact hs.left l hl
    · obtain rfl := List.mem_singleton.mp hl
      exact hlink.closed hsbuf
  opened l hl := by cases hl
  idle _ := rfl

theorem Wired.step {id : ℤ} {s t : Drecbe} {a : Action} (hs : s.Wired id)
    (h : s.step a = some t) : t.Wired id := by
  cases step_kind h with
  | accept outcome hpc ht =>
    subst ht
    refine ⟨hs.id_eq, hs.left, fun l hl => ?_, fun hl => by cases hl⟩
    cases hl
    rw [hs.idle hpc]
    exact .start id outcome
  | acceptFails hpc ht =>
    subst ht
    exact ⟨hs.id_eq, hs.left, fun l hl => (by cases hl), fun hl => (by cases hl)⟩
  | hangUp link turn hpc hbad ht =>
    subst ht
    have hopen := hs.opened link hpc
    exact hs.hangUp hopen.framed hopen.sbuf
  | lose link turn trigNum s' hpc hgood htrig hneg ht =>
    obtain ⟨k, hs', -⟩ := getTrig_eq_some htrig
    rw [ht, hs']
    exact ⟨hs.id_eq, hs.left, hs.opened, hs.idle⟩
  | send link turn trigNum s' hpc hgood htrig hpos ht =>
    obtain ⟨k, hs', -⟩ := getTrig_eq_some htrig
    have hwired : s'.Wired id := by
      rw [hs']
      exact ⟨hs.id_eq, hs.left, hs.opened, hs.idle⟩
    have hnsent : s'.gNsent = s.gNsent := by rw [hs']
    have hopen := hs.opened link hpc
    rw [hs.id_eq] at ht
    subst ht
    rw [Drecbe.send]
    cases hwrite : link.sock.write (genDummy id trigNum s.gNsent turn.time).bytes with
    | mk e sock =>
      obtain ⟨hframed, hsbuf, hstays⟩ := hopen.send hgood hpos rfl hwrite
      cases e with
      | some e => exact hwired.hangUp hframed hsbuf
      | none =>
        refine ⟨hwired.id_eq, hwired.left, fun l hl => ?_, fun hl => by cases hl⟩
        cases hl
        show Link.Open id (s'.gNsent + 1) _
        rw [hnsent]
        exact hstays rfl

theorem wired_of_run {id : ℤ} {gLoseTrig gExtTrig : Bool} {actions : List Action} {s : Drecbe}
    (hrun : Transition.run step (start id gLoseTrig gExtTrig) actions = some s) : s.Wired id := by
  refine Transition.run_invariant ?_ (fun _ _ _ hs h => hs.step h) hrun
  exact ⟨rfl, fun l hl => (by cases hl), fun l hl => (by cases hl), fun _ => rfl⟩

/-- A peer finds the records in what it is sent, perhaps without the last. -/
theorem Link.Framed.records_wire {id : ℤ} {l : Link} (h : l.Framed id) :
    RecbeRecord.records l.sock.wire = l.records ∨
      RecbeRecord.records l.sock.wire = l.records.dropLast := by
  obtain ⟨tail, htail⟩ := h.whole
  cases hlast : l.records.getLast? with
  | none =>
    have hnil := List.getLast?_eq_none_iff.mp hlast
    have hwire := h.written
    rw [hnil, List.flatMap_nil, List.prefix_nil] at hwire
    left
    rw [hwire, hnil]
    rfl
  | some r =>
    have hsplit : l.records = l.records.dropLast ++ [r] :=
      (List.dropLast_append_getLast? r hlast).symm
    have htail' : tail <+: r.bytes := by
      have hwire := h.written
      rw [← htail, hsplit, List.flatMap_append, List.flatMap_singleton, List.dropLast_concat] at hwire
      exact (List.prefix_append_right_inj _).mp hwire
    by_cases hwhole : tail = r.bytes
    · left
      have hwire : l.sock.wire = l.records.flatMap RecbeRecord.bytes ++ [] := by
        rw [← htail, hwhole]
        conv_rhs => rw [hsplit]
        rw [List.flatMap_append, List.flatMap_singleton, List.append_nil]
      rw [hwire, RecbeRecord.records_eq RecbeRecord.not_complete_nil]
    · right
      rw [← htail]
      exact RecbeRecord.records_eq (RecbeRecord.not_complete_of_prefix htail' hwhole)

/-! ### Triggers -/

/-- The trigger numbers written. -/
def triggers (s : Drecbe) : List ℕ := s.records.map (·.header.trigCount.toNat)

theorem records_connected {s : Drecbe} {link : Link} (hpc : s.pc = .connected link) :
    s.records = s.links.flatMap Link.records ++ link.records := by
  rw [records, allLinks, openLinks, hpc, List.flatMap_append, List.flatMap_singleton]

theorem records_hangUp (s : Drecbe) (link : Link) :
    (s.hangUp link).records = s.links.flatMap Link.records ++ link.records := by
  rw [records, allLinks, List.flatMap_append]
  simp [hangUp, openLinks]

theorem records_send {s : Drecbe} {link : Link} (hpc : s.pc = .connected link)
    (r : RecbeRecord) : (s.send link r).records = s.records ++ [r] := by
  rw [records_connected hpc, List.append_assoc, send]
  split
  · exact records_hangUp _ _
  · exact @records_connected _ ⟨(link.sock.write r.bytes).2, link.records ++ [r]⟩ rfl

theorem send_frame (s : Drecbe) (link : Link) (r : RecbeRecord) :
    (s.send link r).gLoseTrig = s.gLoseTrig ∧ (s.send link r).gExtTrig = s.gExtTrig ∧
      (s.send link r).trigNum = s.trigNum ∧ (s.send link r).taken = s.taken ∧
      (s.send link r).lost = s.lost := by
  rw [send]
  split <;> exact ⟨rfl, rfl, rfl, rfl, rfl⟩

/-- The next turn calls `get_trig`. -/
def asks (s : Drecbe) : Bool :=
  match s.pc with
  | .connected link => !link.sock.badbit
  | .accept | .ended => false

/-- What a step does with triggers: it takes none, or one that it then loses or writes. -/
inductive TriggerKind (s t : Drecbe) : Action → Prop
  | idle (a : Action) (hidle : ∀ turn, a = .turn turn → s.asks = false)
      (taken : t.taken = s.taken) (trigNum : t.trigNum = s.trigNum) (lost : t.lost = s.lost)
      (triggers : t.triggers = s.triggers) : TriggerKind s t a
  | take (turn : Turn) (k : ℤ) (hasks : s.asks = true) (taken : t.taken = s.taken ++ [k])
      (external : s.gExtTrig = true → k = turn.external)
      (own : s.gExtTrig = false → k = s.trigNum ∧ t.trigNum = s.trigNum + 1 ∧
        s.trigNum < 2 ^ 31 - 1)
      (used : 0 ≤ k →
        t.lost = s.lost ∧ t.triggers = s.triggers ++ [(UInt32.ofInt k).toNat] ∨
        s.gLoseTrig = true ∧ 0 < k ∧ t.lost = s.lost ++ [k] ∧ t.triggers = s.triggers) :
      TriggerKind s t (.turn turn)

theorem step_trigger {s t : Drecbe} {a : Action} (h : s.step a = some t) :
    t.gLoseTrig = s.gLoseTrig ∧ t.gExtTrig = s.gExtTrig ∧ TriggerKind s t a := by
  cases step_kind h with
  | accept outcome hpc ht =>
    subst ht
    refine ⟨rfl, rfl, .idle _ (fun turn hturn => by cases hturn) rfl rfl rfl ?_⟩
    simp [triggers, records, allLinks, openLinks, hpc]
  | acceptFails hpc ht =>
    subst ht
    refine ⟨rfl, rfl, .idle _ (fun turn hturn => by cases hturn) rfl rfl rfl ?_⟩
    simp [triggers, records, allLinks, openLinks, hpc]
  | hangUp link turn hpc hbad ht =>
    subst ht
    refine ⟨rfl, rfl, .idle _ (fun _ _ => by simp [asks, hpc, hbad]) rfl rfl rfl ?_⟩
    rw [triggers, triggers, records_hangUp, records_connected hpc]
  | lose link turn trigNum s' hpc hgood htrig hneg ht =>
    obtain ⟨k, hs', hk, hext, hown⟩ := getTrig_eq_some htrig
    have htaken : t.taken = s.taken ++ [k] := by rw [ht, hs']
    have hnum : t.trigNum = s'.trigNum := by rw [ht]
    have hrecords : t.triggers = s.triggers := by
      rw [ht, hs']
      rfl
    refine ⟨by rw [ht, hs'], by rw [ht, hs'], .take turn k (by simp [asks, hpc, hgood]) htaken hext
      (by rw [hnum]; exact hown) fun hpos => ?_⟩
    obtain rfl | ⟨hlose, rfl⟩ := hk
    · omega
    · right
      refine ⟨hlose, by omega, ?_, hrecords⟩
      rw [ht, neg_one_mul, neg_neg]
  | send link turn trigNum s' hpc hgood htrig hpos ht =>
    obtain ⟨k, hs', hk, hext, hown⟩ := getTrig_eq_some htrig
    obtain ⟨hlose, hmode, hnum, htaken, hlost⟩ :=
      send_frame s' link (genDummy s.id trigNum s.gNsent turn.time)
    rw [← ht] at hlose hmode hnum htaken hlost
    have hpc' : s'.pc = .connected link := by rw [hs', hpc]
    have htriggers : t.triggers = s.triggers ++ [(UInt32.ofInt trigNum).toNat] := by
      rw [triggers, ht, records_send hpc', records_connected hpc', triggers,
        records_connected hpc, hs', List.map_append]
      rfl
    refine ⟨hlose.trans (by rw [hs']), hmode.trans (by rw [hs']),
      .take turn k (by simp [asks, hpc, hgood]) (htaken.trans (by rw [hs'])) hext
        (by rw [hnum]; exact hown) fun hk0 => ?_⟩
    obtain rfl : trigNum = k := by
      obtain rfl | ⟨-, rfl⟩ := hk
      · rfl
      · omega
    left
    exact ⟨hlost.trans (by rw [hs']), htriggers⟩

/-- Each trigger taken is written, unless it is lost. -/
structure Accounted (gLoseTrig : Bool) (s : Drecbe) : Prop where
  written : s.triggers = (s.taken.filter (· ∉ s.lost)).map Int.toNat
  lost : ∀ k ∈ s.lost, 0 < k ∧ k ∈ s.taken
  kept : gLoseTrig = false → s.lost = []

/-- The numbers taken are different, and not negative. -/
structure Numbers (taken : List ℤ) : Prop where
  nodup : taken.Nodup
  range : ∀ k ∈ taken, 0 ≤ k ∧ k < 2 ^ 31

theorem Numbers.of_append {taken : List ℤ} {k : ℤ} (h : Numbers (taken ++ [k])) :
    Numbers taken ∧ k ∉ taken ∧ 0 ≤ k ∧ k < 2 ^ 31 := by
  obtain ⟨hnd, hrange⟩ := h
  have hnew := List.nodup_append.mp hnd
  refine ⟨⟨hnew.1, fun j hj => hrange j (List.mem_append_left _ hj)⟩, fun hk => ?_,
    hrange k (by simp)⟩
  exact hnew.2.2 k hk k (by simp) rfl

/-- `htonl` takes a trigger number as it is. -/
theorem ofInt_toNat {k : ℤ} (hk : 0 ≤ k ∧ k < 2 ^ 31) : (UInt32.ofInt k).toNat = k.toNat := by
  simp [UInt32.ofInt]
  omega

section Accounted

variable {gLoseTrig : Bool} {s t : Drecbe} {k : ℤ}

theorem Accounted.lose (hs : s.Accounted true) (hk : 0 < k) (hnew : k ∉ s.taken)
    (htaken : t.taken = s.taken ++ [k]) (hlost : t.lost = s.lost ++ [k])
    (htriggers : t.triggers = s.triggers) : t.Accounted true where
  written := by
    have hsame : s.taken.filter (· ∉ s.lost ++ [k]) = s.taken.filter (· ∉ s.lost) := by
      apply List.filter_congr
      intro j hj
      have hne : j ≠ k := by
        rintro rfl
        exact hnew hj
      simp [hne]
    rw [htriggers, htaken, hlost, List.filter_append, hsame, hs.written]
    simp
  lost j hj := by
    rw [hlost] at hj
    rw [htaken]
    obtain hj | hj := List.mem_append.mp hj
    · obtain ⟨hpos, hmem⟩ := hs.lost j hj
      exact ⟨hpos, List.mem_append_left _ hmem⟩
    · obtain rfl := List.mem_singleton.mp hj
      exact ⟨hk, by simp⟩
  kept h := by cases h

theorem Accounted.write (hs : s.Accounted gLoseTrig) (hnew : k ∉ s.taken)
    (htaken : t.taken = s.taken ++ [k]) (hlost : t.lost = s.lost)
    (htriggers : t.triggers = s.triggers ++ [k.toNat]) : t.Accounted gLoseTrig where
  written := by
    have hkept : k ∉ s.lost := fun hmem => hnew (hs.lost k hmem).2
    rw [htriggers, htaken, hlost, List.filter_append, List.map_append, hs.written]
    simp [hkept]
  lost j hj := by
    obtain ⟨hpos, hmem⟩ := hs.lost j (hlost ▸ hj)
    rw [htaken]
    exact ⟨hpos, List.mem_append_left _ hmem⟩
  kept h := hlost.trans (hs.kept h)

end Accounted

/-- The settings stay, the numbers taken are accounted for, and the emulator's own count up. -/
structure Counted (gLoseTrig gExtTrig : Bool) (s : Drecbe) : Prop where
  lose_eq : s.gLoseTrig = gLoseTrig
  ext_eq : s.gExtTrig = gExtTrig
  accounted : Numbers s.taken → s.Accounted gLoseTrig
  own : gExtTrig = false → s.taken = (List.range s.trigNum).map Int.ofNat ∧ s.trigNum < 2 ^ 31

theorem Counted.step {gLoseTrig gExtTrig : Bool} {s t : Drecbe} {a : Action}
    (hs : s.Counted gLoseTrig gExtTrig) (h : s.step a = some t) :
    t.Counted gLoseTrig gExtTrig := by
  obtain ⟨hlose, hext, hkind⟩ := step_trigger h
  refine ⟨hlose.trans hs.lose_eq, hext.trans hs.ext_eq, fun hnumbers => ?_, fun hown => ?_⟩
  · cases hkind with
    | idle _ hidle taken trigNum lost triggers =>
      obtain ⟨hwritten, hlost, hkept⟩ := hs.accounted (taken ▸ hnumbers)
      refine ⟨?_, ?_, fun hl => lost.trans (hkept hl)⟩
      · rw [triggers, taken, lost]
        exact hwritten
      · rw [lost, taken]
        exact hlost
    | take turn k hasks taken external own used =>
      rw [taken] at hnumbers
      obtain ⟨hbefore, hnew, hpos⟩ := hnumbers.of_append
      have haccounted := hs.accounted hbefore
      obtain ⟨hlost, htriggers⟩ | ⟨hlossy, hk, hlost, htriggers⟩ := used hpos.1
      · rw [ofInt_toNat hpos] at htriggers
        exact haccounted.write hnew taken hlost htriggers
      · rw [hs.lose_eq] at hlossy
        subst hlossy
        exact haccounted.lose hk hnew taken hlost htriggers
  · obtain ⟨htaken, hlt⟩ := hs.own hown
    cases hkind with
    | idle _ hidle taken trigNum lost triggers =>
      rw [taken, trigNum]
      exact ⟨htaken, hlt⟩
    | take turn k hasks taken external own used =>
      obtain ⟨rfl, hnum, hbound⟩ := own (hs.ext_eq.trans hown)
      rw [taken, hnum, htaken, List.range_succ, List.map_append]
      exact ⟨rfl, by omega⟩

theorem counted_start (id : ℤ) (gLoseTrig gExtTrig : Bool) :
    (start id gLoseTrig gExtTrig).Counted gLoseTrig gExtTrig := by
  refine ⟨rfl, rfl, fun _ => ⟨rfl, fun k hk => (by cases hk), fun _ => rfl⟩, fun _ => ⟨rfl, ?_⟩⟩
  exact Nat.two_pow_pos _

theorem counted_of_run {id : ℤ} {gLoseTrig gExtTrig : Bool} {actions : List Action} {s : Drecbe}
    (hrun : Transition.run step (start id gLoseTrig gExtTrig) actions = some s) :
    s.Counted gLoseTrig gExtTrig :=
  Transition.run_invariant (counted_start id gLoseTrig gExtTrig) (fun _ _ _ hs h => hs.step h) hrun

/-- With its own trigger the emulator counts from zero. -/
theorem Counted.numbers {gLoseTrig : Bool} {s : Drecbe} (hs : s.Counted gLoseTrig false) :
    Numbers s.taken := by
  obtain ⟨htaken, hlt⟩ := hs.own rfl
  rw [htaken]
  refine ⟨List.Nodup.map (fun a b hab => Int.ofNat.inj hab) List.nodup_range, fun k hk => ?_⟩
  obtain ⟨j, hj, rfl⟩ := List.mem_map.mp hk
  have hj := List.mem_range.mp hj
  simp only [Int.ofNat_eq_natCast]
  omega

/-! ### Any run -/

section Main

variable (id : ℤ) (gLoseTrig gExtTrig : Bool) (actions : List Action) {s : Drecbe}

/-- On every connection that the emulator has ever had, whenever it broke: the records are
those of `gen_dummy` under the emulator's id, with `sent_num` from zero on, and a peer that cuts
the bytes into records finds just these, if not the last. On the open connection it finds all,
as long as it is good, and `close` does not throw. -/
theorem peer_finds_records
    (hrun : Transition.run step (start id gLoseTrig gExtTrig) actions = some s) :
    (∀ l ∈ s.allLinks,
      (∀ k r, l.records[k]? = some r →
        ∃ trigNum time, 0 ≤ trigNum ∧ r = genDummy id trigNum (UInt16.ofNat k) time) ∧
      (RecbeRecord.records l.sock.wire = l.records ∨
        RecbeRecord.records l.sock.wire = l.records.dropLast)) ∧
    ∀ l ∈ s.openLinks, l.sock.close.1 = none ∧
      (l.sock.badbit = false → RecbeRecord.records l.sock.wire = l.records) := by
  have hwired := wired_of_run hrun
  have hopen : ∀ l ∈ s.openLinks, l.Open id s.gNsent := by
    intro l hl
    cases hpc : s.pc with
    | connected link =>
      rw [openLinks, hpc] at hl
      obtain rfl := List.mem_singleton.mp hl
      exact hwired.opened l hpc
    | accept | ended =>
      rw [openLinks, hpc] at hl
      cases hl
  refine ⟨fun l hl => ?_, fun l hl => ⟨by rw [(hopen l hl).close], fun hgood => ?_⟩⟩
  · have hframed : l.Framed id := by
      rcases List.mem_append.mp hl with hl | hl
      · exact hwired.left l hl
      · exact (hopen l hl).framed
    exact ⟨hframed.made, hframed.records_wire⟩
  · rw [(hopen l hl).good hgood, ← List.append_nil (l.records.flatMap _)]
    exact RecbeRecord.records_eq RecbeRecord.not_complete_nil

/-- With its own trigger the emulator writes each number once and in order over all its
connections, but for those lost on purpose; without `--drop` none are, and the first is never. -/
theorem each_trigger_once
    (hrun : Transition.run step (start id gLoseTrig false) actions = some s) :
    s.triggers = (List.range s.trigNum).filter (fun k : ℕ => (k : ℤ) ∉ s.lost) ∧
      (∀ k ∈ s.lost, 0 < k ∧ k < s.trigNum) ∧ (gLoseTrig = false → s.lost = []) := by
  have hcounted := counted_of_run hrun
  obtain ⟨htaken, -⟩ := hcounted.own rfl
  obtain ⟨hwritten, hlost, hkept⟩ := hcounted.accounted hcounted.numbers
  refine ⟨?_, fun k hk => ?_, hkept⟩
  · rw [hwritten, htaken, List.filter_map, List.map_map]
    exact List.map_id _
  · obtain ⟨hpos, hmem⟩ := hlost k hk
    rw [htaken] at hmem
    obtain ⟨j, hj, rfl⟩ := List.mem_map.mp hmem
    exact ⟨hpos, Int.ofNat_lt.mpr (List.mem_range.mp hj)⟩

end Main

/-- The connection breaks in the third call of `send`. -/
def breaks (k : ℕ) : SendOutcome := if k < 3 then .accepts 150 else .error

/-- Two records, the second of which is cut; then a trigger is lost before the next connection
gets its first. -/
def twoConnections : List Action :=
  let turn (loses : Bool) : Action := .turn ⟨0, loses, 0⟩
  [.accept breaks, turn false, turn false, .accept breaks, turn true, turn false]

set_option maxRecDepth 4000 in
theorem peer_finds_records_twoConnections :
    ∃ s, Transition.run step (start 1 true false) twoConnections = some s ∧
      s.allLinks.map (fun l => (RecbeRecord.records l.sock.wire).length) = [1, 1] ∧
      ∀ l ∈ s.allLinks, RecbeRecord.records l.sock.wire = l.records ∨
        RecbeRecord.records l.sock.wire = l.records.dropLast := by
  refine ⟨_, rfl, rfl, fun l hl => ?_⟩
  exact ((peer_finds_records 1 true false twoConnections rfl).1 l hl).2

set_option maxRecDepth 4000 in
theorem each_trigger_once_twoConnections :
    ∃ s, Transition.run step (start 1 true false) twoConnections = some s ∧ s.lost = [2] ∧
      s.triggers = [0, 1, 3] ∧
      s.triggers = (List.range s.trigNum).filter fun k : ℕ => (k : ℤ) ∉ s.lost := by
  refine ⟨_, rfl, rfl, rfl, ?_⟩
  exact (each_trigger_once 1 true twoConnections rfl).1

end Drecbe

end LebStudy
