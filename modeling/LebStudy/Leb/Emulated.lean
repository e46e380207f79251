import LebStudy.FrontEnd.Drecbe
import LebStudy.Leb.Recorded

/-!
# `leb` in front of emulators

Each front-end is a `drecbe`. What the event builder then hands to
`send_data` is known to the byte, up to the counts and the times in the headers: an event of
trigger `k` holds the dummy record for `k` of each emulator in it, and no emulator that has lost
`k` is in it. So the complete events are those of the triggers that none has lost.
-/

namespace LebStudy

open Interleaving

variable {n : ℕ}

/-- Emulators that are still connected to the front-end tasks. Their triggers, their own or the
publisher's, increase and fit into the event builder's 28 bits. -/
structure Emulated (frontEnds : Fin n → FrontEnd) where
  gLoseTrig : Fin n → Bool
  gExtTrig : Fin n → Bool
  actions : Fin n → List Drecbe.Action
  drecbe : Fin n → Drecbe
  link : Fin n → Drecbe.Link
  run : ∀ i, Transition.run Drecbe.step (.start (frontEnds i).id (gLoseTrig i) (gExtTrig i))
    (actions i) = some (drecbe i)
  connected : ∀ i, (drecbe i).pc = .connected (link i)
  good : ∀ i, (link i).sock.badbit = false
  bytes : ∀ i, (frontEnds i).socket.bytes = (link i).sock.wire
  real : ∀ i, (frontEnds i).isDummy = false
  clean : ∀ i, (frontEnds i).socket.Clean
  stays_open : ∀ i, (frontEnds i).socket.closed = false
  fits : ∀ i, 204 ≤ (frontEnds i).bufsize
  id_lt : ∀ i, (frontEnds i).id < 2 ^ 8
  distinct : ∀ i j, (frontEnds i).id = (frontEnds j).id → i = j
  increasing : ∀ i, (drecbe i).taken.Pairwise (· < ·)
  numbered : ∀ i, ∀ k ∈ (drecbe i).taken, 0 ≤ k ∧ k < 2 ^ 28

namespace Emulated

variable {frontEnds : Fin n → FrontEnd} (e : Emulated frontEnds)

/-- The record is the dummy record of emulator `i` for trigger `k`. -/
def IsDummy (frontEnds : Fin n → FrontEnd) (i : Fin n) (k : ℕ) (r : RecbeRecord) : Prop :=
  ∃ sentNum time, r = Drecbe.genDummy (frontEnds i).id k sentNum time

/-- The emulator has written trigger `k`. -/
def Writes (i : Fin n) (k : ℕ) : Prop :=
  (k : ℤ) ∈ (e.drecbe i).taken ∧ (k : ℤ) ∉ (e.drecbe i).lost

theorem opened (i : Fin n) : (e.link i).Open (frontEnds i).id (e.drecbe i).gNsent :=
  (Drecbe.wired_of_run (e.run i)).opened _ (e.connected i)

theorem numbers (i : Fin n) : Drecbe.Numbers (e.drecbe i).taken := by
  refine ⟨(e.increasing i).imp fun hlt => hlt.ne, fun k hk => ?_⟩
  have hrange := e.numbered i k hk
  omega

theorem triggers_eq (i : Fin n) : (e.drecbe i).triggers =
    ((e.drecbe i).taken.filter (· ∉ (e.drecbe i).lost)).map Int.toNat :=
  ((Drecbe.counted_of_run (e.run i)).accounted (e.numbers i)).written

theorem records_eq (i : Fin n) : (e.drecbe i).records =
    (e.drecbe i).links.flatMap Drecbe.Link.records ++ (e.link i).records :=
  Drecbe.records_connected (e.connected i)

/-- The number of a record written is one that its emulator has written. -/
theorem writes_of_mem {i : Fin n} {r : RecbeRecord} (hr : r ∈ (e.link i).records) :
    e.Writes i r.header.trigCount.toNat := by
  have hmem : r.header.trigCount.toNat ∈ (e.drecbe i).triggers := by
    rw [Drecbe.triggers, e.records_eq]
    exact List.mem_map_of_mem (List.mem_append_right _ hr)
  rw [e.triggers_eq] at hmem
  obtain ⟨k, hk, htrig⟩ := List.mem_map.mp hmem
  obtain ⟨htaken, hkept⟩ := List.mem_filter.mp hk
  have hpos := (e.numbered i k htaken).1
  rw [Writes, ← htrig, Int.toNat_of_nonneg hpos]
  exact ⟨htaken, of_decide_eq_true hkept⟩

theorem lt_of_mem {i : Fin n} {r : RecbeRecord} (hr : r ∈ (e.link i).records) :
    r.header.trigCount.toNat < 2 ^ 28 := by
  have hlt := (e.numbered i _ (e.writes_of_mem hr).1).2
  omega

theorem isDummy_of_mem {i : Fin n} {r : RecbeRecord} (hr : r ∈ (e.link i).records) :
    IsDummy frontEnds i r.header.trigCount.toNat r := by
  obtain ⟨k, hk⟩ := List.mem_iff_getElem?.mp hr
  obtain ⟨trigNum, time, -, hmade⟩ := (e.opened i).framed.made k r hk
  have htrig : UInt32.ofInt trigNum = UInt32.ofInt (r.header.trigCount.toNat : ℤ) := by
    apply UInt32.toNat_inj.mp
    have hlt := e.lt_of_mem hr
    have hsame : r.header.trigCount.toNat = (UInt32.ofInt trigNum).toNat :=
      congrArg (·.header.trigCount.toNat) hmade
    have hback : (UInt32.ofInt (r.header.trigCount.toNat : ℤ)).toNat =
        r.header.trigCount.toNat := by
      rw [Drecbe.ofInt_toNat (by omega), Int.toNat_natCast]
    rw [hback, hsame]
  refine ⟨UInt16.ofNat k, time, hmade.trans ?_⟩
  rw [Drecbe.genDummy, htrig]
  rfl

/-- The emulators deliver what they have written on the connections they have. -/
def deliveries : Deliveries frontEnds where
  records i := (e.link i).records
  real := e.real
  clean := e.clean
  stays_open := e.stays_open
  bytes i := (e.bytes i).trans ((e.opened i).good (e.good i))
  fits i r hr := by
    obtain ⟨sentNum, time, hdummy⟩ := e.isDummy_of_mem hr
    rw [hdummy]
    exact e.fits i
  distinct := e.distinct
  own i r hr := by
    obtain ⟨sentNum, time, hdummy⟩ := e.isDummy_of_mem hr
    have hid := e.id_lt i
    rw [hdummy]
    show (UInt8.ofInt ((frontEnds i).id : ℤ)).toNat = (frontEnds i).id
    simp [UInt8.ofInt]
    omega
  numbered i r hr := e.lt_of_mem hr
  increasing i := by
    have hall : (e.drecbe i).triggers.Pairwise (· < ·) := by
      rw [e.triggers_eq, List.pairwise_map]
      refine ((e.increasing i).filter _).imp_of_mem fun {j k} hj hk hlt => ?_
      have hpos := (e.numbered i j (List.mem_filter.mp hj).1).1
      omega
    rw [Drecbe.triggers, List.pairwise_map, e.records_eq] at hall
    exact (List.pairwise_append.mp hall).2.1

/-- The header of an event that holds the dummy records of these front-ends. -/
def header (mId : ℕ) (who : List (Fin n)) : PackedEvent where
  magic := lebMagic
  length := UInt32.ofNat (who.length * 204)
  id := UInt16.ofNat (mId &&& 0xffff)
  nodes := UInt16.ofNat who.length
  flag := if Deliveries.lastOf who then 1 else 0

/-- The record that is delivered for a trigger is the dummy record for it. -/
theorem record?_spec {k : ℕ} {i : Fin n} (h : (e.deliveries.record? k i).isSome) :
    e.Writes i k ∧ ∃ r, e.deliveries.record? k i = some r ∧ IsDummy frontEnds i k r := by
  obtain ⟨r, hr⟩ := Option.isSome_iff_exists.mp h
  obtain ⟨hmem, rfl⟩ := e.deliveries.mem_of_record? hr
  exact ⟨e.writes_of_mem hmem, r, hr, e.isDummy_of_mem hmem⟩

/-- The record of emulator `i` in the event of trigger `k`. -/
def recordOf (k : ℕ) (i : Fin n) : RecbeRecord :=
  (e.deliveries.record? k i).getD (.empty 0 0)

theorem recordOf_spec {k : ℕ} {i : Fin n} (h : (e.deliveries.record? k i).isSome) :
    IsDummy frontEnds i k (e.recordOf k i) ∧
      e.deliveries.fragment k i = (e.recordOf k i).bytes := by
  obtain ⟨-, r, hr, hdummy⟩ := e.record?_spec h
  rw [recordOf, Deliveries.fragment, hr]
  exact ⟨hdummy, rfl⟩

theorem isDummy_bytes_length {i : Fin n} {k : ℕ} {r : RecbeRecord} (h : IsDummy frontEnds i k r) :
    r.bytes.length = 204 := by
  obtain ⟨sentNum, time, rfl⟩ := h
  rw [RecbeRecord.bytes_length]
  rfl

/-- The event of these emulators, to the byte. -/
theorem event_eq (mId : ℕ) {k : ℕ} {who : List (Fin n)} (h : e.deliveries.Contributors k who) :
    e.deliveries.event mId k who =
      (header mId who).bytes ++ who.flatMap fun i => (e.recordOf k i).bytes := by
  have hbody : e.deliveries.eventBody k who = who.flatMap fun i => (e.recordOf k i).bytes := by
    rw [Deliveries.eventBody, List.flatMap_def, List.flatMap_def]
    apply congrArg List.flatten
    apply List.map_congr_left
    intro i hi
    exact (e.recordOf_spec (h.delivers i hi)).2
  have hlength : (e.deliveries.eventBody k who).length = who.length * 204 := by
    have hsize : who.map (fun i => (e.recordOf k i).bytes.length) = who.map fun _ => 204 := by
      apply List.map_congr_left
      intro i hi
      exact isDummy_bytes_length (e.recordOf_spec (h.delivers i hi)).1
    rw [hbody, List.length_flatMap, hsize]
    simp
  rw [Deliveries.event, Deliveries.eventHeader, hlength, hbody]
  rfl

/-! ### Over a run -/

section Main

variable (mId mMaxEventDepth : ℕ) (actions : List (LebAction n)) (t : Leb n)

/-- In any run of `leb`, with any evictions and whatever is destroyed: an event sent holds, behind
its header, the dummy record for its trigger of each emulator in it, each of which has written
that trigger. All emulators are in a complete event, so its trigger is one that none has lost. -/
theorem emulated_events (hn : 0 < n)
    (hrun : Transition.run Leb.step
      (Leb.start frontEnds (.start mId mMaxEventDepth (nodeIds frontEnds))) actions = some t) :
    ∀ ev ∈ t.eb.sendLog, ∃ who, ∃ record : Fin n → RecbeRecord,
      who.Sublist (List.finRange n) ∧ who.length = ev.node.length ∧
        (∀ i ∈ who, e.Writes i ev.eventNumber ∧ IsDummy frontEnds i ev.eventNumber (record i)) ∧
        (packData mId (nodeIds frontEnds) ev).2 =
          (header mId who).bytes ++ (who.flatMap fun i => (record i).bytes) ∧
        (ev.Complete (nodeIds frontEnds) → ∀ i, e.Writes i ev.eventNumber) := by
  intro ev hev
  have hstreams := Deliveries.streams_of_run e.deliveries hrun
  obtain ⟨as, hmessages, hbuilt, -⟩ := Leb.built_of_run frontEnds _ hrun
  have hcomposed : Composed (Deliveries.messages t) ev := by
    rw [Deliveries.messages, ← hmessages]
    exact composed_of_stRunning hbuilt ev (List.mem_append_right _ hev)
  have hwho := Deliveries.contributors_spec hstreams hcomposed
  have hlen := Deliveries.contributors_length hstreams hcomposed
  have hwrites : ∀ i ∈ Deliveries.contributors frontEnds ev, e.Writes i ev.eventNumber :=
    fun i hi => (e.record?_spec (hwho.delivers i hi)).1
  refine ⟨Deliveries.contributors frontEnds ev, e.recordOf ev.eventNumber, hwho.order, hlen,
    fun i hi => ⟨hwrites i hi, (e.recordOf_spec (hwho.delivers i hi)).1⟩, ?_,
    fun hcomplete i => ?_⟩
  · rw [Deliveries.packData_eq_event hstreams hcomposed hn mId]
    exact e.event_eq mId hwho
  · have hall : Deliveries.contributors frontEnds ev = List.finRange n := by
      rw [EbEvent.Complete, nodeIds, List.length_map, ← hlen] at hcomplete
      exact hwho.order.eq_of_length_le hcomplete
    apply hwrites
    rw [hall]
    exact List.mem_finRange i

end Main

/-! ### Two emulators -/

/-- The connection takes all that it is given. -/
def takesAll (_ : ℕ) : SendOutcome := .accepts 1000

/-- The second emulator loses the second of its triggers. -/
def pairActions : List Drecbe.Action :=
  let turn (loses : Bool) : Drecbe.Action := .turn ⟨0, loses, 0⟩
  [.accept takesAll, turn false, turn true, turn false]

def pairDrecbe (i : Fin 2) : Drecbe :=
  (Transition.run Drecbe.step (.start (i + 1) (i.val == 1) false) pairActions).getD
    (.start 0 false false)

def pairLink (i : Fin 2) : Drecbe.Link :=
  (pairDrecbe i).openLinks.headD ⟨.start takesAll, []⟩

def pair (i : Fin 2) : FrontEnd where
  id := i + 1
  isDummy := false
  bufsize := 256
  socket := ⟨Socket.unread (pairLink i).sock.wire [], false⟩

set_option maxRecDepth 8000 in
theorem pair_connected : ∀ i : Fin 2,
    Transition.run Drecbe.step (.start (pair i).id (i.val == 1) false)
      pairActions = some (pairDrecbe i) ∧
    (pairDrecbe i).pc = .connected (pairLink i) ∧ (pairLink i).sock.badbit = false :=
  Fin.forall_fin_two.mpr ⟨⟨rfl, rfl, rfl⟩, ⟨rfl, rfl, rfl⟩⟩

set_option maxRecDepth 8000 in
theorem pair_emulated : ∃ e : Emulated pair, e.drecbe = pairDrecbe := by
  refine ⟨{
    gLoseTrig := fun i => i.val == 1
    gExtTrig := fun _ => false
    actions := fun _ => pairActions
    drecbe := pairDrecbe
    link := pairLink
    run := fun i => (pair_connected i).1
    connected := fun i => (pair_connected i).2.1
    good := fun i => (pair_connected i).2.2
    bytes := fun _ => (Socket.bytes_unread _ _).trans (List.append_nil _)
    real := fun _ => rfl
    clean := fun _ => by simp [Socket.Clean, pair, Socket.mem_unread]
    stays_open := fun _ => rfl
    fits := fun _ => by simp [pair]
    id_lt := fun i => ?_
    distinct := fun i j h => ?_
    increasing := by decide
    numbered := by decide }, rfl⟩
  · simp only [pair]
    omega
  · simp only [pair, add_left_inj] at h
    exact Fin.ext h

set_option maxRecDepth 8000 in
/-- The first event of the two. -/
theorem emulated_events_pair :
    ∃ t, Transition.run Leb.step (Leb.start pair (.start 999 1024 (nodeIds pair)))
        Deliveries.pairRun = some t ∧ t.eb.sendLog.map (·.eventNumber) = [0] ∧
      ∀ ev ∈ t.eb.sendLog, ev.Complete (nodeIds pair) → ∀ i,
        (ev.eventNumber : ℤ) ∈ (pairDrecbe i).taken ∧
          (ev.eventNumber : ℤ) ∉ (pairDrecbe i).lost := by
  refine ⟨_, rfl, rfl, fun ev hev => ?_⟩
  obtain ⟨e, he⟩ := pair_emulated
  obtain ⟨who, record, -, -, -, -, hcomplete⟩ :=
    emulated_events e 999 1024 Deliveries.pairRun _ (by decide) rfl ev hev
  rw [← he]
  exact hcomplete

end Emulated

end LebStudy
