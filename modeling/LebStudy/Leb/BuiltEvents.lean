import LebStudy.Leb.Deliveries
import LebStudy.EventBuilder.ExactBuild

/-!
# The events that `leb` builds

Over any run of the program, with any interleaving of its threads, any commands and any
evictions: an event that is handed to `send_data` is made of records of the front-ends, of one
trigger, each front-end's at most once and in the order of the node list. Where the messages of
each front-end come in the order of its stream, the triggers that have come in from all
front-ends are handed on complete, each once and in order, unless a record of theirs is evicted.
-/

namespace LebStudy

open BigEndian Interleaving

/-- Of fragments of different nodes, the body of a node is its fragment. -/
theorem nodeBody_of_mem {frs : List (ℕ × List UInt8)} (hnd : (frs.map (·.1)).Nodup) {n : ℕ}
    {data : List UInt8} (h : (n, data) ∈ frs) : nodeBody frs n = data := by
  induction frs with
  | nil => cases h
  | cons fr frs ih =>
    obtain ⟨hfr, hnd⟩ := List.nodup_cons.mp hnd
    rcases List.mem_cons.mp h with rfl | h
    · have hnone : frs.filter (·.1 = n) = [] := by
        rw [List.filter_eq_nil_iff]
        intro x hx hid
        have hid := of_decide_eq_true hid
        exact hfr (List.mem_map.mpr ⟨x, hx, hid⟩)
      rw [nodeBody, List.filter_cons_of_pos (by simp), hnone]
      simp
    · have hne : fr.1 ≠ n := by
        rintro rfl
        exact hfr (List.mem_map.mpr ⟨_, h, rfl⟩)
      have hrest := ih hnd h
      rw [nodeBody] at hrest
      rw [nodeBody, List.filter_cons_of_neg (by simpa using hne), hrest]

theorem nodeBody_of_notMem {frs : List (ℕ × List UInt8)} {n : ℕ} (h : n ∉ frs.map (·.1)) :
    nodeBody frs n = [] := by
  have hnone : frs.filter (·.1 = n) = [] := by
    rw [List.filter_eq_nil_iff]
    intro x hx hid
    exact h (of_decide_eq_true hid ▸ List.mem_map_of_mem hx)
  rw [nodeBody, hnone]
  rfl

namespace Deliveries

variable {n : ℕ} {frontEnds : Fin n → FrontEnd} (d : Deliveries frontEnds)

/-- The records of these front-ends for trigger `k`, one behind the other. -/
def eventBody (k : ℕ) (who : List (Fin n)) : List UInt8 := who.flatMap (d.fragment k)

/-- The last front-end of the list is among them. -/
def lastOf (who : List (Fin n)) : Bool := (List.finRange n).getLast?.any (· ∈ who)

/-- The header of the event that these front-ends make for trigger `k`; the flag says whether
the last front-end of the list is among them. -/
def eventHeader (mId k : ℕ) (who : List (Fin n)) : PackedEvent where
  magic := lebMagic
  length := UInt32.ofNat (d.eventBody k who).length
  id := UInt16.ofNat (mId &&& 0xffff)
  nodes := UInt16.ofNat who.length
  flag := if lastOf who then 1 else 0

/-- The event, as it is sent. -/
def event (mId k : ℕ) (who : List (Fin n)) : List UInt8 :=
  (d.eventHeader mId k who).bytes ++ d.eventBody k who

/-- These front-ends deliver trigger `k`; they stand in the order of the node list. -/
structure Contributors (k : ℕ) (who : List (Fin n)) : Prop where
  order : who.Sublist (List.finRange n)
  delivers : ∀ i ∈ who, (d.record? k i).isSome

/-- The front-ends that a record has a fragment of. -/
def contributors (frontEnds : Fin n → FrontEnd) (ev : EbEvent) : List (Fin n) :=
  (List.finRange n).filter fun i => (frontEnds i).id ∈ ev.node

section Run

variable {d} {t : Leb n} {ev : EbEvent}

/-- A fragment of a record is the front-end's record of this trigger. -/
theorem mem_fragments (h : Leb.Streams d t) (hev : Composed (messages t) ev)
    {fr : ℕ × List UInt8} (hfr : fr ∈ ev.fragments) :
    ∃ i, fr.1 = (frontEnds i).id ∧ ∃ r, d.record? ev.eventNumber i = some r ∧ fr.2 = r.bytes := by
  obtain ⟨m, hm, rfl⟩ := List.mem_map.mp (hev.fragments.subset hfr)
  obtain ⟨hm, htrig⟩ := List.mem_filter.mp hm
  obtain ⟨i, r, hr, rfl⟩ := mem_messages h hm
  refine ⟨i, d.message_id hr, r, ?_, rfl⟩
  rw [← of_decide_eq_true htrig, d.message_trig hr]
  exact d.record?_of_mem hr

theorem mem_node (hev : Composed (messages t) ev) {k : ℕ} :
    k ∈ ev.node ↔ ∃ fr ∈ ev.fragments, fr.1 = k := by
  have hnode : ev.fragments.map (·.1) = ev.node := List.map_fst_zip hev.blocks.le
  rw [← hnode, List.mem_map]

theorem contributors_spec (h : Leb.Streams d t) (hev : Composed (messages t) ev) :
    d.Contributors ev.eventNumber (contributors frontEnds ev) := by
  refine ⟨List.filter_sublist, fun i hi => ?_⟩
  have hmem := of_decide_eq_true (List.mem_filter.mp hi).2
  obtain ⟨fr, hfr, hid⟩ := (mem_node hev).mp hmem
  obtain ⟨j, hj, r, hrecord, -⟩ := mem_fragments h hev hfr
  rw [d.distinct i j (hid.symm.trans hj), hrecord]
  rfl

/-- `pack_data` copies the contributors' records, in the order of the node list. -/
theorem packBody_eq (h : Leb.Streams d t) (hev : Composed (messages t) ev) :
    packBody (nodeIds frontEnds) ev.fragments =
      d.eventBody ev.eventNumber (contributors frontEnds ev) := by
  have hnode : ev.fragments.map (·.1) = ev.node := List.map_fst_zip hev.blocks.le
  have hnd : (ev.fragments.map (·.1)).Nodup := by
    rw [hnode]
    exact hev.nodup (trigsOnce h)
  have hbody (i : Fin n) : nodeBody ev.fragments (frontEnds i).id =
      if (frontEnds i).id ∈ ev.node then d.fragment ev.eventNumber i else [] := by
    by_cases hmem : (frontEnds i).id ∈ ev.node
    · obtain ⟨fr, hfr, hid⟩ := (mem_node hev).mp hmem
      obtain ⟨j, hj, r, hrecord, hdata⟩ := mem_fragments h hev hfr
      obtain rfl := d.distinct i j (hid.symm.trans hj)
      rw [if_pos hmem, fragment, hrecord, ← hid]
      exact (nodeBody_of_mem hnd hfr).trans hdata
    · rw [if_neg hmem]
      exact nodeBody_of_notMem (hnode ▸ hmem)
  rw [packBody, nodeIds, List.flatMap_map, eventBody, contributors]
  generalize List.finRange n = is
  induction is with
  | nil => rfl
  | cons i is ih =>
    rw [List.flatMap_cons, ih, hbody, List.filter_cons]
    by_cases hmem : (frontEnds i).id ∈ ev.node <;> simp [hmem]

/-- There are as many contributors as fragments. -/
theorem contributors_length (h : Leb.Streams d t) (hev : Composed (messages t) ev) :
    (contributors frontEnds ev).length = ev.node.length := by
  have hperm : ((contributors frontEnds ev).map fun i => (frontEnds i).id).Perm ev.node := by
    have hnd : ((contributors frontEnds ev).map fun i => (frontEnds i).id).Nodup :=
      ((List.nodup_finRange n).filter _).map fun i j hij => d.distinct i j hij
    refine (List.perm_ext_iff_of_nodup hnd (hev.nodup (trigsOnce h))).mpr fun k => ?_
    constructor
    · intro hk
      obtain ⟨i, hi, rfl⟩ := List.mem_map.mp hk
      exact of_decide_eq_true (List.mem_filter.mp hi).2
    · intro hk
      obtain ⟨fr, hfr, hid⟩ := (mem_node hev).mp hk
      obtain ⟨i, hi, -⟩ := mem_fragments h hev hfr
      refine List.mem_map.mpr ⟨i, List.mem_filter.mpr ⟨List.mem_finRange i, ?_⟩, hi ▸ hid⟩
      exact decide_eq_true (hi ▸ hid ▸ hk)
  have hlen := hperm.length_eq
  rwa [List.length_map] at hlen

/-- What is sent for a record is the event of its contributors. -/
theorem packData_eq_event (h : Leb.Streams d t) (hev : Composed (messages t) ev) (hn : 0 < n)
    (mId : ℕ) : (packData mId (nodeIds frontEnds) ev).2 =
      d.event mId ev.eventNumber (contributors frontEnds ev) := by
  have hlast : ((nodeIds frontEnds).getLast?.map fun k => ev.fragments.any (·.1 = k)).getD
      ev.isFullev = lastOf (contributors frontEnds ev) := by
    have hne : List.finRange n ≠ [] := by
      intro hnil
      have hlen := congrArg List.length hnil
      rw [List.length_finRange] at hlen
      simp at hlen
      omega
    rw [lastOf, nodeIds, List.getLast?_map, List.getLast?_eq_some_getLast hne]
    simp only [Option.map_some, Option.getD_some, Option.any_some]
    rw [Bool.eq_iff_iff, List.any_eq_true, decide_eq_true_eq, contributors, List.mem_filter,
      decide_eq_true_eq, mem_node hev]
    simp
  have hdata : ev.data.length = (contributors frontEnds ev).length := by
    rw [contributors_length h hev, hev.blocks]
  rw [packData_eq, packBody_eq h hev, hlast, hdata]
  rfl

/-- Front-end `i` has got through with its record of trigger `k`. -/
def Received (t : Leb n) (k : ℕ) (i : Fin n) : Prop :=
  ∃ p ∈ t.received, p.1.task = i ∧ p.1.message.trig = k

instance (t : Leb n) (k : ℕ) (i : Fin n) : Decidable (Received t k i) :=
  inferInstanceAs (Decidable (∃ p ∈ t.received, _))

theorem full_iff_received (h : Leb.Streams d t) {k : ℕ} :
    Full (nodeIds frontEnds) (messages t) k ↔ ∀ i, Received t k i := by
  have hdelivered (i : Fin n) : Delivered (messages t) (frontEnds i).id k ↔ Received t k i := by
    constructor
    · rintro ⟨m, hm, hid, htrig⟩
      obtain ⟨p, hp, rfl⟩ := List.mem_map.mp hm
      obtain ⟨r, hr, hmessage⟩ := mem_received h (List.mem_map_of_mem hp)
      rw [hmessage, d.message_id hr] at hid
      exact ⟨p, hp, d.distinct _ _ hid, htrig⟩
    · rintro ⟨p, hp, rfl, htrig⟩
      obtain ⟨r, hr, hmessage⟩ := mem_received h (List.mem_map_of_mem hp)
      refine ⟨p.1.message, List.mem_map_of_mem hp, ?_, htrig⟩
      rw [hmessage, d.message_id hr]
  rw [Full, nodeIds, List.forall_mem_map]
  simp [hdelivered]

end Run

/-! ### Over a run -/

section Main

variable (mId mMaxEventDepth : ℕ) (actions : List (LebAction n)) (t : Leb n)

/-- In any run of `leb`, whatever is evicted, destroyed or left behind: no task overruns its
buffer, and every event handed to `send_data` is the event of front-ends that deliver its
trigger, as many as it has fragments. -/
theorem sent_events (hn : 0 < n)
    (hrun : Transition.run Leb.step
      (Leb.start frontEnds (.start mId mMaxEventDepth (nodeIds frontEnds))) actions = some t) :
    (∀ i, (t.tasks i).pc ≠ .overrun) ∧
      ∀ ev ∈ t.eb.sendLog, ∃ who, d.Contributors ev.eventNumber who ∧
        who.length = ev.node.length ∧
        (packData mId (nodeIds frontEnds) ev).2 = d.event mId ev.eventNumber who := by
  have hstreams := streams_of_run d hrun
  obtain ⟨as, hmessages, hbuilt, -⟩ := Leb.built_of_run frontEnds _ hrun
  refine ⟨not_overrun hstreams, fun ev hev => ?_⟩
  have hcomposed : Composed (messages t) ev := by
    rw [messages, ← hmessages]
    exact composed_of_stRunning hbuilt ev (List.mem_append_right _ hev)
  exact ⟨contributors frontEnds ev, contributors_spec hstreams hcomposed,
    contributors_length hstreams hcomposed, packData_eq_event hstreams hcomposed hn mId⟩

/-- A complete event is made of the records of all front-ends, and its trigger has been received
of all of them. In a run in which no task starts anew with messages of its last activation under
way, complete events are handed on once for each trigger and in order; where nothing is evicted
these are exactly the triggers received of all. -/
theorem complete_events (hn : 2 ≤ n)
    (hrun : Transition.run Leb.step
      (Leb.start frontEnds (.start mId mMaxEventDepth (nodeIds frontEnds))) actions = some t) :
    (∀ ev ∈ t.eb.sendLog, ev.Complete (nodeIds frontEnds) →
      (packData mId (nodeIds frontEnds) ev).2 = d.event mId ev.eventNumber (List.finRange n)) ∧
    (∀ k ∈ t.eb.completeNumbers, ∀ i, Received t k i) ∧
    (Transition.Meets Leb.step Leb.ConnectsDrained
        (Leb.start frontEnds (.start mId mMaxEventDepth (nodeIds frontEnds))) actions →
      t.eb.completeNumbers.Pairwise (· < ·) ∧
      (Transition.Meets Leb.step (fun s a => ¬ s.Evicts a)
          (Leb.start frontEnds (.start mId mMaxEventDepth (nodeIds frontEnds))) actions →
        ∀ k, k ∈ t.eb.completeNumbers ↔ ∀ i, Received t k i)) := by
  have hstreams := streams_of_run d hrun
  have hids := id_mem_nodeIds hstreams
  have honce := trigsOnce hstreams
  have hnd := d.nodup_nodeIds
  have hlen : (nodeIds frontEnds).length = n := by
    rw [nodeIds, List.length_map, List.length_finRange]
  obtain ⟨as, hmessages, hbuilt, hevicts⟩ := Leb.built_of_run frontEnds _ hrun
  have hmessages : as.map (·.message) = messages t := hmessages
  have hids' : ∀ a ∈ as, a.message.id ∈ nodeIds frontEnds := by
    rw [← hmessages] at hids
    exact fun a ha => hids _ (List.mem_map_of_mem ha)
  have hreceived : ∀ k ∈ t.eb.completeNumbers, ∀ i, Received t k i := by
    intro k hk
    apply (full_iff_received hstreams).mp
    rw [← hmessages] at honce ⊢
    exact DTeb.full_of_mem_completeNumbers hnd hids' honce hbuilt hk
  refine ⟨fun ev hev hcomplete => ?_, hreceived, fun hdrained => ?_⟩
  · have hcomposed : Composed (messages t) ev := by
      rw [← hmessages]
      exact composed_of_stRunning hbuilt ev (List.mem_append_right _ hev)
    have hwho := contributors_length hstreams hcomposed
    have hsub := (contributors_spec hstreams hcomposed).order
    rw [EbEvent.Complete, hlen, ← hwho] at hcomplete
    rw [packData_eq_event hstreams hcomposed (by omega) mId,
      hsub.eq_of_length_le (by rw [List.length_finRange]; exact hcomplete)]
  · have hord := trigOrdered hstreams (inOrder_of_run hrun hdrained)
    rw [← hmessages] at hord
    refine ⟨DTeb.completeNumbers_of_stRunning hnd (by omega) hids' hord hbuilt, fun hmeets k =>
      ⟨hreceived k, fun hall => ?_⟩⟩
    -- without evictions the record of a full trigger is sent, and it has all fragments
    have hinv := buildInv_of_stRunning hnd (by omega) hids' hord hbuilt (hevicts hmeets)
    have hfull : Full (nodeIds frontEnds) (as.map (·.message)) k := by
      rw [hmessages]
      exact (full_iff_received hstreams).mpr hall
    obtain ⟨ev, hev, rfl⟩ := hinv.sent_full k hfull
    refine List.mem_map_of_mem (List.mem_filter.mpr ⟨hev, decide_eq_true ?_⟩)
    rw [EbEvent.Complete, DTeb.mNodes_of_stRunning hbuilt, (hinv.sent_holds ev hev).node_length]
    rw [← hmessages] at hids
    exact (hord.once.full_iff hnd hids).mp hfull

end Main

/-! ### Two front-ends -/

/-- Two front-ends with the ids 1 and 2, each with one record of trigger 5. -/
def pair (i : Fin 2) : FrontEnd where
  id := i + 1
  isDummy := false
  bufsize := 64
  socket := ⟨Socket.unread (RecbeRecord.empty (UInt8.ofNat (i + 1)) 5).bytes [], false⟩

def pairDeliveries : Deliveries pair where
  records i := [RecbeRecord.empty (UInt8.ofNat (i + 1)) 5]
  real := by decide
  clean i := by simp [Socket.Clean, pair, Socket.mem_unread]
  stays_open := by decide
  bytes := by decide
  fits := by decide
  distinct := by decide
  own := by decide
  numbered := by decide
  increasing i := List.pairwise_singleton _ _

/-- Both tasks send their record, then the event builder takes them in. -/
def pairRun : List (LebAction 2) :=
  let turn (i : Fin 2) : LebAction 2 := .task i ⟨.smInit, fun _ => 0, true, true, 0⟩
  .setState .smRunning ::
    (List.finRange 2).reverse.flatMap
      (fun i => turn i :: .connect i false :: List.replicate 5 (turn i)) ++
    (List.finRange 2).flatMap (fun i => [.eb none id, .eb none id, .eb (some (i, 1)) id])

theorem sent_events_pair :
    ∃ t, Transition.run Leb.step (Leb.start pair (.start 999 1024 (nodeIds pair))) pairRun =
        some t ∧ t.eb.sendLog.length = 1 ∧
      ∀ ev ∈ t.eb.sendLog, ∃ who, pairDeliveries.Contributors ev.eventNumber who ∧
        who.length = ev.node.length ∧
        (packData 999 (nodeIds pair) ev).2 = pairDeliveries.event 999 ev.eventNumber who := by
  refine ⟨_, rfl, rfl, ?_⟩
  exact (sent_events (d := pairDeliveries) 999 1024 pairRun _ (by decide) rfl).2

theorem complete_events_pair :
    ∃ t, Transition.run Leb.step (Leb.start pair (.start 999 1024 (nodeIds pair))) pairRun =
        some t ∧ t.eb.completeNumbers = [5] ∧
      ∀ k, k ∈ t.eb.completeNumbers ↔ ∀ i, Received t k i := by
  refine ⟨_, rfl, rfl, ?_⟩
  exact ((complete_events (d := pairDeliveries) 999 1024 pairRun _ (by decide) rfl).2.2
    (by decide)).2 (by decide)

end Deliveries

end LebStudy
