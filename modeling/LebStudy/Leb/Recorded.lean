import LebStudy.Leb.BuiltEvents
import LebStudy.Receiver.Checkleb
import LebStudy.Receiver.ReadFile

/-!
# From the front-ends to the reports of `checkleb`

The receiver appends each event that it gets to its file, and `checkleb` reads the file. What
is printed for an event is what the front-ends have sent for its trigger: the headers of their
records, in the order of the node list, under a header line that counts them. Behind the last
event its header is printed a second time.
-/

namespace LebStudy

open BigEndian

namespace Deliveries

variable {n : ℕ} {frontEnds : Fin n → FrontEnd} {d : Deliveries frontEnds}

/-! ### The size of an event -/

/-- The records of the contributors. -/
def eventRecords (d : Deliveries frontEnds) (k : ℕ) (who : List (Fin n)) : List RecbeRecord :=
  who.filterMap (d.record? k)

theorem Contributors.map_record? {k : ℕ} {who : List (Fin n)} (h : d.Contributors k who) :
    who.map (d.record? k) = (d.eventRecords k who).map some := by
  have hall := h.delivers
  clear h
  induction who with
  | nil => rfl
  | cons i who ih =>
    obtain ⟨hi, hwho⟩ := List.forall_mem_cons.mp hall
    obtain ⟨r, hr⟩ := Option.isSome_iff_exists.mp hi
    rw [List.map_cons, ih hwho, eventRecords, eventRecords, List.filterMap_cons, hr, List.map_cons]

theorem Contributors.eventBody_eq {k : ℕ} {who : List (Fin n)} (h : d.Contributors k who) :
    d.eventBody k who = (d.eventRecords k who).flatMap RecbeRecord.bytes := by
  have hfragments : who.map (d.fragment k) = (d.eventRecords k who).map RecbeRecord.bytes := by
    have hmap := congrArg (List.map fun r => (r.map RecbeRecord.bytes).getD []) h.map_record?
    rw [List.map_map, List.map_map] at hmap
    exact hmap
  rw [eventBody, List.flatMap_def, hfragments, ← List.flatMap_def]

theorem Contributors.length_records {k : ℕ} {who : List (Fin n)} (h : d.Contributors k who) :
    (d.eventRecords k who).length = who.length := by
  have hlen := congrArg List.length h.map_record?
  rwa [List.length_map, List.length_map, eq_comm] at hlen

/-- A front-end with a record has an id of eight bits, and no other has the same. -/
theorem Contributors.length_le {k : ℕ} {who : List (Fin n)} (h : d.Contributors k who) :
    who.length ≤ 2 ^ 8 := by
  have hnd : (who.map fun i => (frontEnds i).id).Nodup :=
    ((List.nodup_finRange n).sublist h.order).map fun i j hij => d.distinct i j hij
  have hsub : (who.map fun i => (frontEnds i).id) ⊆ List.range (2 ^ 8) := by
    intro id hid
    obtain ⟨i, hi, rfl⟩ := List.mem_map.mp hid
    obtain ⟨r, hr⟩ := Option.isSome_iff_exists.mp (h.delivers i hi)
    rw [List.mem_range, ← d.own i r (d.mem_of_record? hr).1]
    exact r.header.id.toNat_lt
  have hle := (List.subperm_of_subset hnd hsub).length_le
  rwa [List.length_map, List.length_range] at hle

theorem records_bytes_length_le (records : List RecbeRecord) :
    (records.flatMap RecbeRecord.bytes).length ≤ records.length * 2 ^ 17 := by
  induction records with
  | nil => exact Nat.zero_le _
  | cons r records ih =>
    have hsize : RecbeHeader.size = 12 := rfl
    have hlen := r.header.len.toNat_lt
    rw [List.flatMap_cons, List.length_append, RecbeRecord.bytes_length, List.length_cons]
    omega

/-- The body of an event is far from the lengths that its header cannot hold. -/
theorem Contributors.eventBody_length {k : ℕ} {who : List (Fin n)} (h : d.Contributors k who) :
    (d.eventBody k who).length < 2 ^ 30 := by
  have hle := records_bytes_length_le (d.eventRecords k who)
  have hwho := h.length_le
  rw [h.eventBody_eq]
  rw [h.length_records] at hle
  omega

/-! ### The report of an event -/

/-- What `checkleb -r` prints for the event of these front-ends. -/
def report (d : Deliveries frontEnds) (mId k : ℕ) (who : List (Fin n)) : Checkleb.Report where
  header := ⟨lebMagic, (d.eventBody k who).length, mId % 2 ^ 16, who.length,
    if lastOf who then 1 else 0⟩
  recbes := (d.eventRecords k who).map (·.header)

/-- The event is one that `checkleb` can read. -/
def packed (mId : ℕ) {k : ℕ} {who : List (Fin n)} (h : d.Contributors k who) :
    Checkleb.Packed where
  header := d.eventHeader mId k who
  body := d.eventBody k who
  magic_eq := rfl
  length_eq := by
    have hlt := h.eventBody_length
    rw [eventHeader, UInt32.toNat_ofNat']
    exact Nat.mod_eq_of_lt (by omega)
  length_lt := h.eventBody_length

theorem headerLine_eq_report (mId : ℕ) {k : ℕ} {who : List (Fin n)}
    (h : d.Contributors k who) :
    Checkleb.HeaderLine.ofHeader (d.eventHeader mId k who) = (d.report mId k who).header := by
  have hwho := h.length_le
  have hnodes : (d.eventHeader mId k who).nodes.toNat = who.length := by
    rw [eventHeader, UInt16.toNat_ofNat']
    exact Nat.mod_eq_of_lt (by omega)
  have hid : (d.eventHeader mId k who).id.toNat = mId % 2 ^ 16 := by
    show (UInt16.ofNat (mId &&& (2 ^ 16 - 1))).toNat = mId % 2 ^ 16
    rw [UInt16.toNat_ofNat', Nat.and_two_pow_sub_one_eq_mod, Nat.mod_mod]
  have hflag : (d.eventHeader mId k who).flag.toNat =
      if lastOf who then 1 else 0 := by
    rw [eventHeader]
    split <;> rfl
  refine (packed mId h).headerLine_eq.trans ?_
  show (⟨_, _, (d.eventHeader mId k who).id.toNat, (d.eventHeader mId k who).nodes.toNat,
    (d.eventHeader mId k who).flag.toNat⟩ : Checkleb.HeaderLine) = _
  rw [hid, hnodes, hflag]
  rfl

/-- What is reported of it is the report of its contributors. -/
theorem eq_report_of_reported {mId k : ℕ} {who : List (Fin n)} (h : d.Contributors k who)
    {r : Checkleb.Report} (hr : (packed mId h).Reported true r) : r = d.report mId k who := by
  obtain ⟨hheader, -, hrecbes⟩ := hr
  have hwho := h.length_le
  have hnodes : (packed mId h).header.nodes.toNat = (d.eventRecords k who).length := by
    show (UInt16.ofNat who.length).toNat = _
    rw [UInt16.toNat_ofNat', h.length_records]
    exact Nat.mod_eq_of_lt (by omega)
  have hlist : r.recbes = (d.report mId k who).recbes := hrecbes rfl _ h.eventBody_eq hnodes
  have hline : r.header = (d.report mId k who).header := by
    rw [hheader, ← headerLine_eq_report mId h]
    exact (packed mId h).headerLine_eq.symm
  cases r
  subst hline hlist
  rfl

/-! ### A recorded file -/

/-- Reading a file of events, one of them after the other. -/
theorem reading_of_events (mId : ℕ) (memory : Checkleb.Memory)
    {es : List (ℕ × List (Fin n))} (hes : ∀ e ∈ es, d.Contributors e.1 e.2) :
    ∃ last, Checkleb.reading true memory (es.map fun e => d.event mId e.1 e.2).flatten =
        some (es.map (fun e => d.report mId e.1 e.2) ++ [last]) ∧
      ∀ e ∈ es.getLast?, last.header = (d.report mId e.1 e.2).header := by
  generalize hps : es.pmap (fun _ h => packed mId h) hes = ps
  have hbytes : ps.flatMap Checkleb.Packed.bytes =
      (es.map fun e => d.event mId e.1 e.2).flatten := by
    rw [← hps, List.flatMap_def, List.map_pmap]
    exact congrArg List.flatten
      (List.pmap_eq_map (f := fun e : ℕ × List (Fin n) => d.event mId e.1 e.2) hes)
  have hlength : ps.length + 1 < (ps.flatMap Checkleb.Packed.bytes).length + 2 := by
    have hle : ps.length ≤ (ps.flatMap Checkleb.Packed.bytes).length := by
      clear hps hbytes
      induction ps with
      | nil => exact Nat.zero_le _
      | cons p ps ih =>
        rw [List.flatMap_cons, List.length_cons, List.length_append, Checkleb.Packed.bytes,
          List.length_append, PackedEvent.bytes_length, PackedEvent.size]
        omega
    omega
  obtain ⟨reports, last, hloop, hreports, hlast⟩ :=
    Checkleb.outerLoop_eq true (s := ⟨.ofBytes (ps.flatMap Checkleb.Packed.bytes), memory.event,
      memory.ebody, 100000, memory.fresh⟩) (IStream.good_ofBytes _) hlength
  have heq : reports = es.map fun e => d.report mId e.1 e.2 := by
    clear hloop hlast hlength hbytes
    subst hps
    induction es generalizing reports with
    | nil =>
      cases hreports
      rfl
    | cons e es ih =>
      obtain ⟨he, hes'⟩ := List.forall_mem_cons.mp hes
      cases hreports with
      | cons hr hrest => rw [List.map_cons, eq_report_of_reported he hr, ih hes' _ hrest]
  refine ⟨last, ?_, fun e he => ?_⟩
  · rw [← hbytes, ← heq]
    exact hloop
  · have hmem : e ∈ es := List.mem_of_getLast? he
    rw [← headerLine_eq_report mId (hes e hmem)]
    refine hlast _ ?_
    have hget : ps.getLast? = some (packed mId (hes e hmem)) := by
      obtain ⟨front, rfl⟩ := List.getLast?_eq_some_iff.mp he
      rw [← hps, List.pmap_append]
      exact List.getLast?_concat
    rw [hget]
    rfl

/-- For any run of `leb` and any of the events it sends, written to a file one behind the other:
`checkleb -r` reports for each of them what its contributors have sent, and once more the
header of the last one. -/
theorem reading_recorded (mId mMaxEventDepth : ℕ) (actions : List (LebAction n)) (t : Leb n)
    (hn : 0 < n)
    (hrun : Transition.run Leb.step
      (Leb.start frontEnds (.start mId mMaxEventDepth (nodeIds frontEnds))) actions = some t)
    (memory : Checkleb.Memory) (evs : List EbEvent) (hevs : evs ⊆ t.eb.sendLog) :
    ∃ who : EbEvent → List (Fin n),
      (∀ ev ∈ evs, d.Contributors ev.eventNumber (who ev) ∧
        (who ev).length = ev.node.length) ∧
      ∃ last, Checkleb.reading true memory
          (recorded (evs.map fun ev => (packData mId (nodeIds frontEnds) ev).2)) =
            some (evs.map (fun ev => d.report mId ev.eventNumber (who ev)) ++ [last]) ∧
        ∀ ev ∈ evs.getLast?, last.header = (d.report mId ev.eventNumber (who ev)).header := by
  have hstreams := streams_of_run d hrun
  obtain ⟨as, hmessages, hbuilt, -⟩ := Leb.built_of_run frontEnds _ hrun
  have hcomposed : ∀ ev ∈ evs, Composed (messages t) ev := by
    intro ev hev
    rw [messages, ← hmessages]
    exact composed_of_stRunning hbuilt ev (List.mem_append_right _ (hevs hev))
  have hevent : ∀ ev ∈ evs, (packData mId (nodeIds frontEnds) ev).2 =
      d.event mId ev.eventNumber (contributors frontEnds ev) :=
    fun ev hev => packData_eq_event hstreams (hcomposed ev hev) hn mId
  refine ⟨contributors frontEnds, fun ev hev => ⟨contributors_spec hstreams (hcomposed ev hev),
    contributors_length hstreams (hcomposed ev hev)⟩, ?_⟩
  have hes : ∀ e ∈ evs.map fun ev => (ev.eventNumber, contributors frontEnds ev),
      d.Contributors e.1 e.2 := by
    intro e he
    obtain ⟨ev, hev, rfl⟩ := List.mem_map.mp he
    exact contributors_spec hstreams (hcomposed ev hev)
  obtain ⟨last, hreading, hlast⟩ := reading_of_events mId memory hes
  refine ⟨last, ?_, fun ev hev => ?_⟩
  · rw [recorded_eq, List.map_congr_left hevent]
    rw [List.map_map, List.map_map] at hreading
    exact hreading
  · apply hlast (ev.eventNumber, contributors frontEnds ev)
    rw [List.getLast?_map, hev]
    rfl

/-- The one event of two front-ends, recorded and read into memory of zeros. -/
theorem reading_recorded_pair :
    ∃ t, Transition.run Leb.step (Leb.start pair (.start 999 1024 (nodeIds pair))) pairRun =
        some t ∧ t.eb.sendLog.length = 1 ∧
      ∃ who : EbEvent → List (Fin 2), ∃ last,
        Checkleb.reading true ⟨fun _ => 0, fun _ => 0, fun _ _ => 0⟩
            (recorded (t.eb.sendLog.map fun ev => (packData 999 (nodeIds pair) ev).2)) =
          some (t.eb.sendLog.map (fun ev => pairDeliveries.report 999 ev.eventNumber (who ev)) ++
            [last]) := by
  obtain ⟨who, -, last, hreading, -⟩ := reading_recorded (d := pairDeliveries) 999 1024 pairRun _
    (by decide) rfl ⟨fun _ => 0, fun _ => 0, fun _ _ => 0⟩ _ (List.Subset.refl _)
  exact ⟨_, rfl, rfl, who, last, hreading⟩

end Deliveries

end LebStudy
