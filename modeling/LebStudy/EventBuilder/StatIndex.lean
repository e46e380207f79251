import LebStudy.EventBuilder.Representation

/-!
# The index of the statistics table

`disp_throughput` counts an event in `stat_nodes[nodes]`, a table of 110 entries, where
`nodes` comes out of the header of the packed event. In the event builder it is the
number of the record's fragments, which is bounded by the number of nodes. In the
receiver it is whatever the message has there.
-/

namespace LebStudy

open BigEndian

/-- The entries of `stat_nodes`. -/
def statNodesSize : ℕ := 110

/-- `ntohs(pheader->nodes)`, for the memory that `cdata` points to. -/
def statIndex (cdata : Buffer) : ℕ := (PackedEvent.ofBytes (cdata.bytes PackedEvent.size)).nodes.toNat

/-- `stat_nodes[nodes]++` stays in the table. -/
def StatIndexed (cdata : Buffer) : Prop := statIndex cdata < statNodesSize

/-- In memory that holds a message from `pack_data` the index is the number of fragments, as a
16-bit number. -/
theorem statIndex_packData {mId : ℕ} {mNodes : List ℕ} {ev : EbEvent} {cdata : Buffer}
    (h : cdata.Holds (packData mId mNodes ev).2) : statIndex cdata = ev.data.length % 2 ^ 16 := by
  rw [packData_eq, Buffer.holds_append] at h
  rw [statIndex, PackedEvent.ofBytes_of_holds h.1]
  exact UInt16.toNat_ofNat'

/-! ### In the receiver -/

theorem statIndex_eq (cdata : Buffer) : statIndex cdata = beNat [cdata 10, cdata 11] := by
  have hoffsets : ((List.range PackedEvent.size).drop 10).take 2 = [10, 11] := by decide
  have hbytes : ((cdata.bytes PackedEvent.size).drop 10).take 2 = [cdata 10, cdata 11] := by
    rw [Buffer.bytes, ← List.map_drop, ← List.map_take, hoffsets]
    rfl
  have hlt : beNat [cdata 10, cdata 11] < 2 ^ 16 := by simpa using beNat_lt [cdata 10, cdata 11]
  rw [statIndex, PackedEvent.ofBytes, hbytes]
  exact UInt16.toNat_ofNat_of_lt' hlt

/-- Where a message lies in memory, so do its bytes. -/
theorem apply_of_holds {message : List UInt8} {cdata : Buffer} (h : cdata.Holds message) {i : ℕ}
    (hi : i < message.length) : cdata i = message.getD i 0 := by
  have hbyte : (cdata.bytes message.length).getD i 0 = cdata i := by
    simp [Buffer.bytes, hi]
  rw [← hbyte, h]

/-- A message keeps the index in the table, whatever lies behind it in memory, exactly if it has
the field and the field is below 110. -/
theorem statIndexed_message_iff (message : List UInt8) :
    (∀ cdata : Buffer, cdata.Holds message → StatIndexed cdata) ↔
      12 ≤ message.length ∧
        beNat [message.getD 10 0, message.getD 11 0] < statNodesSize := by
  have hfield {cdata : Buffer} (h : cdata.Holds message) (hlen : 12 ≤ message.length) :
      statIndex cdata = beNat [message.getD 10 0, message.getD 11 0] := by
    rw [statIndex_eq, apply_of_holds h (by omega), apply_of_holds h (by omega)]
  constructor
  · intro h
    by_cases hlen : 12 ≤ message.length
    · have hheld := Buffer.holds_store (fun _ => 0) message
      exact ⟨hlen, hfield hheld hlen ▸ h _ hheld⟩
    · -- the second byte of the field lies behind the message
      have hlast : Buffer.store (fun _ => 0xff) message 11 = 0xff := Buffer.store_of_le (by omega)
      have hindex := h _ (Buffer.holds_store (fun _ => 0xff) message)
      have hsmall : beNat [(0xff : UInt8)] = 255 := by decide
      rw [StatIndexed, statIndex_eq, hlast, beNat, hsmall, statNodesSize] at hindex
      omega
  · rintro ⟨hlen, hlt⟩ cdata hheld
    rw [StatIndexed, hfield hheld hlen]
    exact hlt

/-! ### In the event builder -/

namespace DTeb

/-- Each event handed to `send_data` in the run keeps the index in the table. -/
def SendsIndexed (s : DTeb) : Prop :=
  ∀ ev ∈ s.sendLog, ∀ cdata : Buffer, cdata.Holds (packData s.mId s.mNodes ev).2 →
    StatIndexed cdata

/-- The numbers of fragments, where there may be no node at all: one that arrives for a record
then completes it. -/
structure FragmentsBounded (s : DTeb) : Prop where
  blocks : ∀ ev ∈ s.mEvents, ev.node.length = ev.data.length
  kept : ∀ ev ∈ s.mEvents, ev.data.length < max s.mNodes.length 2
  sent : ∀ ev ∈ s.sendLog, ev.data.length ≤ max s.mNodes.length 2

theorem FragmentsBounded.step {s : DTeb} (h : FragmentsBounded s) (hbuf : BufferInv s)
    (a : Arrival) : FragmentsBounded (s.step a) := by
  have hkept : ∀ x ∈ (s.step a).mEvents,
      x.node.length = x.data.length ∧ x.data.length < max s.mNodes.length 2 := by
    intro x hx
    rcases mem_events_cases hbuf hx with
      ⟨ev, hev, -, isFullev, rfl⟩ | ⟨ev, hev, -, hshort, rfl⟩ | ⟨-, -, rfl⟩
    · exact ⟨h.blocks ev hev, h.kept ev hev⟩
    · have hblocks := h.blocks ev hev
      simp only [EbEvent.push, List.length_append, List.length_singleton]
      omega
    · refine ⟨rfl, ?_⟩
      show 1 < max s.mNodes.length 2
      omega
  refine ⟨fun x hx => (hkept x hx).1, fun x hx => (hkept x hx).2, fun x hx => ?_⟩
  show x.data.length ≤ max s.mNodes.length 2
  cases List.mem_append.mp hx with
  | inl hx => exact h.sent x hx
  | inr hx =>
    rcases mem_sent_cases hbuf hx with ⟨ev, hev, -, rfl⟩ | ⟨ev, hev, -, -, rfl⟩ | ⟨-, rfl⟩
    · exact (h.kept x hev).le
    · have hlt := h.kept ev hev
      simp only [EbEvent.push, List.length_append, List.length_singleton]
      omega
    · show 1 ≤ max s.mNodes.length 2
      omega

section Run

variable {mId mMaxEventDepth : ℕ} {mNodes : List ℕ} {as : List Arrival} {t : DTeb}

theorem fragmentsBounded_of_stRunning
    (hrun : stRunning (start mId mMaxEventDepth mNodes) as = some t) :
    FragmentsBounded t ∧ t.mId = mId ∧ t.mNodes = mNodes := by
  have hinv : BufferInv t ∧ FragmentsBounded t ∧ t.mId = mId ∧ t.mNodes = mNodes := by
    refine Transition.run_invariant (I := fun t => BufferInv t ∧ FragmentsBounded t ∧
      t.mId = mId ∧ t.mNodes = mNodes) ?_ ?_ hrun
    · refine ⟨bufferInv_start mId mMaxEventDepth mNodes, ?_, rfl, rfl⟩
      constructor <;> simp [start]
    · rintro s a _ ⟨hbuf, hfragments, hid, hnodes⟩ ⟨⟩
      exact ⟨hbuf.step a, hfragments.step hbuf a, hid, hnodes⟩
  exact hinv.2

/-- With no room in the buffer a record is sent with its first fragment. -/
theorem sent_of_no_depth (hrun : stRunning (start mId 0 mNodes) as = some t) :
    t.mEvents = [] ∧ ∀ ev ∈ t.sendLog, ev.data.length = 1 := by
  have hinv : BufferInv t ∧ t.mMaxEventDepth = 0 ∧ t.mEvents.length ≤ t.mMaxEventDepth ∧
      ∀ ev ∈ t.sendLog, ev.data.length = 1 := by
    refine Transition.run_invariant (I := fun t => BufferInv t ∧ t.mMaxEventDepth = 0 ∧
      t.mEvents.length ≤ t.mMaxEventDepth ∧ ∀ ev ∈ t.sendLog, ev.data.length = 1) ?_ ?_ hrun
    · exact ⟨bufferInv_start mId 0 mNodes, rfl, Nat.zero_le _, fun ev hev => by cases hev⟩
    · rintro s a _ ⟨hbuf, hzero, hdepth, hsent⟩ ⟨⟩
      have hempty : s.mEvents = [] := List.length_eq_zero_iff.mp (by omega)
      refine ⟨hbuf.step a, hzero, depth_step hbuf hdepth a, fun x hx => ?_⟩
      cases List.mem_append.mp hx with
      | inl hx => exact hsent x hx
      | inr hx =>
        rcases mem_sent_cases hbuf hx with ⟨ev, hev, -⟩ | ⟨ev, hev, -⟩ | ⟨-, rfl⟩
        · rw [hempty] at hev
          cases hev
        · rw [hempty] at hev
          cases hev
        · rfl
  obtain ⟨-, hzero, hdepth, hsent⟩ := hinv
  exact ⟨List.length_eq_zero_iff.mp (by omega), hsent⟩

/-- Up to 109 nodes, or without room in the buffer, every run keeps to the table. -/
theorem sendsIndexed_of_le (hle : mNodes.length ≤ 109 ∨ mMaxEventDepth = 0)
    (hrun : stRunning (start mId mMaxEventDepth mNodes) as = some t) : SendsIndexed t := by
  intro ev hev cdata hheld
  rw [StatIndexed, statIndex_packData hheld, statNodesSize]
  have hmod := Nat.mod_le ev.data.length (2 ^ 16)
  rcases hle with hle | rfl
  · obtain ⟨hbounded, -, hnodes⟩ := fragmentsBounded_of_stRunning hrun
    have hsent := hbounded.sent ev hev
    rw [hnodes] at hsent
    omega
  · have hsent := (sent_of_no_depth hrun).2 ev hev
    omega

end Run

/-! ### More than 109 nodes -/

/-- The last record in the buffer, behind `front`, has this number and so many fragments. -/
def Holding (s : DTeb) (front : List EbEvent) (number k : ℕ) : Prop :=
  ∃ ev, s.mEvents = front ++ [ev] ∧ ev.eventNumber = number ∧ ev.node.length = k ∧
    ev.data.length = k

section Last

variable {s : DTeb} {a : Arrival} {front : List EbEvent} {k : ℕ}

/-- A fragment for the last record. -/
theorem stRunningBody_last {ev : EbEvent} (hevents : s.mEvents = front ++ [ev])
    (hfront : ∀ x ∈ front, x.eventNumber ≠ a.message.trig)
    (hev : ev.eventNumber = a.message.trig) :
    s.stRunningBody a =
      if s.mNodes.length ≤ ev.node.length + 1 then
        s.flush a.stale front { ev.push a.message with isFullev := true } []
      else appended front (ev.push a.message) [] := by
  have hlen : (ev.push a.message).node.length = ev.node.length + 1 := by simp [EbEvent.push]
  rw [stRunningBody, hevents, matchLoop_append hfront, matchLoop, if_pos hev.symm]
  simp only [List.nil_append, hlen]
  split
  · rfl
  · simp [matchLoop, appended]

/-- A fragment that leaves the record incomplete. -/
theorem Holding.grows (h : Holding s front a.message.trig k)
    (hfront : ∀ x ∈ front, x.eventNumber ≠ a.message.trig) (hroom : k + 1 < s.mNodes.length) :
    Holding (s.step a) front a.message.trig (k + 1) := by
  obtain ⟨ev, hevents, hev, hnode, hdata⟩ := h
  refine ⟨ev.push a.message, ?_, hev, by simp [EbEvent.push, hnode], by simp [EbEvent.push, hdata]⟩
  show (s.stRunningBody a).events = front ++ [ev.push a.message]
  rw [stRunningBody_last hevents hfront hev, if_neg (by omega), appended]

theorem Holding.grows_run (h : Holding s front a.message.trig k)
    (hfront : ∀ x ∈ front, x.eventNumber ≠ a.message.trig) {n : ℕ}
    (hroom : k + n < s.mNodes.length) :
    Holding ((List.replicate n a).foldl step s) front a.message.trig (k + n) := by
  induction n generalizing s k with
  | zero => exact h
  | succ n ih =>
    have hnext := ih (h.grows hfront (by omega)) (show k + 1 + n < s.mNodes.length by omega)
    rwa [Nat.add_assoc, Nat.add_comm 1 n] at hnext

/-- The fragment that completes the record: the record is sent with it, and those in front with a
number up to its own. -/
theorem Holding.completes (h : Holding s front a.message.trig k)
    (hfront : ∀ x ∈ front, x.eventNumber ≠ a.message.trig) (hfull : s.mNodes.length ≤ k + 1) :
    (∃ ev ∈ (s.step a).sendLog, ev.data.length = k + 1) ∧
      ∀ x ∈ front, x.eventNumber ≤ a.message.trig → x ∈ (s.step a).sendLog := by
  obtain ⟨ev, hevents, hev, hnode, hdata⟩ := h
  have hbody := stRunningBody_last hevents hfront hev
  rw [if_pos (by omega)] at hbody
  obtain ⟨-, -, hsent, -⟩ :=
    flush_spec s a.stale front { ev.push a.message with isFullev := true } []
  have hlog : (s.step a).sendLog = s.sendLog ++ (front.filter (·.eventNumber ≤ ev.eventNumber) ++
      [{ ev.push a.message with isFullev := true }]) := by
    rw [step, hbody, hsent]
    rfl
  rw [hlog]
  constructor
  · refine ⟨{ ev.push a.message with isFullev := true }, by simp, ?_⟩
    simp [EbEvent.push, hdata]
  · intro x hx hle
    simp [hx, hev ▸ hle]

/-- A fragment that no record is there for. -/
theorem stRunningBody_fresh (hnew : ∀ x ∈ s.mEvents, x.eventNumber ≠ a.message.trig)
    (hone : s.mNodes.length ≠ 1) :
    s.stRunningBody a = s.evict
      { isNew := true, events := s.mEvents ++ [EbEvent.ofMessage a.message s.created]
        sent := [], erased := [], full := none } := by
  rw [stRunningBody, matchLoop_of_forall_ne hnew, ← newRecord_of_ne_one hone]
  rfl

theorem holding_of_fresh (hnew : ∀ x ∈ s.mEvents, x.eventNumber ≠ a.message.trig)
    (hone : s.mNodes.length ≠ 1) (hdepth : s.mEvents.length < s.mMaxEventDepth) :
    Holding (s.step a) s.mEvents a.message.trig 1 := by
  refine ⟨EbEvent.ofMessage a.message s.created, ?_, rfl, rfl, rfl⟩
  show (s.stRunningBody a).events = _
  rw [stRunningBody_fresh hnew hone, evict_eq_self]
  show (s.mEvents ++ [_]).length ≤ s.mMaxEventDepth
  rwa [List.length_append, List.length_singleton, Nat.add_one_le_iff]

/-- With room for one record only the next one evicts it. -/
theorem sent_of_eviction {ev : EbEvent} (hevents : s.mEvents = [ev])
    (hnew : ev.eventNumber ≠ a.message.trig) (hone : s.mNodes.length ≠ 1)
    (hdepth : s.mMaxEventDepth = 1) : ev ∈ (s.step a).sendLog := by
  have hbody := @stRunningBody_fresh s a (by simpa [hevents] using hnew) hone
  rw [step, hbody, evict, hevents]
  simp [hdepth]

end Last

theorem foldl_step_config (as : List Arrival) (s : DTeb) :
    (as.foldl step s).mNodes = s.mNodes ∧
      (as.foldl step s).mMaxEventDepth = s.mMaxEventDepth := by
  induction as generalizing s with
  | nil => exact ⟨rfl, rfl⟩
  | cons a as ih => exact ih (s.step a)

/-- A fragment of a trigger. -/
def fragment (trig : UInt32) : Arrival := ⟨(RecbeRecord.empty 1 trig).message, fun _ => 0⟩

/-- So many fragments of a trigger that no record is there for. -/
theorem holding_of_fragments {s : DTeb} {a : Arrival} {k : ℕ}
    (hnew : ∀ x ∈ s.mEvents, x.eventNumber ≠ a.message.trig)
    (hdepth : s.mEvents.length < s.mMaxEventDepth) (hk : k + 1 < s.mNodes.length) :
    Holding ((List.replicate (k + 1) a).foldl step s) s.mEvents a.message.trig (k + 1) := by
  have hfirst := holding_of_fresh hnew (by omega) hdepth
  have hgrown := hfirst.grows_run hnew (show 1 + k < (s.step a).mNodes.length by
    rw [Nat.add_comm]
    exact hk)
  rwa [Nat.add_comm 1 k] at hgrown

/-- With 110 nodes and more, and room in the buffer, a record is sent with 110 fragments in some
run: when it is complete, when the next record evicts it, or when the next one is complete. -/
theorem exists_sent_fragments {mId mMaxEventDepth : ℕ} {mNodes : List ℕ}
    (hlen : 110 ≤ mNodes.length) (hdepth : mMaxEventDepth ≠ 0) :
    ∃ as t, stRunning (start mId mMaxEventDepth mNodes) as = some t ∧
      ∃ ev ∈ t.sendLog, ev.data.length = 110 := by
  have hpos : 0 < mMaxEventDepth := Nat.pos_of_ne_zero hdepth
  have h5 : (fragment 5).message.trig = 5 := by decide
  have h6 : (fragment 6).message.trig = 6 := by decide
  have hgrown (k : ℕ) (hk : k + 1 < mNodes.length) :=
    @holding_of_fragments (start mId mMaxEventDepth mNodes) (fragment 5) k (by simp [start])
      hpos hk
  by_cases hfull : mNodes.length = 110
  · refine ⟨List.replicate 109 (fragment 5) ++ [fragment 5], _, stRunning_eq _ _, ?_⟩
    have hconfig := foldl_step_config (List.replicate 109 (fragment 5))
      (start mId mMaxEventDepth mNodes)
    rw [List.foldl_append]
    exact ((hgrown 108 (by omega)).completes (fun x hx => by cases hx)
      (by rw [hconfig.1]; exact hfull.le)).1
  · -- the record of trigger 5 lacks a fragment
    have hheld := hgrown 109 (by omega)
    have hconfig := foldl_step_config (List.replicate 110 (fragment 5))
      (start mId mMaxEventDepth mNodes)
    generalize hs : (List.replicate 110 (fragment 5)).foldl step
      (start mId mMaxEventDepth mNodes) = s at hheld hconfig
    obtain ⟨ev, hevents, hev, -, hdata⟩ := hheld
    obtain ⟨hnodes, hmax⟩ := hconfig
    have hevents : s.mEvents = [ev] := hevents
    have hnodes : s.mNodes = mNodes := hnodes
    have hmax : s.mMaxEventDepth = mMaxEventDepth := hmax
    have hother : ∀ x ∈ s.mEvents, x.eventNumber ≠ (fragment 6).message.trig := by
      rw [hevents, h6]
      intro x hx
      rw [List.mem_singleton.mp hx, hev, h5]
      decide
    by_cases hone : mMaxEventDepth = 1
    · refine ⟨List.replicate 110 (fragment 5) ++ [fragment 6], _, stRunning_eq _ _, ev, ?_, hdata⟩
      rw [List.foldl_append, hs]
      exact sent_of_eviction hevents (hother ev (by simp [hevents])) (by rw [hnodes]; omega)
        (hmax.trans hone)
    · obtain ⟨k, hk⟩ : ∃ k, mNodes.length = k + 2 := ⟨mNodes.length - 2, by omega⟩
      refine ⟨List.replicate 110 (fragment 5) ++ (List.replicate (k + 1) (fragment 6) ++
        [fragment 6]), _, stRunning_eq _ _, ev, ?_, hdata⟩
      have hsecond := @holding_of_fragments s (fragment 6) k hother
        (by rw [hevents, hmax, List.length_singleton]; omega) (by rw [hnodes]; omega)
      have hconfig' := foldl_step_config (List.replicate (k + 1) (fragment 6)) s
      rw [List.foldl_append, List.foldl_append, hs]
      refine (hsecond.completes hother ?_).2 ev (by simp [hevents]) ?_
      · rw [hconfig'.1, hnodes]
        omega
      · rw [hev, h5, h6]
        decide

/-- A node list and a depth keep the index in the table over all runs exactly up to 109 nodes, or
without room in the buffer. -/
theorem sendsIndexed_iff (mId mMaxEventDepth : ℕ) (mNodes : List ℕ) :
    (∀ as t, stRunning (start mId mMaxEventDepth mNodes) as = some t → SendsIndexed t) ↔
      mNodes.length ≤ 109 ∨ mMaxEventDepth = 0 := by
  constructor
  · intro h
    by_contra hnot
    rw [not_or, Nat.not_le] at hnot
    obtain ⟨as, t, hrun, ev, hev, hdata⟩ := exists_sent_fragments hnot.1 hnot.2
    have hheld := Buffer.holds_store (fun _ => 0) (packData t.mId t.mNodes ev).2
    have hindex := h as t hrun ev hev _ hheld
    rw [StatIndexed, statIndex_packData hheld, hdata] at hindex
    exact absurd hindex (by decide)
  · intro hle as t hrun
    exact sendsIndexed_of_le hle hrun

end DTeb

/-- Where `disp_throughput` counts, in the event builder and in the receiver. -/
theorem stat_index_iff (mId mMaxEventDepth : ℕ) (mNodes : List ℕ) (message : List UInt8) :
    ((∀ as t, DTeb.stRunning (DTeb.start mId mMaxEventDepth mNodes) as = some t →
        t.SendsIndexed) ↔
      mNodes.length ≤ 109 ∨ mMaxEventDepth = 0) ∧
    ((∀ cdata : Buffer, cdata.Holds message → StatIndexed cdata) ↔
      12 ≤ message.length ∧
        beNat [message.getD 10 0, message.getD 11 0] < statNodesSize) :=
  ⟨DTeb.sendsIndexed_iff mId mMaxEventDepth mNodes, statIndexed_message_iff message⟩

/-- 110 nodes that all send a fragment of one trigger, and the header of an event of 110
fragments. -/
theorem stat_index_leaves_table :
    (¬ ∀ (mId mMaxEventDepth : ℕ) (mNodes : List ℕ) (as : List Arrival) (t : DTeb),
      DTeb.stRunning (DTeb.start mId mMaxEventDepth mNodes) as = some t → t.SendsIndexed) ∧
    ¬ ∀ (message : List UInt8) (cdata : Buffer), cdata.Holds message → StatIndexed cdata := by
  constructor
  · intro h
    have hle := (DTeb.sendsIndexed_iff 999 1024 (List.range 110)).mp (h 999 1024 (List.range 110))
    rw [List.length_range] at hle
    exact absurd hle (by decide)
  · intro h
    have hfield := (statIndexed_message_iff (PackedEvent.bytes ⟨lebMagic, 0, 999, 110, 1⟩)).mp
      (h _)
    exact absurd hfield (by decide)

end LebStudy
