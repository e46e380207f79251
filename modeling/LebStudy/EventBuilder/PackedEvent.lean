import LebStudy.FrontEnd.Recbe

/-!
# Packed events

`DTeb::pack_data` puts the fragments of one event record behind a `packed_event`
header, in the order of `m_nodes`. The flag of the header says whether the event
is complete; `disp_throughput` counts the events by this flag.
-/

namespace LebStudy

open BigEndian

/-- `struct ebevent`. `serial` is history, not program state: it numbers the
records in the order of their creation, and nothing reads it. -/
structure EbEvent where
  eventNumber : ℕ
  node : List ℕ
  data : List (List UInt8)
  isFullev : Bool
  serial : ℕ
  deriving DecidableEq, Repr

namespace EbEvent

/-- The fragments of a record: `node[j]` with `data[j]`. -/
def fragments (ev : EbEvent) : List (ℕ × List UInt8) := ev.node.zip ev.data

/-- Every node has a fragment in the record. -/
def Covers (mNodes : List ℕ) (ev : EbEvent) : Prop :=
  ∀ n ∈ mNodes, ∃ fr ∈ ev.fragments, fr.1 = n

instance (mNodes : List ℕ) (ev : EbEvent) : Decidable (ev.Covers mNodes) :=
  inferInstanceAs (Decidable (∀ n ∈ mNodes, ∃ fr ∈ ev.fragments, fr.1 = n))

end EbEvent

/-- `struct packed_event`, the fields in host order. -/
structure PackedEvent where
  magic : UInt32
  length : UInt32
  id : UInt16
  nodes : UInt16
  flag : UInt32
  deriving DecidableEq, Repr

namespace PackedEvent

/-- `sizeof(struct packed_event)` -/
def size : ℕ := 16

/-- The header as it lies in memory, in network byte order. -/
def bytes (p : PackedEvent) : List UInt8 :=
  beBytes 4 p.magic.toNat ++ beBytes 4 p.length.toNat ++ beBytes 2 p.id.toNat ++
    beBytes 2 p.nodes.toNat ++ beBytes 4 p.flag.toNat

/-- The fields that a pointer to a header reads out of these bytes. -/
def ofBytes (bs : List UInt8) : PackedEvent where
  magic := UInt32.ofNat (beNat (bs.take 4))
  length := UInt32.ofNat (beNat ((bs.drop 4).take 4))
  id := UInt16.ofNat (beNat ((bs.drop 8).take 2))
  nodes := UInt16.ofNat (beNat ((bs.drop 10).take 2))
  flag := UInt32.ofNat (beNat ((bs.drop 12).take 4))

@[simp] theorem bytes_length (p : PackedEvent) : p.bytes.length = size := by
  simp [bytes, size]

theorem ofBytes_bytes_append (p : PackedEvent) (body : List UInt8) :
    ofBytes (p.bytes ++ body) = p := by
  simp [ofBytes, bytes, List.drop_append, List.drop_eq_nil_of_le]

/-- Where a header lies in memory, a pointer to it reads its fields. -/
theorem ofBytes_of_holds {buf : Buffer} {p : PackedEvent} (h : buf.Holds p.bytes) :
    ofBytes (buf.bytes size) = p := by
  rw [Buffer.Holds, bytes_length] at h
  rw [h, ← List.append_nil p.bytes, ofBytes_bytes_append]

/-- Any sixteen bytes are a header. -/
theorem bytes_ofBytes {bs : List UInt8} (h : bs.length = size) : (ofBytes bs).bytes = bs := by
  obtain ⟨b0, b1, b2, b3, b4, b5, b6, b7, b8, b9, b10, b11, b12, b13, b14, b15, rfl⟩ :
      ∃ b0 b1 b2 b3 b4 b5 b6 b7 b8 b9 b10 b11 b12 b13 b14 b15,
        bs = [b0, b1, b2, b3, b4, b5, b6, b7, b8, b9, b10, b11, b12, b13, b14, b15] := by
    match bs, h with
    | [_, _, _, _, _, _, _, _, _, _, _, _, _, _, _, _], _ =>
      exact ⟨_, _, _, _, _, _, _, _, _, _, _, _, _, _, _, _, rfl⟩
  change beBytes 4 (UInt32.ofNat (beNat [b0, b1, b2, b3])).toNat ++
    beBytes 4 (UInt32.ofNat (beNat [b4, b5, b6, b7])).toNat ++
    beBytes 2 (UInt16.ofNat (beNat [b8, b9])).toNat ++
    beBytes 2 (UInt16.ofNat (beNat [b10, b11])).toNat ++
    beBytes 4 (UInt32.ofNat (beNat [b12, b13, b14, b15])).toNat = _
  rw [beBytes_uint32 rfl, beBytes_uint32 rfl, beBytes_uint16 rfl, beBytes_uint16 rfl,
    beBytes_uint32 rfl]
  rfl

/-- The header at the front of a message is its first sixteen bytes. -/
theorem bytes_append_drop {bs : List UInt8} (h : size ≤ bs.length) :
    bs = (ofBytes bs).bytes ++ bs.drop size := by
  have htake : (ofBytes (bs.take size)).bytes = bs.take size :=
    bytes_ofBytes (by rw [List.length_take, Nat.min_eq_left h])
  have hsplit := ofBytes_bytes_append (ofBytes (bs.take size)) (bs.drop size)
  rw [htake, List.take_append_drop] at hsplit
  rw [hsplit, htake, List.take_append_drop]

/-- `int len = ntohl(length)` -/
def lengthInt (p : PackedEvent) : ℤ := p.length.toBitVec.toInt

/-- `magic` without `ntohl`, as a little-endian host reads it. -/
def magicRaw (p : PackedEvent) : UInt32 := UInt32.ofNat (beNat (beBytes 4 p.magic.toNat).reverse)

theorem lengthInt_lt (p : PackedEvent) : p.lengthInt < 2 ^ 31 := by
  have h := @BitVec.toInt_lt 32 p.length.toBitVec
  simpa [lengthInt] using h

theorem lengthInt_of_lt {p : PackedEvent} (h : p.length.toNat < 2 ^ 31) :
    p.lengthInt = p.length.toNat := by
  have hlt : 2 * p.length.toBitVec.toNat < 2 ^ 32 := by
    simp only [UInt32.toNat_toBitVec]
    omega
  rw [lengthInt, BitVec.toInt_eq_toNat_of_lt hlt]
  rfl

theorem lengthInt_of_le {p : PackedEvent} (h : 2 ^ 31 ≤ p.length.toNat) : p.lengthInt < 0 := by
  have hlt := p.length.toNat_lt
  rw [lengthInt, BitVec.toInt_eq_toNat_cond, if_neg]
  · simp only [UInt32.toNat_toBitVec]
    omega
  · simp only [UInt32.toNat_toBitVec]
    omega

end PackedEvent

def lebMagic : UInt32 := 0xffffffff
def lebFlagComplete : UInt16 := 0x0001
def lebFlagIncomplete : UInt16 := 0x0000

/-! ### `pack_data` -/

/-- What the two loops of `pack_data` change. -/
structure PackState where
  buf : List UInt8
  wcount : ℕ
  isFullev : Bool
  deriving DecidableEq, Repr

/-- The inner loop, over the fragments of the record: copy those of node `n`. The
flag is `is_match`. -/
def copyLoop (n : ℕ) : List (ℕ × List UInt8) → PackState × Bool → PackState × Bool
  | [], st => st
  | fr :: frs, (st, isMatch) =>
    if fr.1 = n then
      copyLoop n frs
        ({ st with buf := st.buf ++ fr.2, wcount := st.wcount + fr.2.length }, true)
    else copyLoop n frs (st, isMatch)

/-- The outer loop, over `m_nodes`: each node overwrites `event.is_fullev`. -/
def packLoop (frs : List (ℕ × List UInt8)) : List ℕ → PackState → PackState
  | [], st => st
  | n :: ns, st =>
    let (st', isMatch) := copyLoop n frs (st, false)
    packLoop frs ns { st' with isFullev := isMatch }

/-- `DTeb::pack_data`: the record with the `is_fullev` that the call leaves behind,
and the bytes of the packed event. -/
def packData (mId : ℕ) (mNodes : List ℕ) (ev : EbEvent) : EbEvent × List UInt8 :=
  let st := packLoop ev.fragments mNodes ⟨[], 0, ev.isFullev⟩
  let fflag : UInt16 := if st.isFullev then 1 else 0
  let fflag := if st.isFullev then fflag ||| lebFlagComplete else fflag ||| lebFlagIncomplete
  let header : PackedEvent :=
    { magic := lebMagic
      length := UInt32.ofNat st.wcount
      id := UInt16.ofNat (mId &&& 0xffff)
      nodes := UInt16.ofNat ev.data.length
      flag := fflag.toUInt32 }
  ({ ev with isFullev := st.isFullev }, header.bytes ++ st.buf)

/-- The body bytes of node `n`, in the order its fragments were received. -/
def nodeBody (frs : List (ℕ × List UInt8)) (n : ℕ) : List UInt8 :=
  ((frs.filter (·.1 = n)).map (·.2)).flatten

theorem copyLoop_eq (n : ℕ) (frs : List (ℕ × List UInt8)) (st : PackState) (isMatch : Bool) :
    copyLoop n frs (st, isMatch) =
      ({ st with buf := st.buf ++ nodeBody frs n
                 wcount := st.wcount + (nodeBody frs n).length },
        isMatch || frs.any (·.1 = n)) := by
  induction frs generalizing st isMatch with
  | nil => simp [copyLoop, nodeBody]
  | cons fr frs ih =>
    by_cases h : fr.1 = n
    · simp [copyLoop, h, ih, nodeBody, Nat.add_assoc]
    · simp [copyLoop, h, ih, nodeBody]

/-- What the loops leave behind: the bodies in the order of the nodes, their total
length, and the match of the last node alone. -/
theorem packLoop_eq (frs : List (ℕ × List UInt8)) (ns : List ℕ) (st : PackState) :
    packLoop frs ns st =
      { buf := st.buf ++ ns.flatMap (nodeBody frs)
        wcount := st.wcount + (ns.flatMap (nodeBody frs)).length
        isFullev := (ns.getLast?.map fun n => frs.any (·.1 = n)).getD st.isFullev } := by
  induction ns generalizing st with
  | nil => simp [packLoop]
  | cons n ns ih =>
    rw [packLoop, copyLoop_eq]
    simp only [ih]
    cases ns <;> simp [Nat.add_assoc, List.getLast?_cons]

/-- The body of the packed event for a record with these fragments. -/
def packBody (mNodes : List ℕ) (frs : List (ℕ × List UInt8)) : List UInt8 :=
  mNodes.flatMap (nodeBody frs)

/-- The packed event as `pack_data` builds it, loops resolved. -/
theorem packData_eq (mId : ℕ) (mNodes : List ℕ) (ev : EbEvent) :
    packData mId mNodes ev =
      let full := (mNodes.getLast?.map fun n => ev.fragments.any (·.1 = n)).getD ev.isFullev
      ({ ev with isFullev := full },
        PackedEvent.bytes
          { magic := lebMagic
            length := UInt32.ofNat (packBody mNodes ev.fragments).length
            id := UInt16.ofNat (mId &&& 0xffff)
            nodes := UInt16.ofNat ev.data.length
            flag := if full then 1 else 0 } ++ packBody mNodes ev.fragments) := by
  simp only [packData, packLoop_eq, packBody, List.nil_append, Nat.zero_add]
  split <;> rename_i h <;> simp [h, lebFlagComplete, lebFlagIncomplete]

/-- `ntohl(flag)` of a packed event. -/
def packedFlag (cdata : List UInt8) : UInt32 := (PackedEvent.ofBytes cdata).flag

/-- The flag tells whether the last node of the list has a fragment, and no more. -/
theorem packedFlag_packData {mId : ℕ} {mNodes : List ℕ} {ev : EbEvent} (h : mNodes ≠ []) :
    packedFlag (packData mId mNodes ev).2 = 1 ↔
      ∃ fr ∈ ev.fragments, fr.1 = mNodes.getLast h := by
  rw [packData_eq, packedFlag]
  simp only [PackedEvent.ofBytes_bytes_append, List.getLast?_eq_some_getLast h, Option.map_some,
    Option.getD_some]
  have hany : ev.fragments.any (·.1 = mNodes.getLast h) = true ↔
      ∃ fr ∈ ev.fragments, fr.1 = mNodes.getLast h := by
    simp only [List.any_eq_true, decide_eq_true_eq]
  rw [← hany]
  cases ev.fragments.any (·.1 = mNodes.getLast h) <;> simp

theorem covers_getLast {mNodes : List ℕ} {ev : EbEvent} (h : mNodes ≠ [])
    (hc : ev.Covers mNodes) : ∃ fr ∈ ev.fragments, fr.1 = mNodes.getLast h :=
  hc _ (List.getLast_mem h)

/-! ### The completeness statistic -/

/-- The static counters of `disp_throughput`. -/
structure Throughput where
  statFlag0 : ℕ
  statFlag1 : ℕ
  statNodes : List ℕ
  wcount : ℤ
  ebcount : ℕ
  deriving DecidableEq, Repr

/-- What `disp_throughput` has at its first call. -/
def Throughput.start : Throughput := ⟨0, 0, List.replicate 110 0, 0, 0⟩

/-- `stat_flag[flag == 1]++; stat_nodes[nodes]++;` -/
def Throughput.count (st : Throughput) (cdata : List UInt8) : Throughput :=
  let nodes := (PackedEvent.ofBytes cdata).nodes.toNat
  let st :=
    if packedFlag cdata = 1 then { st with statFlag1 := st.statFlag1 + 1 }
    else { st with statFlag0 := st.statFlag0 + 1 }
  { st with statNodes := st.statNodes.modify nodes (· + 1) }

/-- `disp_throughput`: the counters after the call, and the counters it prints if it
prints. `elapse` is what the stop watch reads. -/
def dispThroughput (st : Throughput) (cdata : List UInt8) (dataSize elapse : ℤ) :
    Throughput × Option Throughput :=
  let st := st.count cdata
  let st := { st with wcount := st.wcount + dataSize }
  if st.ebcount % 100 = 0 ∧ 10000 ≤ elapse then
    ({ Throughput.start with ebcount := 1 }, some st)
  else ({ st with ebcount := st.ebcount + 1 }, none)

/-- Successive calls, each with the message and the time the stop watch reads. -/
def throughputRun (st : Throughput) (calls : List (List UInt8 × ℤ)) : Throughput :=
  calls.foldl (fun st c => (dispThroughput st c.1 c.1.length c.2).1) st

/-- What these calls print. -/
def throughputPrints : Throughput → List (List UInt8 × ℤ) → List Throughput
  | _, [] => []
  | st, c :: calls =>
    let (st', printed) := dispThroughput st c.1 c.1.length c.2
    printed.toList ++ throughputPrints st' calls

/-- The counters begin at the first call, and behind each printout. -/
def Throughput.Begins (st : Throughput) : Prop :=
  st = .start ∨ ∃ st' cdata dataSize elapse printed,
    dispThroughput st' cdata dataSize elapse = (st, some printed)

/-- A call that prints, and one that does not. -/
theorem dispThroughput_cases (st : Throughput) (cdata : List UInt8) (dataSize elapse : ℤ) :
    dispThroughput st cdata dataSize elapse = ({ Throughput.start with ebcount := 1 },
        some { st.count cdata with wcount := (st.count cdata).wcount + dataSize }) ∨
      dispThroughput st cdata dataSize elapse = ({ st.count cdata with
        wcount := (st.count cdata).wcount + dataSize
        ebcount := (st.count cdata).ebcount + 1 }, none) := by
  rw [dispThroughput]
  split
  · exact .inl rfl
  · exact .inr rfl

theorem Throughput.Begins.statFlag1 {st : Throughput} (h : st.Begins) : st.statFlag1 = 0 := by
  obtain rfl | ⟨st', cdata, dataSize, elapse, printed, h⟩ := h
  · rfl
  · obtain hprint | hnot := dispThroughput_cases st' cdata dataSize elapse
    · rw [hprint] at h
      cases h
      rfl
    · rw [hnot] at h
      cases h

/-- One call counts one event, by its flag alone. -/
theorem Throughput.count_statFlag1 (st : Throughput) (cdata : List UInt8) :
    (st.count cdata).statFlag1 = st.statFlag1 + if packedFlag cdata = 1 then 1 else 0 := by
  by_cases hf : packedFlag cdata = 1 <;> simp [Throughput.count, hf]

theorem dispThroughput_statFlag1 {st : Throughput} {cdata : List UInt8} {dataSize elapse : ℤ}
    (h : (dispThroughput st cdata dataSize elapse).2 = none) :
    (dispThroughput st cdata dataSize elapse).1.statFlag1 =
      st.statFlag1 + if packedFlag cdata = 1 then 1 else 0 := by
  obtain hprint | hnot := dispThroughput_cases st cdata dataSize elapse
  · rw [hprint] at h
    cases h
  · rw [hnot]
    exact st.count_statFlag1 cdata

/-- What is printed counts the event of the call as well. -/
theorem printed_statFlag1 {st printed : Throughput} {cdata : List UInt8} {dataSize elapse : ℤ}
    (h : (dispThroughput st cdata dataSize elapse).2 = some printed) :
    printed.statFlag1 = st.statFlag1 + if packedFlag cdata = 1 then 1 else 0 := by
  obtain hprint | hnot := dispThroughput_cases st cdata dataSize elapse
  · rw [hprint] at h
    obtain rfl := Option.some.inj h
    exact st.count_statFlag1 cdata
  · rw [hnot] at h
    cases h

/-- Between two printouts `stat_flag[1]` is the number of events flagged complete. -/
theorem throughputRun_statFlag1 {st : Throughput} {calls : List (List UInt8 × ℤ)}
    (h : throughputPrints st calls = []) :
    (throughputRun st calls).statFlag1 =
      st.statFlag1 + calls.countP (packedFlag ·.1 = 1) := by
  induction calls generalizing st with
  | nil => rfl
  | cons c calls ih =>
    obtain ⟨hc, hcalls⟩ := List.append_eq_nil_iff.mp h
    have hnext : (throughputRun (dispThroughput st c.1 c.1.length c.2).1 calls).statFlag1 = _ :=
      ih hcalls
    rw [dispThroughput_statFlag1 (Option.toList_eq_nil_iff.mp hc)] at hnext
    rw [throughputRun, List.foldl_cons, ← throughputRun, hnext, List.countP_cons]
    by_cases hf : packedFlag c.1 = 1
    · simp only [hf, if_true, decide_true]
      omega
    · simp [hf]

/-! ### When the flag tells the truth -/

/-- If the last node of the list has a fragment, every node has one. -/
def EbEvent.LastNodeDecides (mNodes : List ℕ) (ev : EbEvent) : Prop :=
  (∀ n ∈ mNodes.getLast?, ∃ fr ∈ ev.fragments, fr.1 = n) → ev.Covers mNodes

theorem flag_truthful_iff (mId : ℕ) {mNodes : List ℕ} {ev : EbEvent} (h : mNodes ≠ []) :
    (packedFlag (packData mId mNodes ev).2 = lebFlagComplete.toUInt32 ↔ ev.Covers mNodes) ↔
      ev.LastNodeDecides mNodes := by
  have hlast : (∀ n ∈ mNodes.getLast?, ∃ fr ∈ ev.fragments, fr.1 = n) ↔
      ∃ fr ∈ ev.fragments, fr.1 = mNodes.getLast h := by
    simp [List.getLast?_eq_some_getLast h]
  change (packedFlag (packData mId mNodes ev).2 = 1 ↔ _) ↔ _
  rw [packedFlag_packData h, EbEvent.LastNodeDecides, hlast]
  exact ⟨Iff.mp, fun hd => ⟨hd, covers_getLast h⟩⟩

/-- A complete event is always flagged complete; the statistic can only count too many. -/
theorem packedFlag_of_covers {mId : ℕ} {mNodes : List ℕ} {ev : EbEvent} (h : mNodes ≠ [])
    (hc : ev.Covers mNodes) : packedFlag (packData mId mNodes ev).2 = 1 :=
  (packedFlag_packData h).mpr (covers_getLast h hc)

private theorem countP_eq_countP_iff {α : Type*} {p q : α → Bool} {l : List α}
    (himp : ∀ x ∈ l, p x = true → q x = true) :
    l.countP q = l.countP p ↔ ∀ x ∈ l, q x = true → p x = true := by
  induction l with
  | nil => simp
  | cons a l ih =>
    obtain ⟨ha, hl⟩ := List.forall_mem_cons.mp himp
    have hle := List.countP_mono_left hl
    rw [List.forall_mem_cons, ← ih hl, List.countP_cons, List.countP_cons]
    -- where `q` holds and `p` does not, the left count is strictly ahead
    cases hq : q a <;> cases hp : p a <;> simp_all
    omega

/-- The events counted as complete are those that are, exactly if the last node decides each. -/
theorem countP_flag_iff (mId : ℕ) {mNodes : List ℕ} (h : mNodes ≠ [])
    (calls : List (EbEvent × ℤ)) :
    calls.countP (fun c => packedFlag (packData mId mNodes c.1).2 = 1) =
        calls.countP (fun c => c.1.Covers mNodes) ↔
      ∀ c ∈ calls, c.1.LastNodeDecides mNodes := by
  have hsub : ∀ c ∈ calls, decide (c.1.Covers mNodes) = true →
      decide (packedFlag (packData mId mNodes c.1).2 = 1) = true := by
    intro c _ hc
    exact decide_eq_true (packedFlag_of_covers h (of_decide_eq_true hc))
  rw [countP_eq_countP_iff hsub]
  refine forall₂_congr fun c _ => ?_
  rw [← flag_truthful_iff mId h]
  simp only [decide_eq_true_eq]
  exact ⟨fun hd => ⟨hd, packedFlag_of_covers h⟩, Iff.mp⟩

/-- The flag of a packed event is right, and the statistic over any stretch of events between two
printouts, with the event at which it is printed, counts the complete ones, exactly for the events
whose last node decides. -/
theorem flag_and_statistic_iff (mId : ℕ) (mNodes : List ℕ) (h : mNodes ≠ []) :
    (∀ ev : EbEvent,
      (packedFlag (packData mId mNodes ev).2 = lebFlagComplete.toUInt32 ↔ ev.Covers mNodes) ↔
        ev.LastNodeDecides mNodes) ∧
    ∀ st : Throughput, st.Begins → ∀ calls : List (EbEvent × ℤ),
      throughputPrints st (calls.map fun c => ((packData mId mNodes c.1).2, c.2)) = [] →
      ((throughputRun st (calls.map fun c => ((packData mId mNodes c.1).2, c.2))).statFlag1 =
          calls.countP (fun c => c.1.Covers mNodes) ↔
        ∀ c ∈ calls, c.1.LastNodeDecides mNodes) ∧
      ∀ (ev : EbEvent) (dataSize elapse : ℤ) (printed : Throughput),
        (dispThroughput (throughputRun st (calls.map fun c => ((packData mId mNodes c.1).2, c.2)))
          (packData mId mNodes ev).2 dataSize elapse).2 = some printed →
        (printed.statFlag1 = (calls ++ [(ev, elapse)]).countP (fun c => c.1.Covers mNodes) ↔
          ∀ c ∈ calls ++ [(ev, elapse)], c.1.LastNodeDecides mNodes) := by
  refine ⟨fun ev => flag_truthful_iff mId h, fun st hst calls hcalls => ?_⟩
  have hrun : (throughputRun st
      (calls.map fun c => ((packData mId mNodes c.1).2, c.2))).statFlag1 =
        calls.countP (fun c => packedFlag (packData mId mNodes c.1).2 = 1) := by
    rw [throughputRun_statFlag1 hcalls, List.countP_map, hst.statFlag1, Nat.zero_add]
    rfl
  refine ⟨by rw [hrun, countP_flag_iff mId h], fun ev dataSize elapse printed hprinted => ?_⟩
  rw [printed_statFlag1 hprinted, hrun, ← countP_flag_iff mId h]
  simp only [List.countP_append, List.countP_singleton, decide_eq_true_eq]

/-- Two nodes, and a record that only the second has contributed to: the flag says
complete. -/
theorem flag_lies :
    ¬ ∀ (mId : ℕ) (mNodes : List ℕ), mNodes ≠ [] → ∀ ev : EbEvent,
      (packedFlag (packData mId mNodes ev).2 = lebFlagComplete.toUInt32 ↔
        ev.Covers mNodes) := by
  intro h
  have := h 999 [1, 2] (by decide) ⟨7, [2], [[0xaa]], false, 0⟩
  revert this
  decide

/-- A complete record, received out of the order of the nodes. -/
theorem flag_and_statistic_complete_record :
    (packedFlag (packData 999 [1, 2] ⟨7, [2, 1], [[0xaa], []], false, 0⟩).2 =
        lebFlagComplete.toUInt32 ↔
      EbEvent.Covers [1, 2] ⟨7, [2, 1], [[0xaa], []], false, 0⟩) ∧
    ∀ st : Throughput, st.Begins →
      (throughputRun st
        [((packData 999 [1, 2] ⟨7, [2, 1], [[0xaa], []], false, 0⟩).2, 5)]).statFlag1 = 1 := by
  have h := flag_and_statistic_iff 999 [1, 2] (by decide)
  have hlast : EbEvent.LastNodeDecides [1, 2] ⟨7, [2, 1], [[0xaa], []], false, 0⟩ :=
    fun _ => by decide
  refine ⟨(h.1 _).mpr hlast, fun st hst => ?_⟩
  have hquiet : throughputPrints st
      [((packData 999 [1, 2] ⟨7, [2, 1], [[0xaa], []], false, 0⟩).2, 5)] = [] := by
    simp [throughputPrints, dispThroughput]
  exact (h.2 st hst [(_, 5)] hquiet).1.mpr (by simpa using hlast)

end LebStudy
