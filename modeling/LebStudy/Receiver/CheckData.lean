import LebStudy.EventBuilder.PackedEvent
import LebStudy.Lib.Buffer

/-!
# `check_data` on what `pack_data` packs

`check_data` of `ebreceiver.cxx` walks over the records of a packed event by the
lengths in their headers, as many as the event header counts. Before each record
it compares its offset in the message, which includes the event header, with the
length in the event header, which does not. Of the trigger count it prints the
low sixteen bits.
-/

namespace LebStudy

open BigEndian

/-! ### The walk -/

/-- The line `#RECBE` that `check_data` prints for a record. -/
structure RecbeLine where
  nrecbe : ℕ
  type : ℕ
  id : ℕ
  sent : ℕ
  time : ℕ
  len : ℕ
  trig : ℕ
  deriving DecidableEq, Repr

/-- All that `check_data` prints. -/
structure CheckReport where
  size : ℤ
  magic : UInt32
  len : ℤ
  id : ℕ
  nodes : ℕ
  flag : ℕ
  recbes : List RecbeLine
  truncated : Bool
  deriving DecidableEq, Repr

/-- The line for a header: `Trig` is `trig_count & 0xffff`. -/
def RecbeLine.ofHeader (nrecbe : ℕ) (h : RecbeHeader) : RecbeLine where
  nrecbe := nrecbe
  type := h.type.toNat
  id := h.id.toNat
  sent := h.sentNum.toNat
  time := h.time.toNat
  len := h.len.toNat
  trig := (h.trigCount &&& 0xffff).toNat

/-- `for (int i = 0 ; i < nnodes ; i++)`, with `offset` for `body - data`. The flag tells
whether the loop was left with the message that the data are truncated. -/
def checkLoop (data : Buffer) (dlen : ℤ) : ℕ → ℕ → ℕ → List RecbeLine × Bool
  | 0, _, _ => ([], false)
  | nnodes + 1, offset, nrecbe =>
    if dlen ≤ offset then ([], true)
    else
      let h := RecbeHeader.ofBytes ((data.plus offset).bytes RecbeHeader.size)
      let (lines, truncated) :=
        checkLoop data dlen nnodes (offset + (h.len.toNat + RecbeHeader.size)) (nrecbe + 1)
      (RecbeLine.ofHeader nrecbe h :: lines, truncated)

/-- `check_data(data, size)` -/
def checkData (data : Buffer) (size : ℤ) : CheckReport :=
  let ev := PackedEvent.ofBytes (data.bytes PackedEvent.size)
  let dlen := ev.lengthInt
  let (recbes, truncated) := checkLoop data dlen ev.nodes.toNat PackedEvent.size 0
  { size := size
    magic := ev.magicRaw
    len := dlen
    id := ev.id.toNat
    nodes := ev.nodes.toNat
    flag := ev.flag.toNat
    recbes := recbes
    truncated := truncated }

/-! ### Events made of whole records -/

/-- An event whose fragments come from nodes of the list and are one record each. -/
structure RecordEvent (mNodes : List ℕ) where
  event : EbEvent
  records : List (ℕ × RecbeRecord)
  node_eq : event.node = records.map (·.1)
  data_eq : event.data = records.map (·.2.bytes)
  listed : ∀ r ∈ records, r.1 ∈ mNodes

namespace RecordEvent

variable {mNodes : List ℕ}

/-- The records in the order in which `pack_data` writes them. -/
def written (b : RecordEvent mNodes) : List RecbeRecord :=
  mNodes.flatMap fun n => (b.records.filter (·.1 = n)).map (·.2)

theorem fragments_eq (b : RecordEvent mNodes) :
    b.event.fragments = b.records.map fun r => (r.1, r.2.bytes) := by
  rw [EbEvent.fragments, b.node_eq, b.data_eq, List.zip_map']

theorem packBody_eq (b : RecordEvent mNodes) :
    packBody mNodes b.event.fragments = b.written.flatMap RecbeRecord.bytes := by
  rw [packBody, written, List.flatMap_assoc]
  congr 1
  funext n
  simp [nodeBody, b.fragments_eq, List.filter_map, Function.comp_def, List.flatMap]

/-- Splitting by distinct keys keeps all pairs whose key is among them. -/
private theorem flatMap_filter_perm {α : Type*} {keys : List ℕ} (hnd : keys.Nodup)
    {l : List (ℕ × α)} (hkeys : ∀ x ∈ l, x.1 ∈ keys) :
    (keys.flatMap fun n => l.filter (·.1 = n)).Perm l := by
  induction keys generalizing l with
  | nil =>
    have hnil : l = [] := List.eq_nil_iff_forall_not_mem.mpr fun x hx => by simpa using hkeys x hx
    simp [hnil]
  | cons k keys ih =>
    obtain ⟨hk, hnd⟩ := List.nodup_cons.mp hnd
    have hothers : ∀ x ∈ l.filter (fun x => !decide (x.1 = k)), x.1 ∈ keys := by
      intro x hx
      obtain ⟨hx, hne⟩ := List.mem_filter.mp hx
      have hmem := hkeys x hx
      simp only [Bool.not_eq_true', decide_eq_false_iff_not] at hne
      simpa [hne] using hmem
    have hsame : keys.flatMap (fun n => l.filter (·.1 = n)) =
        keys.flatMap fun n => (l.filter fun x => !decide (x.1 = k)).filter (·.1 = n) := by
      rw [List.flatMap_def, List.flatMap_def]
      refine congrArg List.flatten (List.map_congr_left fun n hn => ?_)
      rw [List.filter_filter]
      refine List.filter_congr fun x _ => ?_
      by_cases hx : x.1 = n
      · have hne : n ≠ k := fun heq => hk (heq ▸ hn)
        simp [hx, hne]
      · simp [hx]
    rw [List.flatMap_cons, hsame]
    exact ((ih hnd hothers).append_left _).trans (List.filter_append_perm _ l)

/-- What is written are the records of the event. -/
theorem written_perm (b : RecordEvent mNodes) (hnd : mNodes.Nodup) :
    b.written.Perm (b.records.map (·.2)) := by
  rw [written, ← List.map_flatMap]
  exact (flatMap_filter_perm hnd b.listed).map _

/-- The lines for the headers as they were sent, numbered from `nrecbe` on. -/
def linesAsSent : ℕ → List RecbeRecord → List RecbeLine
  | _, [] => []
  | nrecbe, r :: rs =>
    { nrecbe := nrecbe
      type := r.header.type.toNat
      id := r.header.id.toNat
      sent := r.header.sentNum.toNat
      time := r.header.time.toNat
      len := r.header.len.toNat
      trig := r.header.trigCount.toNat } :: linesAsSent (nrecbe + 1) rs

/-- `check_data` reads the message as it was made: a line for each record, in the order of
writing, with the fields as sent, and no complaint. -/
def Inverted (b : RecordEvent mNodes) (report : CheckReport) : Prop :=
  report.recbes = linesAsSent 0 b.written ∧ report.truncated = false

/-- The counts fit their fields, the last record written has more than four body bytes, and
no trigger count has passed sixteen bits. -/
def Checkable (b : RecordEvent mNodes) : Prop :=
  b.records.length < 2 ^ 16 ∧ (packBody mNodes b.event.fragments).length < 2 ^ 31 ∧
    (∀ r ∈ b.written.getLast?, 4 < r.header.len.toNat) ∧
      ∀ r ∈ b.written, r.header.trigCount.toNat < 2 ^ 16

end RecordEvent

/-! ### The walk over whole records -/

section Walk

variable {data : Buffer} {dlen : ℤ}

theorem ofHeader_eq_iff (nrecbe : ℕ) (r : RecbeRecord) :
    [RecbeLine.ofHeader nrecbe r.header] = RecordEvent.linesAsSent nrecbe [r] ↔
      r.header.trigCount.toNat < 2 ^ 16 := by
  have hmask : (r.header.trigCount &&& 0xffff).toNat = r.header.trigCount.toNat % 2 ^ 16 := by
    rw [UInt32.toNat_and]
    exact Nat.and_two_pow_sub_one_eq_mod _ 16
  simp only [RecbeLine.ofHeader, RecordEvent.linesAsSent, hmask, List.cons.injEq,
    RecbeLine.mk.injEq, true_and, and_true]
  constructor
  · intro h
    omega
  · intro h
    exact Nat.mod_eq_of_lt h

theorem checkLoop_length_le (nnodes offset nrecbe : ℕ) :
    (checkLoop data dlen nnodes offset nrecbe).1.length ≤ nnodes := by
  induction nnodes generalizing offset nrecbe with
  | zero => simp [checkLoop]
  | succ nnodes ih =>
    rw [checkLoop]
    by_cases h : dlen ≤ offset
    · simp [h]
    · rw [if_neg h]
      simp only [List.length_cons]
      exact Nat.succ_le_succ (ih _ _)

/-- The walk reads all records as sent exactly if the last one begins before `dlen` and the
trigger counts are small. -/
theorem checkLoop_eq_iff {recs : List RecbeRecord} {offset : ℕ} (nrecbe : ℕ)
    (hheld : (data.plus offset).Holds (recs.flatMap RecbeRecord.bytes)) :
    checkLoop data dlen recs.length offset nrecbe =
        (RecordEvent.linesAsSent nrecbe recs, false) ↔
      (∀ r ∈ recs.getLast?,
        (offset : ℤ) + (recs.flatMap RecbeRecord.bytes).length < dlen + r.bytes.length) ∧
        ∀ r ∈ recs, r.header.trigCount.toNat < 2 ^ 16 := by
  induction recs generalizing offset nrecbe with
  | nil => simp [checkLoop, RecordEvent.linesAsSent]
  | cons r rs ih =>
    obtain ⟨hheader, hrest⟩ := RecbeRecord.header_of_holds hheld
    rw [Buffer.plus_plus, RecbeRecord.bytes_length, Nat.add_comm RecbeHeader.size] at hrest
    have hline := ofHeader_eq_iff nrecbe r
    simp only [RecordEvent.linesAsSent, List.cons.injEq, and_true] at hline
    have hbytes := r.bytes_length
    rw [List.length_cons, checkLoop, hheader]
    by_cases hstop : dlen ≤ offset
    · -- the records behind this one only make the message longer
      rw [if_pos hstop]
      refine iff_of_false (by simp [RecordEvent.linesAsSent]) ?_
      rintro ⟨hlast, -⟩
      obtain ⟨x, hx⟩ : ∃ x, (r :: rs).getLast? = some x := ⟨_, List.getLast?_cons⟩
      have hle : x.bytes.length ≤ ((r :: rs).flatMap RecbeRecord.bytes).length := by
        exact (List.sublist_flatten_of_mem
          (List.mem_map_of_mem (List.mem_of_getLast? hx))).length_le
      have := hlast x hx
      omega
    · rw [if_neg hstop]
      simp only [Prod.mk.injEq, RecordEvent.linesAsSent, List.cons.injEq]
      rw [hline, and_assoc, ← Prod.mk.injEq, Prod.mk.eta, ih (nrecbe + 1) hrest,
        List.forall_mem_cons, List.flatMap_cons, List.length_append]
      cases rs with
      | nil =>
        have hlt : (offset : ℤ) < dlen := by omega
        simp [hlt]
      | cons r' rs =>
        simp only [List.getLast?_cons_cons]
        have hshift : ∀ x : RecbeRecord,
            ((offset + (r.header.len.toNat + RecbeHeader.size) : ℕ) : ℤ) +
                ((r' :: rs).flatMap RecbeRecord.bytes).length < dlen + x.bytes.length ↔
              (offset : ℤ) + (r.bytes.length +
                ((r' :: rs).flatMap RecbeRecord.bytes).length : ℕ) < dlen + x.bytes.length := by
          intro x
          omega
        simp only [hshift]
        tauto

end Walk

/-! ### `check_data` inverts `pack_data` -/

variable {mNodes : List ℕ}

/-- The header of the message, as `check_data` reads it. -/
theorem checkData_of_holds (mId : ℕ) (b : RecordEvent mNodes) {data : Buffer} (size : ℤ)
    (hdata : data.Holds (packData mId mNodes b.event).2) :
    ∃ ev : PackedEvent, ev.length = UInt32.ofNat (b.written.flatMap RecbeRecord.bytes).length ∧
      ev.nodes = UInt16.ofNat b.records.length ∧
      (data.plus PackedEvent.size).Holds (b.written.flatMap RecbeRecord.bytes) ∧
      ((checkData data size).recbes, (checkData data size).truncated) =
        checkLoop data ev.lengthInt ev.nodes.toNat PackedEvent.size 0 := by
  have hlen : b.event.data.length = b.records.length := by rw [b.data_eq, List.length_map]
  rw [packData_eq, b.packBody_eq, hlen] at hdata
  simp only at hdata
  generalize hev : (PackedEvent.mk _ _ _ _ _) = ev at hdata
  rw [Buffer.holds_append, PackedEvent.bytes_length] at hdata
  refine ⟨ev, by rw [← hev], by rw [← hev], hdata.2, ?_⟩
  rw [checkData, PackedEvent.ofBytes_of_holds hdata.1]

theorem linesAsSent_length (nrecbe : ℕ) (recs : List RecbeRecord) :
    (RecordEvent.linesAsSent nrecbe recs).length = recs.length := by
  induction recs generalizing nrecbe with
  | nil => rfl
  | cons r rs ih => simp [RecordEvent.linesAsSent, ih]

/-- The last record begins before the length in the header exactly if the length fits an
`int` and the record has more than four body bytes. -/
theorem last_before_iff {recs : List RecbeRecord} {ev : PackedEvent}
    (hev : ev.length = UInt32.ofNat (recs.flatMap RecbeRecord.bytes).length) :
    (∀ r ∈ recs.getLast?, ((PackedEvent.size : ℕ) : ℤ) +
        (recs.flatMap RecbeRecord.bytes).length < ev.lengthInt + r.bytes.length) ↔
      (recs.flatMap RecbeRecord.bytes).length < 2 ^ 31 ∧
        ∀ r ∈ recs.getLast?, 4 < r.header.len.toNat := by
  have htoNat : ev.length.toNat = (recs.flatMap RecbeRecord.bytes).length % 2 ^ 32 := by
    rw [hev, UInt32.toNat_ofNat']
  have hsize : PackedEvent.size = 16 := rfl
  have hheader : RecbeHeader.size = 12 := rfl
  have hbytes (r : RecbeRecord) := r.bytes_length
  by_cases hfit : (recs.flatMap RecbeRecord.bytes).length < 2 ^ 31
  · have hint := PackedEvent.lengthInt_of_lt (p := ev) (by omega)
    rw [and_iff_right hfit]
    refine forall₂_congr fun r _ => ?_
    have := hbytes r
    omega
  · refine iff_of_false ?_ (fun h => hfit h.1)
    intro hlast
    cases hrecs : recs.getLast? with
    | none =>
      rw [List.getLast?_eq_none_iff.mp hrecs] at hfit
      exact hfit (by simp)
    | some r =>
      have hr := hlast r hrecs
      have hlen := hbytes r
      have hlen16 := r.header.len.toNat_lt
      have hint := ev.lengthInt_lt
      -- the length in the header is negative as an `int`, or too small
      by_cases hwrap : (recs.flatMap RecbeRecord.bytes).length < 2 ^ 32
      · have hneg := PackedEvent.lengthInt_of_le (p := ev) (by omega)
        omega
      · omega

/-- `check_data` inverts `pack_data`, whatever lies behind the message, exactly for the events
that are checkable. -/
theorem checkData_inverts_iff (mId : ℕ) (mNodes : List ℕ) (hnd : mNodes.Nodup)
    (b : RecordEvent mNodes) (data : Buffer) (size : ℤ)
    (hdata : data.Holds (packData mId mNodes b.event).2) :
    b.Inverted (checkData data size) ↔ b.Checkable := by
  obtain ⟨ev, hlength, hnodes, hbody, hreport⟩ := checkData_of_holds mId b size hdata
  have hcount : b.written.length = b.records.length := by
    simpa using (b.written_perm hnd).length_eq
  have htoNat : ev.nodes.toNat = b.records.length % 2 ^ 16 := by
    rw [hnodes, UInt16.toNat_ofNat']
  rw [RecordEvent.Inverted, RecordEvent.Checkable, b.packBody_eq, ← Prod.mk.injEq, hreport]
  by_cases hfit : b.records.length < 2 ^ 16
  · have hloop : ev.nodes.toNat = b.written.length := by omega
    rw [hloop, checkLoop_eq_iff 0 hbody, last_before_iff hlength, and_iff_right hfit, and_assoc]
  · -- the count in the header is smaller, and the walk ends too early
    refine iff_of_false ?_ (fun h => hfit h.1)
    intro heq
    have hle := @checkLoop_length_le data ev.lengthInt ev.nodes.toNat PackedEvent.size 0
    rw [heq, linesAsSent_length] at hle
    omega

/-- An event with one record. -/
def RecordEvent.single (r : RecbeRecord) : RecordEvent [1] where
  event := ⟨7, [1], [r.bytes], false, 0⟩
  records := [(1, r)]
  node_eq := rfl
  data_eq := rfl
  listed := by simp

/-- A record of the given length, its body all zeros. -/
def RecbeRecord.zeros (id : UInt8) (len : UInt16) (trigCount : UInt32) : RecbeRecord where
  header := ⟨1, id, 0, 0, len, trigCount⟩
  body := List.replicate len.toNat 0
  body_length := List.length_replicate

/-- Memory with the message at its front and zeros behind it. -/
def messageBuffer (message : List UInt8) : Buffer := Buffer.store (fun _ => 0) message

/-- A record with four body bytes is reported as truncated. -/
theorem check_data_truncates :
    ¬ ∀ (mId : ℕ) (mNodes : List ℕ), mNodes.Nodup → ∀ (b : RecordEvent mNodes) (data : Buffer)
      (size : ℤ), data.Holds (packData mId mNodes b.event).2 →
        b.Inverted (checkData data size) := by
  intro h
  have hinv := h 999 [1] (by decide) (.single (.zeros 1 4 7))
    (messageBuffer (packData 999 [1] (RecordEvent.single (.zeros 1 4 7)).event).2) 32
    (Buffer.holds_store _ _)
  have htruncated := hinv.2
  revert htruncated
  decide

/-- An event whose second node was the first to contribute. -/
def RecordEvent.swapped (r r' : RecbeRecord) : RecordEvent [1, 2] where
  event := ⟨7, [2, 1], [r'.bytes, r.bytes], false, 0⟩
  records := [(2, r'), (1, r)]
  node_eq := rfl
  data_eq := rfl
  listed := by simp

theorem check_data_five_bytes :
    let b := RecordEvent.swapped (.zeros 1 0 7) (.zeros 2 5 7)
    b.written.map (fun r => r.header.id) = [1, 2] ∧
      b.Inverted (checkData (messageBuffer (packData 999 [1, 2] b.event).2) 45) := by
  have h := checkData_inverts_iff 999 [1, 2] (by decide)
    (.swapped (.zeros 1 0 7) (.zeros 2 5 7)) _ 45 (Buffer.holds_store (fun _ => 0) _)
  exact ⟨by decide, h.mpr ⟨by decide, by decide, by decide, by decide⟩⟩

end LebStudy
