import LebStudy.Receiver.CheckData
import LebStudy.Receiver.Checkleb
import LebStudy.Receiver.ReadFile
import LebStudy.Receiver.RecordWalk

/-!
# Where the dumpers read

`check_data` and `reading` with `-r` follow lengths that they find in the data, and
compare them with other numbers in the data or with nothing. This module says for
which messages, files and inputs they keep inside the bytes that they have received for
an event.
-/

namespace LebStudy

open BigEndian

/-- What a dumper does with an event: the number of bytes received for it, the offsets in these
of the recbe headers that are read, how many the event counts, and whether an error message
is printed. -/
structure Dump where
  received : ℕ
  headers : List ℕ
  nodes : ℕ
  complaint : Bool

/-- Offset and number of the bytes read: the event header, and the recbe headers. -/
def Dump.reads (d : Dump) : List (ℕ × ℕ) :=
  (0, PackedEvent.size) :: d.headers.map fun o => (o, RecbeHeader.size)

/-- Nothing is read outside the bytes received, and if records are not visited, it is said. -/
structure Dump.Safe (d : Dump) : Prop where
  inside : ∀ r ∈ d.reads, r.1 + r.2 ≤ d.received
  reported : d.headers.length < d.nodes → d.complaint = true

theorem Dump.safe_iff (d : Dump) : d.Safe ↔ PackedEvent.size ≤ d.received ∧
    (∀ o ∈ d.headers, o + RecbeHeader.size ≤ d.received) ∧
      (d.headers.length < d.nodes → d.complaint = true) := by
  have hinside : (∀ r ∈ d.reads, r.1 + r.2 ≤ d.received) ↔ PackedEvent.size ≤ d.received ∧
      ∀ o ∈ d.headers, o + RecbeHeader.size ≤ d.received := by
    rw [Dump.reads, List.forall_mem_cons, List.forall_mem_map, Nat.zero_add]
  rw [← and_assoc, ← hinside]
  exact ⟨fun h => ⟨h.inside, h.reported⟩, fun h => ⟨h.1, h.2⟩⟩

/-! ### `check_data` -/

/-- What `check_data(data, size)` does, where so many bytes at `data` have been received. -/
def checkDump (data : Buffer) (size : ℤ) (received : ℕ) : Dump :=
  let ev := PackedEvent.ofBytes (data.bytes PackedEvent.size)
  { received := received
    headers := recordWalk (fun offset => decide (ev.lengthInt ≤ offset)) data ev.nodes.toNat
      PackedEvent.size
    nodes := ev.nodes.toNat
    complaint := (checkData data size).truncated }

/-- The message has an event header, and behind it the recbe headers that are read before the
length in the event header is reached. -/
def HoldsEvent (message : List UInt8) : Prop :=
  PackedEvent.size ≤ message.length ∧
    HoldsHeaders (fun offset => decide ((PackedEvent.ofBytes message).lengthInt ≤ offset))
      (PackedEvent.ofBytes message).nodes.toNat PackedEvent.size (message.drop PackedEvent.size)

section CheckData

variable {data data' : Buffer} {dlen : ℤ}

/-- The lines printed are those of the headers at the offsets of the walk. -/
theorem checkLoop_eq_walk (nnodes offset nrecbe : ℕ) :
    checkLoop data dlen nnodes offset nrecbe =
      ((recordWalk (fun o => decide (dlen ≤ o)) data nnodes offset).mapIdx fun i o =>
          RecbeLine.ofHeader (nrecbe + i) (headerAt data o),
        decide ((recordWalk (fun o => decide (dlen ≤ o)) data nnodes offset).length < nnodes)) := by
  induction nnodes generalizing offset nrecbe with
  | zero => rfl
  | succ nnodes ih =>
    rw [checkLoop, recordWalk]
    by_cases hstop : dlen ≤ offset
    · rw [if_pos hstop, if_pos (decide_eq_true hstop)]
      rfl
    · rw [if_neg hstop, if_neg (by simpa using hstop)]
      show (RecbeLine.ofHeader nrecbe (headerAt data offset) :: (checkLoop data dlen nnodes
          (offset + ((headerAt data offset).len.toNat + RecbeHeader.size)) (nrecbe + 1)).1,
        (checkLoop data dlen nnodes
          (offset + ((headerAt data offset).len.toNat + RecbeHeader.size)) (nrecbe + 1)).2) = _
      rw [ih, List.mapIdx_cons, List.length_cons]
      simp only [Nat.add_lt_add_iff_right, Nat.add_zero, Nat.add_assoc, Nat.add_comm 1]

/-- What is printed of the records are the headers at the offsets read. -/
theorem checkData_recbes (data : Buffer) (size : ℤ) (received : ℕ) :
    (checkData data size).recbes = (checkDump data size received).headers.mapIdx
      fun i o => RecbeLine.ofHeader i (headerAt data o) := by
  simp only [checkData, checkDump, checkLoop_eq_walk, Nat.zero_add]

/-- The report depends on no more than the bytes that are read. -/
theorem checkData_congr (size : ℤ) (received : ℕ)
    (h : ∀ r ∈ (checkDump data size received).reads, ∀ k < r.2,
      data (r.1 + k) = data' (r.1 + k)) :
    checkData data' size = checkData data size := by
  rw [Dump.reads, List.forall_mem_cons, List.forall_mem_map] at h
  obtain ⟨hevent, hheaders⟩ := h
  have hbytes : data.bytes PackedEvent.size = data'.bytes PackedEvent.size :=
    Buffer.bytes_congr fun k hk => by simpa using hevent k hk
  have hsame : ∀ o ∈ (checkDump data size received).headers, headerAt data o = headerAt data' o :=
    fun o ho => headerAt_congr (hheaders o ho)
  rw [checkDump] at hsame
  have hwalk := recordWalk_congr hsame
  simp only [checkData, ← hbytes, checkLoop_eq_walk, hwalk]
  congr 1
  refine List.ext_getElem (by simp) fun i hi hi' => ?_
  rw [List.length_mapIdx] at hi
  rw [List.getElem_mapIdx, List.getElem_mapIdx, hsame _ (List.getElem_mem hi)]

/-- Too few records are reported always. -/
theorem checkDump_reported (size : ℤ) (received : ℕ) :
    (checkDump data size received).headers.length < (checkDump data size received).nodes →
      (checkDump data size received).complaint = true := by
  intro h
  simp only [checkDump, checkData, checkLoop_eq_walk] at h ⊢
  exact decide_eq_true h

/-- A message, whatever lies behind it in memory. -/
theorem checkDump_safe_iff (mem : Buffer) (message : List UInt8) (size : ℤ) :
    (checkDump (mem.store message) size message.length).Safe ↔ HoldsEvent message := by
  have hholds := Buffer.holds_store mem message
  rw [Dump.safe_iff, HoldsEvent, and_iff_left (checkDump_reported size message.length)]
  refine and_congr_right fun hle => ?_
  have hev : PackedEvent.ofBytes ((mem.store message).bytes PackedEvent.size) =
      PackedEvent.ofBytes message := by
    have hbytes : (mem.store message).bytes PackedEvent.size =
        (PackedEvent.ofBytes message).bytes := by
      rw [Buffer.bytes_store hle]
      nth_rewrite 1 [PackedEvent.bytes_append_drop hle]
      exact List.take_left' (PackedEvent.bytes_length _)
    rw [hbytes, ← List.append_nil (PackedEvent.ofBytes message).bytes,
      PackedEvent.ofBytes_bytes_append]
  simp only [checkDump, hev]
  exact recordWalk_inside_iff hholds

end CheckData

/-! ### `read_file` -/

/-- All calls of `check_data` that `read_file` makes are safe, whatever lies behind the bytes in
memory. -/
def ReadFileSafe (content : List UInt8) : Prop :=
  ∃ calls, readFile content = some calls ∧ ∀ call ∈ calls, ∀ mem : Buffer,
    (checkDump (mem.store call.data) call.size call.data.length).Safe

theorem readFileSafe_iff (content : List UInt8) :
    ReadFileSafe content ↔ ∀ event ∈ fileEvents content, HoldsEvent event := by
  rw [ReadFileSafe, readFile_eq]
  constructor
  · rintro ⟨calls, hcalls, hsafe⟩ event hevent
    cases hcalls
    exact (checkDump_safe_iff (fun _ => 0) event _).mp
      (hsafe _ (List.mem_map_of_mem hevent) fun _ => 0)
  · intro h
    refine ⟨_, rfl, fun call hcall mem => ?_⟩
    obtain ⟨event, hevent, rfl⟩ := List.mem_map.mp hcall
    exact (checkDump_safe_iff mem event _).mpr (h event hevent)

end LebStudy
