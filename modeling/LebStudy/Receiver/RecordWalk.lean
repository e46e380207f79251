import LebStudy.FrontEnd.Recbe

/-!
# Walks over records by the lengths in their headers

The dumpers follow the records of an event from header to header. What such a walk
reads lies inside the bytes received exactly if these are whole records and one more
header, with which the walk is at its end.
-/

namespace LebStudy

/-- The header that the pointer `buf + offset` reads. -/
def headerAt (buf : Buffer) (offset : ℕ) : RecbeHeader :=
  RecbeHeader.ofBytes ((buf.plus offset).bytes RecbeHeader.size)

/-- The offsets of the headers that are read on a walk over `count` records, from `offset` on;
it is left before a record where `stop` says so. -/
def recordWalk (stop : ℕ → Bool) (buf : Buffer) : ℕ → ℕ → List ℕ
  | 0, _ => []
  | count + 1, offset =>
    if stop offset then []
    else
      offset :: recordWalk stop buf count
        (offset + ((headerAt buf offset).len.toNat + RecbeHeader.size))

/-- The bytes behind `offset` hold all headers of the walk: there is no record to read, or there
are whole records and one more header, and the walk is left behind this one at the latest. -/
def HoldsHeaders (stop : ℕ → Bool) (count offset : ℕ) (bytes : List UInt8) : Prop :=
  count = 0 ∨ stop offset = true ∨
    ∃ (records : List RecbeRecord) (header : RecbeHeader) (rest : List UInt8),
      bytes = records.flatMap RecbeRecord.bytes ++ (header.bytes ++ rest) ∧
        (count ≤ records.length + 1 ∨
          stop (offset + (records.flatMap RecbeRecord.bytes).length +
            (header.len.toNat + RecbeHeader.size)) = true)

section Walk

variable {stop : ℕ → Bool} {buf buf' : Buffer} {count offset : ℕ} {bytes rest : List UInt8}
  {header : RecbeHeader}

/-- The walk sees no more than the bytes of the headers at its offsets. -/
theorem recordWalk_congr
    (h : ∀ o ∈ recordWalk stop buf count offset, headerAt buf o = headerAt buf' o) :
    recordWalk stop buf' count offset = recordWalk stop buf count offset := by
  induction count generalizing offset with
  | zero => rfl
  | succ count ih =>
    rw [recordWalk, recordWalk]
    by_cases hstop : stop offset = true
    · rw [if_pos hstop, if_pos hstop]
    · rw [recordWalk, if_neg hstop] at h
      obtain ⟨hfirst, hothers⟩ := List.forall_mem_cons.mp h
      rw [if_neg hstop, if_neg hstop, ← hfirst, ih hothers]

/-- The walk is left at once, or goes on behind the first record. -/
theorem recordWalk_cases (stop : ℕ → Bool) (buf : Buffer) (count offset : ℕ) :
    recordWalk stop buf count offset = [] ∨
      ∃ others, count = others + 1 ∧ recordWalk stop buf count offset =
        offset :: recordWalk stop buf others
          (offset + ((headerAt buf offset).len.toNat + RecbeHeader.size)) := by
  cases count with
  | zero => exact .inl rfl
  | succ others =>
    rw [recordWalk]
    by_cases hstop : stop offset = true
    · exact .inl (if_pos hstop)
    · exact .inr ⟨others, rfl, if_neg hstop⟩

theorem headerAt_congr (h : ∀ k < RecbeHeader.size, buf (offset + k) = buf' (offset + k)) :
    headerAt buf offset = headerAt buf' offset :=
  congrArg RecbeHeader.ofBytes (Buffer.bytes_congr h)

/-- Nothing stops a walk without a test. -/
theorem recordWalk_length (buf : Buffer) (count offset : ℕ) :
    (recordWalk (fun _ => false) buf count offset).length = count := by
  induction count generalizing offset with
  | zero => rfl
  | succ count ih => rw [recordWalk, if_neg Bool.false_ne_true, List.length_cons, ih]

/-- Where the bytes received go on with a header, it is the one that is read. -/
theorem headerAt_of_holds (hbuf : buf.Holds bytes)
    (hdrop : bytes.drop offset = header.bytes ++ rest) :
    headerAt buf offset = header ∧ offset + RecbeHeader.size ≤ bytes.length := by
  have hlen := congrArg List.length hdrop
  rw [List.length_drop, List.length_append, RecbeHeader.bytes_length] at hlen
  have hsize : RecbeHeader.size = 12 := rfl
  have hle : offset + RecbeHeader.size ≤ bytes.length := by omega
  refine ⟨?_, hle⟩
  have hoffset : (bytes.take offset).length = offset := by
    rw [List.length_take]
    omega
  rw [← List.take_append_drop offset bytes, Buffer.holds_append, hoffset, hdrop,
    Buffer.holds_append] at hbuf
  have hread : (buf.plus offset).bytes header.bytes.length = header.bytes := hbuf.2.1
  rw [RecbeHeader.bytes_length] at hread
  rw [headerAt, hread, ← List.append_nil header.bytes, RecbeHeader.ofBytes_bytes_append]

/-- Any twelve bytes received are a header. -/
theorem drop_eq_header (hbuf : buf.Holds bytes) (hle : offset + RecbeHeader.size ≤ bytes.length) :
    bytes.drop offset = (headerAt buf offset).bytes ++ bytes.drop (offset + RecbeHeader.size) := by
  have hlen : RecbeHeader.size ≤ (bytes.drop offset).length := by
    rw [List.length_drop]
    omega
  have hdrop : bytes.drop offset = (RecbeHeader.ofBytes (bytes.drop offset)).bytes ++
      bytes.drop (offset + RecbeHeader.size) := by
    rw [RecbeHeader.bytes_ofBytes_take hlen, ← List.drop_drop, List.take_append_drop]
  rw [(headerAt_of_holds hbuf hdrop).1]
  exact hdrop

/-- What the walk reads is there, if the bytes hold its headers. -/
theorem recordWalk_inside (hbuf : buf.Holds bytes) {records : List RecbeRecord}
    (hbytes : bytes.drop offset =
      records.flatMap RecbeRecord.bytes ++ (header.bytes ++ rest))
    (hend : count ≤ records.length + 1 ∨
      stop (offset + (records.flatMap RecbeRecord.bytes).length +
        (header.len.toNat + RecbeHeader.size)) = true) :
    ∀ o ∈ recordWalk stop buf count offset, o + RecbeHeader.size ≤ bytes.length := by
  induction records generalizing count offset with
  | nil =>
    rcases recordWalk_cases stop buf count offset with hnone | ⟨others, rfl, hfirst⟩
    · rw [hnone]
      exact fun o ho => nomatch ho
    · -- behind the header the walk is left
      obtain ⟨hheader, hle⟩ := headerAt_of_holds hbuf hbytes
      have hlast : recordWalk stop buf others
          (offset + (header.len.toNat + RecbeHeader.size)) = [] := by
        cases others with
        | zero => rfl
        | succ others =>
          rcases hend with hcount | hleft
          · simp at hcount
          · rw [recordWalk, if_pos (by simpa using hleft)]
      rw [hfirst, hheader, hlast, List.forall_mem_singleton]
      exact hle
  | cons r rs ih =>
    rcases recordWalk_cases stop buf count offset with hnone | ⟨others, rfl, hfirst⟩
    · rw [hnone]
      exact fun o ho => nomatch ho
    · rw [List.flatMap_cons, List.append_assoc] at hbytes
      have hrecord := hbytes
      rw [RecbeRecord.bytes, List.append_assoc] at hrecord
      obtain ⟨hheader, hle⟩ := headerAt_of_holds hbuf hrecord
      have hlen : r.header.len.toNat + RecbeHeader.size = r.bytes.length := by
        rw [r.bytes_length, Nat.add_comm]
      rw [hfirst, hheader, hlen, List.forall_mem_cons]
      refine ⟨hle, ih ?_ ?_⟩
      · rw [← List.drop_drop, hbytes, List.drop_left]
      · refine hend.imp (fun hcount => ?_) fun hleft => ?_
        · rw [List.length_cons] at hcount
          omega
        · rwa [List.flatMap_cons, List.length_append, ← Nat.add_assoc offset] at hleft

/-- If all that the walk reads is there, the bytes hold its headers. -/
theorem holdsHeaders_of_inside (hbuf : buf.Holds bytes)
    (h : ∀ o ∈ recordWalk stop buf count offset, o + RecbeHeader.size ≤ bytes.length) :
    HoldsHeaders stop count offset (bytes.drop offset) := by
  induction count generalizing offset with
  | zero => exact .inl rfl
  | succ count ih =>
    by_cases hstop : stop offset = true
    · exact .inr (.inl hstop)
    · rw [recordWalk, if_neg hstop] at h
      obtain ⟨hle, hothers⟩ := List.forall_mem_cons.mp h
      have hheader := drop_eq_header hbuf hle
      obtain hcount | hleft | ⟨rs, last, rest, hrest, hend⟩ := ih hothers
      · refine .inr (.inr ⟨[], headerAt buf offset, _, hheader, .inl ?_⟩)
        rw [hcount]
        exact Nat.le_refl _
      · exact .inr (.inr ⟨[], headerAt buf offset, _, hheader, .inr hleft⟩)
      · -- the next header is there, so the body of this record is
        have hlen := congrArg List.length hrest
        rw [List.length_drop, List.length_append, List.length_append,
          RecbeHeader.bytes_length] at hlen
        have hsize : RecbeHeader.size = 12 := rfl
        have hbody : ((bytes.drop (offset + RecbeHeader.size)).take
            (headerAt buf offset).len.toNat).length = (headerAt buf offset).len.toNat := by
          rw [List.length_take, List.length_drop]
          omega
        have hnext : bytes.drop (offset + ((headerAt buf offset).len.toNat + RecbeHeader.size)) =
            (bytes.drop (offset + RecbeHeader.size)).drop (headerAt buf offset).len.toNat := by
          rw [List.drop_drop, Nat.add_comm _ RecbeHeader.size, Nat.add_assoc]
        refine .inr (.inr ⟨⟨headerAt buf offset, _, hbody⟩ :: rs, last, rest, ?_, ?_⟩)
        · rw [List.flatMap_cons, List.append_assoc, ← hrest, hnext, RecbeRecord.bytes,
            List.append_assoc, List.take_append_drop]
          exact hheader
        · refine hend.imp (fun hcount => ?_) fun hleft => ?_
          · rw [List.length_cons]
            omega
          · rw [List.flatMap_cons, List.length_append, RecbeRecord.bytes_length,
              Nat.add_comm RecbeHeader.size, ← Nat.add_assoc offset]
            exact hleft

/-- The walk keeps inside the bytes received exactly if they hold its headers. -/
theorem recordWalk_inside_iff (hbuf : buf.Holds bytes) :
    (∀ o ∈ recordWalk stop buf count offset, o + RecbeHeader.size ≤ bytes.length) ↔
      HoldsHeaders stop count offset (bytes.drop offset) := by
  constructor
  · exact holdsHeaders_of_inside hbuf
  · rintro (hcount | hstop | ⟨records, header, rest, hbytes, hend⟩)
    · subst hcount
      exact fun o ho => nomatch ho
    · cases count with
      | zero => exact fun o ho => nomatch ho
      | succ count =>
        rw [recordWalk, if_pos hstop]
        exact fun o ho => nomatch ho
    · exact recordWalk_inside hbuf hbytes hend

end Walk

end LebStudy
