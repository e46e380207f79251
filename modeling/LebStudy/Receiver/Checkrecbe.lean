import LebStudy.FrontEnd.Recbe
import LebStudy.Lib.IStream

/-!
# checkrecbe

`reading` of `checkrecbe.cxx` takes recbe records off `cin`, a header and as many
bytes behind it as the header says, and prints a line for each. The end of the stream
is asked for behind the header only, so that a record whose body is cut short is
printed too. The body goes to a buffer of 8000 bytes, whatever its length.
-/

namespace LebStudy

namespace Checkrecbe

/-- `new unsigned short [4000]`, in bytes. -/
def bodySize : ℕ := 4000 * 2

/-- `ntoh_header`: the fields of the header as it came, in host order. -/
def ntohHeader (raw : List UInt8) : RecbeHeader := .ofBytes raw

/-- A turn of the loop: the header whose fields are printed, and the bytes that
`std::cin.read(cbody, header.len)` puts at the start of the body buffer. -/
structure Line where
  header : RecbeHeader
  body : List UInt8
  deriving DecidableEq, Repr

/-- The body read stays in its buffer. -/
def Line.Fits (l : Line) : Prop := l.body.length ≤ bodySize

/-- `while (! std::cin.eof()) { .. }`: the turns, if the loop is left after at most so many. -/
def readingLoop : ℕ → IStream → Option (List Line)
  | 0, _ => none
  | turns + 1, cin =>
    if cin.eof then some []
    else
      let (cheader, cin) := cin.read RecbeHeader.size
      if cin.eof then some []
      else
        let header := ntohHeader cheader
        let (cbody, cin) := cin.read header.len.toNat
        (readingLoop turns cin).map (⟨header, cbody⟩ :: ·)

/-- `reading` on a stream with this content. A turn that is not the last takes a header off the
stream. -/
def reading (content : List UInt8) : Option (List Line) :=
  readingLoop (content.length + 2) (.ofBytes content)

/-- The turn for a record. -/
def Line.ofRecord (r : RecbeRecord) : Line := ⟨r.header, r.body⟩

/-- The turn for what lies behind the last whole record: none unless there is a header. -/
def cutLine (tail : List UInt8) : List Line :=
  if RecbeHeader.size ≤ tail.length then
    [⟨ntohHeader (tail.take RecbeHeader.size), tail.drop RecbeHeader.size⟩]
  else []

variable {cin : IStream} {turns : ℕ}

/-- A record at the front of the stream is one turn. -/
theorem readingLoop_record (r : RecbeRecord) {rest : List UInt8}
    (h : cin.Good (r.bytes ++ rest)) :
    ∃ cin' : IStream, cin'.Good rest ∧
      readingLoop (turns + 1) cin = (readingLoop turns cin').map (Line.ofRecord r :: ·) := by
  rw [RecbeRecord.bytes, List.append_assoc] at h
  obtain ⟨hheader, hgood, -⟩ := IStream.read_of_good h
  rw [RecbeHeader.bytes_length] at hheader hgood
  have hntoh : ntohHeader r.header.bytes = r.header := by
    simpa [ntohHeader] using RecbeHeader.ofBytes_bytes_append r.header []
  obtain ⟨hbody, hgood', -⟩ := IStream.read_of_good hgood
  rw [r.body_length] at hbody hgood'
  refine ⟨_, hgood', ?_⟩
  rw [readingLoop, h.1, if_neg Bool.false_ne_true]
  simp only [hheader, hgood.1, Bool.false_eq_true, if_false, hntoh, hbody, Line.ofRecord]

/-- Without a whole record the loop ends: at a header cut short, or after the body cut short. -/
theorem readingLoop_tail {tail : List UInt8} (h : cin.Good tail)
    (hnot : ¬ RecbeRecord.Complete tail) :
    readingLoop (turns + 2) cin = some (cutLine tail) := by
  rw [readingLoop, h.1, if_neg Bool.false_ne_true, cutLine]
  by_cases hheader : RecbeHeader.size ≤ tail.length
  · have hlen : (tail.take RecbeHeader.size).length = RecbeHeader.size :=
      List.length_take_of_le hheader
    have hsplit := List.take_append_drop RecbeHeader.size tail
    obtain ⟨hgot, hgood, -⟩ := IStream.read_of_good (hsplit.symm ▸ h)
    rw [hlen] at hgot hgood
    have hfields : ntohHeader (tail.take RecbeHeader.size) = RecbeHeader.ofBytes tail := by
      conv_rhs => rw [← hsplit, ← RecbeHeader.bytes_ofBytes hlen]
      exact (RecbeHeader.ofBytes_bytes_append _ _).symm
    have hshort : (tail.drop RecbeHeader.size).length <
        (ntohHeader (tail.take RecbeHeader.size)).len.toNat := by
      rw [RecbeRecord.Complete] at hnot
      rw [hfields, List.length_drop]
      omega
    have hread := IStream.read_of_short hgood hshort
    simp only [hgot, hgood.1, Bool.false_eq_true, if_false, hread]
    rw [readingLoop, if_pos rfl, Option.map_some, if_pos hheader]
  · have hread := IStream.read_of_short h (Nat.lt_of_not_le hheader)
    simp only [hread, if_true, if_neg hheader]

/-- The turns on any stream: one for each record, and one for a record cut in its body. -/
theorem readingLoop_eq (rs : List RecbeRecord) {tail : List UInt8}
    (h : cin.Good (rs.flatMap RecbeRecord.bytes ++ tail)) (hnot : ¬ RecbeRecord.Complete tail)
    (hturns : rs.length + 2 ≤ turns) :
    readingLoop turns cin = some (rs.map Line.ofRecord ++ cutLine tail) := by
  induction rs generalizing cin turns with
  | nil =>
    obtain ⟨turns, rfl⟩ := Nat.exists_eq_add_of_le hturns
    rw [List.length_nil, Nat.zero_add, Nat.add_comm]
    exact readingLoop_tail h hnot
  | cons r rs ih =>
    rw [List.flatMap_cons, List.append_assoc] at h
    rw [List.length_cons] at hturns
    obtain ⟨turns, rfl⟩ : ∃ n, turns = n + 1 := ⟨turns - 1, by omega⟩
    obtain ⟨cin', hgood, hturn⟩ := @readingLoop_record cin turns r _ h
    rw [hturn, ih hgood (by omega)]
    rfl

theorem length_le_flatMap_bytes (rs : List RecbeRecord) :
    rs.length ≤ (rs.flatMap RecbeRecord.bytes).length := by
  induction rs with
  | nil => exact Nat.le_refl _
  | cons r rs ih =>
    have hsize : RecbeHeader.size = 12 := rfl
    rw [List.flatMap_cons, List.length_append, RecbeRecord.bytes_length, List.length_cons]
    omega

/-- `reading` ends on every stream. -/
theorem reading_eq (rs : List RecbeRecord) {tail : List UInt8}
    (hnot : ¬ RecbeRecord.Complete tail) :
    reading (rs.flatMap RecbeRecord.bytes ++ tail) =
      some (rs.map Line.ofRecord ++ cutLine tail) := by
  have hle := length_le_flatMap_bytes rs
  apply readingLoop_eq rs (IStream.good_ofBytes _) hnot
  rw [List.length_append]
  omega

theorem reading_records (rs : List RecbeRecord) :
    reading (rs.flatMap RecbeRecord.bytes) = some (rs.map Line.ofRecord) := by
  have h := reading_eq rs RecbeRecord.not_complete_nil
  rwa [List.append_nil, cutLine, if_neg (by decide), List.append_nil] at h

/-- The turn for a record keeps to the buffer exactly if the record says so. -/
theorem ofRecord_fits_iff (r : RecbeRecord) :
    (Line.ofRecord r).Fits ↔ r.header.len.toNat ≤ bodySize := by
  rw [Line.Fits, Line.ofRecord, r.body_length]

/-- On a stream of records `reading` prints the header of each, in order, and stops at the end.
It keeps to the body buffer exactly if no record announces more than 8000 bytes. -/
theorem reading_lists_records (rs : List RecbeRecord) :
    (∃ lines, reading (rs.flatMap RecbeRecord.bytes) = some lines ∧
        lines.map Line.header = rs.map RecbeRecord.header ∧ ∀ l ∈ lines, l.Fits) ↔
      ∀ r ∈ rs, r.header.len.toNat ≤ bodySize := by
  have hheaders : (rs.map Line.ofRecord).map Line.header = rs.map RecbeRecord.header := by
    rw [List.map_map]
    rfl
  rw [reading_records]
  constructor
  · rintro ⟨lines, hlines, -, hfits⟩ r hr
    obtain rfl := Option.some.inj hlines
    exact (ofRecord_fits_iff r).mp (hfits _ (List.mem_map_of_mem hr))
  · intro hle
    refine ⟨_, rfl, hheaders, ?_⟩
    rw [List.forall_mem_map]
    intro r hr
    exact (ofRecord_fits_iff r).mpr (hle r hr)

/-- A record with a body of 8001 bytes. -/
def longRecord : RecbeRecord where
  header := ⟨1, 0, 0, 0, 8001, 0⟩
  body := List.replicate 8001 0
  body_length := List.length_replicate

/-- Its last byte goes behind the buffer. -/
theorem reading_overruns_body :
    ¬ ∀ rs : List RecbeRecord, ∃ lines, reading (rs.flatMap RecbeRecord.bytes) = some lines ∧
        lines.map Line.header = rs.map RecbeRecord.header ∧ ∀ l ∈ lines, l.Fits := by
  intro h
  obtain ⟨lines, hlines, -, hfits⟩ := h [longRecord]
  rw [reading_records] at hlines
  obtain rfl := Option.some.inj hlines
  have hfit := (ofRecord_fits_iff longRecord).mp (hfits _ (List.mem_singleton_self _))
  exact absurd hfit (by decide)

end Checkrecbe

end LebStudy
