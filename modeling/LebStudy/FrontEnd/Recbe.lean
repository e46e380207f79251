import LebStudy.Lib.BigEndian
import LebStudy.Lib.Buffer

/-!
# RECBE records and the messages between the tasks

`recbe.h` gives the header a front-end puts before each record, in network byte
order. `DTArecbe::st_running` sends a record to the event builder behind two
words of its own, `ebheader`, and `DTeb::st_running` takes the front-end id and
the trigger number back out of these words.
-/

namespace LebStudy

open BigEndian

/-- `struct recbe_header`, the fields in host order. -/
structure RecbeHeader where
  type : UInt8
  id : UInt8
  sentNum : UInt16
  time : UInt16
  len : UInt16
  trigCount : UInt32
  deriving DecidableEq, Repr

namespace RecbeHeader

/-- `sizeof(struct recbe_header)` -/
def size : ℕ := 12

/-- The header as it lies in memory, the numbers in network byte order. -/
def bytes (h : RecbeHeader) : List UInt8 :=
  h.type :: h.id :: (beBytes 2 h.sentNum.toNat ++ beBytes 2 h.time.toNat ++
    beBytes 2 h.len.toNat ++ beBytes 4 h.trigCount.toNat)

/-- The fields that a pointer to a header reads out of these bytes. -/
def ofBytes (bs : List UInt8) : RecbeHeader where
  type := bs.getD 0 0
  id := bs.getD 1 0
  sentNum := UInt16.ofNat (beNat ((bs.drop 2).take 2))
  time := UInt16.ofNat (beNat ((bs.drop 4).take 2))
  len := UInt16.ofNat (beNat ((bs.drop 6).take 2))
  trigCount := UInt32.ofNat (beNat ((bs.drop 8).take 4))

@[simp] theorem bytes_length (h : RecbeHeader) : h.bytes.length = size := by
  simp [bytes, size]

/-- The fields survive the trip through memory, whatever lies behind the header. -/
theorem ofBytes_bytes_append (h : RecbeHeader) (rest : List UInt8) :
    ofBytes (h.bytes ++ rest) = h := by
  simp [ofBytes, bytes, List.drop_append, List.drop_eq_nil_of_le]

/-- Any twelve bytes are a header. -/
theorem bytes_ofBytes {bs : List UInt8} (h : bs.length = size) : (ofBytes bs).bytes = bs := by
  obtain ⟨b0, b1, b2, b3, b4, b5, b6, b7, b8, b9, b10, b11, rfl⟩ :
      ∃ b0 b1 b2 b3 b4 b5 b6 b7 b8 b9 b10 b11,
        bs = [b0, b1, b2, b3, b4, b5, b6, b7, b8, b9, b10, b11] := by
    match bs, h with
    | [_, _, _, _, _, _, _, _, _, _, _, _], _ => exact ⟨_, _, _, _, _, _, _, _, _, _, _, _, rfl⟩
  change b0 :: b1 :: (beBytes 2 (UInt16.ofNat (beNat [b2, b3])).toNat ++
    beBytes 2 (UInt16.ofNat (beNat [b4, b5])).toNat ++
    beBytes 2 (UInt16.ofNat (beNat [b6, b7])).toNat ++
    beBytes 4 (UInt32.ofNat (beNat [b8, b9, b10, b11])).toNat) = _
  rw [beBytes_uint16 rfl, beBytes_uint16 rfl, beBytes_uint16 rfl, beBytes_uint32 rfl]
  rfl

/-- The header at the front of a stream is its first twelve bytes. -/
theorem bytes_ofBytes_take {bs : List UInt8} (h : size ≤ bs.length) :
    (ofBytes bs).bytes = bs.take size := by
  have htake : (ofBytes (bs.take size)).bytes = bs.take size :=
    bytes_ofBytes (by rw [List.length_take, Nat.min_eq_left h])
  have hsplit := ofBytes_bytes_append (ofBytes (bs.take size)) (bs.drop size)
  rw [htake, List.take_append_drop] at hsplit
  rw [hsplit, htake]

end RecbeHeader

/-- A record of the front-end: a header and the `len` body bytes it announces. -/
structure RecbeRecord where
  header : RecbeHeader
  body : List UInt8
  body_length : body.length = header.len.toNat
  deriving DecidableEq, Repr

namespace RecbeRecord

/-- The record on the wire. -/
def bytes (r : RecbeRecord) : List UInt8 := r.header.bytes ++ r.body

theorem bytes_length (r : RecbeRecord) :
    r.bytes.length = RecbeHeader.size + r.header.len.toNat := by
  simp [bytes, r.body_length]

/-- Where records lie in memory, a pointer to the first reads its header, and the others lie
behind it. -/
theorem header_of_holds {buf : Buffer} {r : RecbeRecord} {rs : List RecbeRecord}
    (hheld : buf.Holds ((r :: rs).flatMap bytes)) :
    RecbeHeader.ofBytes (buf.bytes RecbeHeader.size) = r.header ∧
      (buf.plus r.bytes.length).Holds (rs.flatMap bytes) := by
  rw [List.flatMap_cons, Buffer.holds_append] at hheld
  obtain ⟨hrecord, hrest⟩ := hheld
  rw [bytes, Buffer.holds_append, Buffer.Holds, RecbeHeader.bytes_length] at hrecord
  refine ⟨?_, hrest⟩
  rw [hrecord.1]
  simpa using RecbeHeader.ofBytes_bytes_append r.header []

/-- The stream holds a whole record at its front. -/
def Complete (stream : List UInt8) : Prop :=
  RecbeHeader.size + (RecbeHeader.ofBytes stream).len.toNat ≤ stream.length

instance (stream : List UInt8) : Decidable (Complete stream) :=
  inferInstanceAs (Decidable (_ ≤ _))

theorem complete_bytes_append (r : RecbeRecord) (rest : List UInt8) :
    Complete (r.bytes ++ rest) := by
  simp [Complete, bytes, List.append_assoc, RecbeHeader.ofBytes_bytes_append, r.body_length]

theorem not_complete_nil : ¬ Complete [] := by decide

/-- The record at the front of a stream that holds one. -/
def ofStream (stream : List UInt8) (h : Complete stream) : RecbeRecord where
  header := .ofBytes stream
  body := (stream.drop RecbeHeader.size).take (RecbeHeader.ofBytes stream).len.toNat
  body_length := by
    rw [Complete] at h
    rw [List.length_take, List.length_drop]
    omega

theorem bytes_ofStream_append {stream : List UInt8} (h : Complete stream) :
    (ofStream stream h).bytes ++ stream.drop (ofStream stream h).bytes.length = stream := by
  have hlen : RecbeHeader.size ≤ stream.length := (Nat.le_add_right _ _).trans h
  have hbytes : (ofStream stream h).bytes =
      stream.take (RecbeHeader.size + (RecbeHeader.ofBytes stream).len.toNat) := by
    rw [List.take_add, ← RecbeHeader.bytes_ofBytes_take hlen]
    rfl
  rw [bytes_length, hbytes]
  exact List.take_append_drop _ stream

/-- The records of a stream: as many as it holds whole, from its front. A record has twelve
bytes at least, so its length bounds their number. -/
def recordsLoop : ℕ → List UInt8 → List RecbeRecord
  | 0, _ => []
  | fuel + 1, stream =>
    if h : Complete stream then
      ofStream stream h :: recordsLoop fuel (stream.drop (ofStream stream h).bytes.length)
    else []

def records (stream : List UInt8) : List RecbeRecord := recordsLoop stream.length stream

theorem recordsLoop_spec {fuel : ℕ} {stream : List UInt8} (hfuel : stream.length ≤ fuel) :
    ∃ tail, stream = (recordsLoop fuel stream).flatMap bytes ++ tail ∧ ¬ Complete tail := by
  induction fuel generalizing stream with
  | zero =>
    obtain rfl : stream = [] := List.length_eq_zero_iff.mp (by omega)
    exact ⟨[], rfl, not_complete_nil⟩
  | succ fuel ih =>
    by_cases h : Complete stream
    · have hsplit := bytes_ofStream_append h
      have hpos : 0 < (ofStream stream h).bytes.length := by
        rw [bytes_length, RecbeHeader.size]
        omega
      have hle : (stream.drop (ofStream stream h).bytes.length).length ≤ fuel := by
        rw [List.length_drop]
        omega
      obtain ⟨tail, htail, hnot⟩ := ih hle
      refine ⟨tail, ?_, hnot⟩
      rw [recordsLoop, dif_pos h, List.flatMap_cons, List.append_assoc, ← htail, hsplit]
    · exact ⟨stream, by simp [recordsLoop, h], h⟩

/-- Behind its records a stream has no whole record. -/
theorem records_spec (stream : List UInt8) :
    ∃ tail, stream = (records stream).flatMap bytes ++ tail ∧ ¬ Complete tail :=
  recordsLoop_spec (Nat.le_refl _)

theorem ofStream_bytes_append (r : RecbeRecord) (rest : List UInt8)
    (h : Complete (r.bytes ++ rest)) : ofStream (r.bytes ++ rest) h = r := by
  have hheader : RecbeHeader.ofBytes (r.bytes ++ rest) = r.header := by
    rw [bytes, List.append_assoc, RecbeHeader.ofBytes_bytes_append]
  have hbody : ((r.bytes ++ rest).drop RecbeHeader.size).take r.header.len.toNat = r.body := by
    rw [bytes, List.append_assoc, ← r.header.bytes_length, List.drop_left, ← r.body_length,
      List.take_left]
  obtain ⟨header, body, hlength⟩ := r
  simp only at hheader hbody
  simp only [ofStream, hheader, hbody]

theorem recordsLoop_eq {rs : List RecbeRecord} {tail : List UInt8} (htail : ¬ Complete tail)
    {fuel : ℕ} (hfuel : (rs.flatMap bytes ++ tail).length ≤ fuel) :
    recordsLoop fuel (rs.flatMap bytes ++ tail) = rs := by
  induction rs generalizing fuel with
  | nil =>
    cases fuel with
    | zero => rfl
    | succ fuel => simp [recordsLoop, htail]
  | cons r rs ih =>
    have hstream : (r :: rs).flatMap bytes ++ tail = r.bytes ++ (rs.flatMap bytes ++ tail) := by
      rw [List.flatMap_cons, List.append_assoc]
    have hcomplete := r.complete_bytes_append (rs.flatMap bytes ++ tail)
    rw [hstream] at hfuel ⊢
    rw [List.length_append, bytes_length, RecbeHeader.size] at hfuel
    obtain ⟨fuel, rfl⟩ : ∃ k, fuel = k + 1 := Nat.exists_eq_succ_of_ne_zero (by omega)
    rw [recordsLoop, dif_pos hcomplete, ofStream_bytes_append, List.drop_left]
    exact congrArg (r :: ·) (ih (by omega))

/-- The records of a stream are those it is made of, if no other follows. -/
theorem records_eq {rs : List RecbeRecord} {tail : List UInt8} (htail : ¬ Complete tail) :
    records (rs.flatMap bytes ++ tail) = rs :=
  recordsLoop_eq htail (Nat.le_refl _)

/-- A record cut short is no record. -/
theorem not_complete_of_prefix {r : RecbeRecord} {front : List UInt8} (h : front <+: r.bytes)
    (hne : front ≠ r.bytes) : ¬ Complete front := by
  obtain ⟨rest, hrest⟩ := h
  have hlen := r.bytes_length
  rw [← hrest, List.length_append] at hlen
  intro hcomplete
  rw [Complete] at hcomplete
  have hheader : RecbeHeader.ofBytes front = r.header := by
    have hlong : RecbeHeader.size ≤ front.length := (Nat.le_add_right _ _).trans hcomplete
    have htake : front.take RecbeHeader.size = r.header.bytes := by
      have hfront := congrArg (List.take RecbeHeader.size) hrest
      rw [List.take_append_of_le_length hlong, bytes, ← r.header.bytes_length, List.take_left]
        at hfront
      rw [← r.header.bytes_length]
      exact hfront
    rw [← List.take_append_drop RecbeHeader.size front, htake, RecbeHeader.ofBytes_bytes_append]
  rw [hheader] at hcomplete
  have hnil : rest = [] := List.length_eq_zero_iff.mp (by omega)
  exact hne (by rw [← hrest, hnil, List.append_nil])

end RecbeRecord

/-- A zmq message from a front-end task to the event builder: the two words of
`ebheader`, then the bytes behind them. -/
structure Message where
  head0 : UInt32
  head1 : UInt32
  cbody : List UInt8
  deriving DecidableEq, Repr

/-- `ebheader[0] = 0xff000000 | header->id; ebheader[1] = 0xf0000000 | ntohl(trig_count)`,
in front of what was read. -/
def Message.ofHeader (h : RecbeHeader) (cbody : List UInt8) : Message where
  head0 := 0xff000000 ||| h.id.toUInt32
  head1 := 0xf0000000 ||| h.trigCount
  cbody := cbody

/-- The message for one whole record. -/
def RecbeRecord.message (r : RecbeRecord) : Message := Message.ofHeader r.header r.bytes

/-- A record without body bytes. -/
def RecbeRecord.empty (id : UInt8) (trigCount : UInt32) : RecbeRecord where
  header := ⟨1, id, 0, 0, 0, trigCount⟩
  body := []
  body_length := rfl

namespace Message

/-- `head[0] & 0x000000ff` -/
def id (m : Message) : ℕ := (m.head0 &&& 0x000000ff).toNat

/-- `head[1] & 0x0fffffff` -/
def trig (m : Message) : ℕ := (m.head1 &&& 0x0fffffff).toNat

/-- The id byte passes through the tagged word unchanged. -/
theorem ofHeader_id (h : RecbeHeader) (cbody : List UInt8) :
    (ofHeader h cbody).id = h.id.toNat := by
  have hmask : (0x000000ff : UInt32).toNat = 2 ^ 8 - 1 := rfl
  have htag : (0xff000000 : UInt32).toNat % 2 ^ 8 = 0 := by decide
  rw [id, ofHeader, UInt32.toNat_and, UInt32.toNat_or, hmask, Nat.and_two_pow_sub_one_eq_mod,
    Nat.or_mod_two_pow, htag, Nat.zero_or, UInt8.toNat_toUInt32]
  exact Nat.mod_eq_of_lt h.id.toNat_lt

/-- Of the trigger count only the low 28 bits reach the event builder. -/
theorem ofHeader_trig (h : RecbeHeader) (cbody : List UInt8) :
    (ofHeader h cbody).trig = h.trigCount.toNat % 2 ^ 28 := by
  have hmask : (0x0fffffff : UInt32).toNat = 2 ^ 28 - 1 := rfl
  have htag : (0xf0000000 : UInt32).toNat % 2 ^ 28 = 0 := by decide
  rw [trig, ofHeader, UInt32.toNat_and, UInt32.toNat_or, hmask, Nat.and_two_pow_sub_one_eq_mod,
    Nat.or_mod_two_pow, htag, Nat.zero_or]

end Message

end LebStudy
